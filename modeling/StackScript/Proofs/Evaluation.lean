import StackScript.Code.OfProgram
import StackScript.Machine.Host

namespace StackScript

inductive Stop where
  | divideByZero
  | overflow
  | exhausted
  | hostFailed (reason : String)
  deriving DecidableEq, Repr

def Stop.trap : Stop → Trap
  | divideByZero => .divideByZero
  | overflow => .overflow
  | exhausted => .exhausted
  | hostFailed reason => .hostFailed reason

def truthWord (b : Bool) : Word := if b then 1 else 0

/-- Arithmetic wraps, division goes toward zero. -/
def BinaryOp.apply (op : BinaryOp) (left right : Word) : Except Stop Word :=
  match op with
  | add => .ok (left + right)
  | sub => .ok (left - right)
  | mul => .ok (left * right)
  | floorDiv =>
    if right = 0 then .error .divideByZero
    else if left = Int32.minValue ∧ right = -1 then .error .overflow
    else .ok (left / right)
  | mod => if right = 0 then .error .divideByZero else .ok (left % right)
  | lt => .ok (truthWord (left < right))
  | le => .ok (truthWord (left ≤ right))
  | gt => .ok (truthWord (right < left))
  | ge => .ok (truthWord (right ≤ left))
  | eq | is => .ok (truthWord (left == right))
  | ne => .ok (truthWord (left != right))

/-- How words are taken as truth values. -/
structure Truth where
  negate : Word → Word
  /-- Whether a loop starts; from then on it goes on until its condition is zero. -/
  enters : Word → Bool

def Truth.plain : Truth := ⟨fun v => truthWord (v == 0), (· != 0)⟩

def Truth.parity : Truth := ⟨fun v => (v + 1) % 2, fun v => (v + 1) % 2 == 0⟩

def UnaryOp.apply (truth : Truth) : UnaryOp → Word → Word
  | neg, v => -v
  | not, v => truth.negate v

structure World (σ : Type) where
  store : σ
  host : Host

/-- An evaluation gives no answer if it runs out of fuel, else a value or a stop, and the world
then. Fuel bounds the nesting of calls and the rounds of loops, and nothing else. -/
def Eval (σ α : Type) : Type := World σ → Option (Except Stop α × World σ)

namespace Eval

variable {σ α β : Type}

protected def pure (a : α) : Eval σ α := fun w => some (.ok a, w)

protected def bind (g : Eval σ α) (f : α → Eval σ β) : Eval σ β := fun w =>
  match g w with
  | none => none
  | some (.error stop, w) => some (.error stop, w)
  | some (.ok a, w) => f a w

instance : Monad (Eval σ) where
  pure := Eval.pure
  bind := Eval.bind

instance : LawfulMonad (Eval σ) := by
  refine LawfulMonad.mk' (Eval σ) ?_ ?_ ?_
  · intro α g
    funext w
    change Eval.bind g (fun a => Eval.pure a) w = g w
    unfold Eval.bind Eval.pure
    rcases g w with _ | ⟨_ | a, w'⟩ <;> rfl
  · intro α β a f
    rfl
  · intro α β γ g f h
    funext w
    change Eval.bind (Eval.bind g f) h w = Eval.bind g (fun a => Eval.bind (f a) h) w
    unfold Eval.bind
    rcases g w with _ | ⟨_ | a, w'⟩ <;> rfl

/-- A sequence has a value exactly if both parts do. -/
theorem bind_ok {g : Eval σ α} {f : α → Eval σ β} {b : β} {w w' : World σ} :
    (g >>= f) w = some (.ok b, w') ↔
      ∃ a v, g w = some (.ok a, v) ∧ f a v = some (.ok b, w') := by
  change Eval.bind g f w = _ ↔ _
  unfold Eval.bind
  rcases g w with _ | ⟨_ | a, v⟩
  · simp
  · simp
  · simp only [Option.some.injEq, Prod.mk.injEq, Except.ok.injEq]
    constructor
    · exact fun h => ⟨a, v, ⟨rfl, rfl⟩, h⟩
    · rintro ⟨_, _, ⟨rfl, rfl⟩, h⟩
      exact h

def endless : Eval σ α := fun _ => none

def stop (why : Stop) : Eval σ α := fun w => some (.error why, w)

def lift (r : Except Stop α) : Eval σ α := fun w => some (r, w)

def read (f : σ → α) : Eval σ α := fun w => some (.ok (f w.store), w)

def modify (f : σ → σ) : Eval σ Unit := fun w => some (.ok (), { w with store := f w.store })

def serve (c : HostCall) : Eval σ Unit := fun w =>
  match w.host.serve c with
  | .ok host => some (.ok (), { w with host })
  | .error reason => some (.error (.hostFailed reason), { w with host := w.host.noting c })

end Eval

/-- What top-level names mean at a place of the program: how they are kept, and their types, by which
a print chooses its form. -/
structure Site (σ : Type) where
  read : String → σ → Word
  write : String → Word → σ → σ
  scopes : Scopes

structure Routine (σ : Type) where
  site : Site σ
  params : List Param
  result : Ty
  body : List Stmt

def Routine.frame {σ : Type} (r : Routine σ) (args : List Word) : Table Word :=
  .ofList ((r.params.map (·.name)).zip args ++
    ((FunctionCode.localsOf r.body).map (·.1)).map fun name => (name, 0))

def HostCall.ofPrint (type : Ty) (value : Word) : HostCall :=
  match type with
  | .int => .printInt value
  | .bool => .printBool value
  | .none | .void => .print value

inductive Flow where
  | next (locals : Table Word)
  | returned (value : Word)

variable {σ : Type}

def Expr.printType (s : Scopes) (e : Expr) : Ty :=
  match e.typeIn s with
  | .ok type => type
  | .error _ => .void

namespace Expr

variable (truth : Truth) (call : String → List Word → Eval σ Word) (site : Site σ)
  (locals : Table Word)

mutual

def eval : Expr → Eval σ Word
  | .noneLit _ => return 0
  | .boolLit _ value => return truthWord value
  | .intLit _ value => return value
  | .var _ name =>
    match locals.get? name with
    | some value => return value
    | none => .read (site.read name)
  | .unary _ op operand => do
    let value ← eval operand
    return op.apply truth value
  | .binary _ op left right => do
    let l ← eval left
    let r ← eval right
    .lift (op.apply l r)
  | .call _ callee args => do
    let values ← evalAll args
    call callee values
  | .print _ arg => do
    let value ← eval arg
    .serve (.ofPrint (arg.printType site.scopes) value)
    return 0

/-- The values of arguments, from left to right. -/
def evalAll : List Expr → Eval σ (List Word)
  | [] => return []
  | e :: es => do
    let value ← eval e
    let values ← evalAll es
    return value :: values

end

end Expr

namespace Stmt

/-- A loop of at most `rounds` rounds. `test` decides on the first of them. -/
def loop (cond : Table Word → Eval σ Word) (body : Table Word → Eval σ Flow) :
    (rounds : Nat) → (test : Word → Bool) → Table Word → Eval σ Flow
  | 0, _, _ => .endless
  | rounds + 1, test, locals => do
    let value ← cond locals
    if test value then
      match ← body locals with
      | .next locals => loop cond body rounds (· != 0) locals
      | .returned value => return .returned value
    else return .next locals

variable (truth : Truth) (call : String → List Word → Eval σ Word) (site : Site σ) (fuel : Nat)

def assignTo (name : String) (value : Word) (locals : Table Word) : Eval σ Flow :=
  if locals.contains name then return .next (locals.insert name value)
  else do
    .modify (site.write name value)
    return .next locals

mutual

def eval : Stmt → Table Word → Eval σ Flow
  | .pass _, locals => return .next locals
  | .init _ name _ value, locals | .assign _ name value, locals => do
    let value ← value.eval truth call site locals
    assignTo site name value locals
  | .expr _ value, locals => do
    let _ ← value.eval truth call site locals
    return .next locals
  | .ret _ value, locals => do
    let value ← value.eval truth call site locals
    return .returned value
  | .ifElse _ cond yes no, locals => do
    let test ← cond.eval truth call site locals
    if test ≠ 0 then evalAll yes locals else evalAll no locals
  | .ifElif _ cond yes cond' yes' no, locals => do
    let test ← cond.eval truth call site locals
    if test ≠ 0 then evalAll yes locals
    else do
      let test' ← cond'.eval truth call site locals
      if test' ≠ 0 then evalAll yes' locals else evalAll no locals
  | .whileDo _ cond body, locals =>
    loop (cond.eval truth call site) (evalAll body) fuel truth.enters locals
  | .define .., locals => return .next locals

def evalAll : List Stmt → Table Word → Eval σ Flow
  | [], locals => return .next locals
  | s :: ss, locals => do
    match ← eval s locals with
    | .next locals => evalAll ss locals
    | .returned value => return .returned value

end

/-- Top-level statements: the value of a last expression is the value of all. -/
def evalTop : List Stmt → Eval σ (Option Word)
  | [] => return none
  | [.expr _ value] => do
    let value ← value.eval truth call site .empty
    return some value
  | s :: ss => do
    let _ ← eval truth call site fuel s .empty
    evalTop ss

end Stmt

/-- Calls a function by its name while `depth` calls are live, the entry counted. -/
def callAt (truth : Truth) (routine? : String → Option (Routine σ)) (limit : Nat) :
    (fuel depth : Nat) → String → List Word → Eval σ Word
  | 0, _, _, _ => .endless
  | fuel + 1, depth, name, args =>
    match routine? name with
    | none => .endless
    | some r =>
      if depth < limit then do
        match ← Stmt.evalAll truth (callAt truth routine? limit fuel (depth + 1)) r.site fuel r.body
          (r.frame args) with
        | .next _ => return 0
        | .returned value => return value
      else .stop .exhausted

def evalUnit (truth : Truth) (routine? : String → Option (Routine σ)) (limit : Nat) (site : Site σ)
    (fuel : Nat) (body : List Stmt) : Eval σ (Option Word) :=
  if 0 < limit then Stmt.evalTop truth (callAt truth routine? limit fuel 1) site fuel body
  else .stop .exhausted

/-- Top-level variables kept by their names; one that has no value yet is zero. -/
def Site.byName (scopes : Scopes) : Site (Table Word) where
  read name store := (store.get? name).getD 0
  write name value store := store.insert name value
  scopes := scopes

namespace Program

def routine? (p : Program) (declared : Layer) (name : String) : Option (Routine (Table Word)) :=
  p.body.findSome? fun
    | .define _ defined params result body =>
      if defined = name then
        let own := FunctionCode.layerOf params (FunctionCode.localsOf body)
        some ⟨.byName (Scopes.push ⟨declared, []⟩ own), params, result, body⟩
      else none
    | _ => none

/-- Evaluates a program on its own, all its variables at zero. A name means a parameter or variable
of the function around it if there is one of that name, and a top-level variable otherwise. -/
def evaluate (p : Program) (declared : Layer) (limit fuel : Nat) :
    Option (Except Stop (Option Word) × World (Table Word)) :=
  evalUnit .plain (p.routine? declared) limit (.byName ⟨declared, []⟩) fuel p.body
    ⟨.empty, .reliable⟩

end Program

end StackScript
