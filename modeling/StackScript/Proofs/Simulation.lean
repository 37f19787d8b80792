import StackScript.ModuleText
import StackScript.Proofs.Instructions
import StackScript.Proofs.Running

namespace StackScript

namespace Instr

mutual

def loaded : Instr → Instr
  | .address offset _ => .const offset
  | .block body => .block (loadedAll body)
  | .loop body => .loop (loadedAll body)
  | i => i

def loadedAll : List Instr → List Instr
  | [] => []
  | i :: is => loaded i :: loadedAll is

end

@[simp] theorem loadedAll_append (a b : List Instr) :
    loadedAll (a ++ b) = loadedAll a ++ loadedAll b := by
  induction a with
  | nil => rfl
  | cons i is ih => simp [loadedAll, ih]

end Instr

namespace Table

variable {α : Type}

@[simp] theorem contains_insert (t : Table α) (name other : String) (value : α) :
    (t.insert name value).contains other = (other == name || t.contains other) := by
  by_cases h : other = name <;> simp [contains, h]

theorem contains_ofList (entries : List (String × α)) (name : String) :
    (ofList entries).contains name = (entries.map (·.1)).contains name := by
  have general (t : Table α) :
      (entries.foldl (fun t e => t.insert e.1 e.2) t).contains name =
        (t.contains name || (entries.map (·.1)).contains name) := by
    induction entries generalizing t with
    | nil => simp
    | cons e es ih =>
      rw [List.foldl_cons, ih, contains_insert]
      simp [Bool.or_assoc, Bool.or_left_comm]
  exact general empty

end Table

namespace Expr

mutual

def CallsFit (arity : String → Option Nat) : Expr → Prop
  | .noneLit _ | .boolLit .. | .intLit .. | .var .. => True
  | .unary _ _ operand => CallsFit arity operand
  | .binary _ _ left right => CallsFit arity left ∧ CallsFit arity right
  | .call _ callee args => arity callee = some args.length ∧ CallsFitAll arity args
  | .print _ arg => CallsFit arity arg

def CallsFitAll (arity : String → Option Nat) : List Expr → Prop
  | [] => True
  | e :: es => CallsFit arity e ∧ CallsFitAll arity es

end

end Expr

namespace Stmt

mutual

def CallsFit (arity : String → Option Nat) : Stmt → Prop
  | .pass _ | .define .. => True
  | .init _ _ _ value | .assign _ _ value | .expr _ value | .ret _ value => value.CallsFit arity
  | .ifElse _ cond yes no =>
    cond.CallsFit arity ∧ CallsFitAll arity yes ∧ CallsFitAll arity no
  | .ifElif _ cond yes cond' yes' no =>
    cond.CallsFit arity ∧ CallsFitAll arity yes ∧ cond'.CallsFit arity ∧ CallsFitAll arity yes' ∧
      CallsFitAll arity no
  | .whileDo _ cond body => cond.CallsFit arity ∧ CallsFitAll arity body

def CallsFitAll (arity : String → Option Nat) : List Stmt → Prop
  | [] => True
  | s :: ss => CallsFit arity s ∧ CallsFitAll arity ss

end

mutual

/-- Whether a statement can return from the function around it. -/
def returns : Stmt → Bool
  | .ret .. => true
  | .ifElse _ _ yes no => returnsAny yes || returnsAny no
  | .ifElif _ _ yes _ yes' no => returnsAny yes || returnsAny yes' || returnsAny no
  | .whileDo _ _ body => returnsAny body
  | _ => false

def returnsAny : List Stmt → Bool
  | [] => false
  | s :: ss => returns s || returnsAny ss

end

end Stmt

def Page.slots : Nat := Memory.pageSize / Layout.slotSize

def Layout.Fits (l : Layout) : Prop := ∀ name slot, l.slots.get? name = some slot → slot < Page.slots

def Context.site (c : Context) : Site Page := c.layout.site c.scopes

def Context.Owns (c : Context) (locals : Table Word) : Prop :=
  ∀ name, locals.contains name = c.isLocal name

/-- The function of a loaded module that runs a routine. -/
def Routine.function (r : Routine Page) (name : String) (c : Context) : Function :=
  ⟨some name, r.params.map (·.name), 1, (FunctionCode.localsOf r.body).map (·.1),
    Instr.loadedAll (Stmt.instrsAll c r.body ++ [.const 0]), none, none⟩

/-- A routine whose code, written in the context `c`, the module holds. -/
structure Routine.Compiled (m : Module) (arity : String → Option Nat) (name : String)
    (r : Routine Page) (c : Context) : Prop where
  site : r.site = c.site
  own : c.locals = some (r.params.map (·.name) ++ (FunctionCode.localsOf r.body).map (·.1))
  fits : c.layout.Fits
  placed : Stmt.PlacedAll c r.body
  calls : Stmt.CallsFitAll arity r.body
  loaded : m.function? name = some (r.function name c)

def Ty.hostFunction : Ty → HostFunction
  | .int => .printInt
  | .bool => .printBool
  | .none | .void => .print

/-- A module that holds the code of all functions that can be called, and the host's functions that
print. -/
structure Linked (m : Module) (routine? : String → Option (Routine Page))
    (arity : String → Option Nat) : Prop where
  routine : ∀ {name : String} {k : Nat}, arity name = some k →
    ∃ r c, routine? name = some r ∧ r.params.length = k ∧ r.Compiled m arity name c
  printer : ∀ type : Ty, ∃ f module field, m.function? type.printer = some f ∧
    f.imported = some (module, field) ∧
      HostFunction.resolve? module field = some type.hostFunction

/-- The state in which a frame stands at some code, the world being `w`. -/
abbrev Machine.stateAt (w : World Page) (results : Nat) (locals : Table Word) (stack : List Word)
    (labels : List Machine.Label) (callers : List Machine.Frame) : Machine.State :=
  ⟨w.store.memory, w.host, ⟨results, locals, stack, labels⟩, callers⟩

open Machine

/-- A slot of a page has an address in it. -/
theorem Page.holds_slot (page : Page) {slot : Nat} (h : slot < Page.slots) :
    page.memory.Holds (Int32.ofNat (slot * Layout.slotSize)) ∧
      (Int32.ofNat (slot * Layout.slotSize)).toInt.toNat = slot * Layout.slotSize := by
  have hlt : slot < 16384 := h
  have hi : (Int32.ofNat (slot * Layout.slotSize)).toInt = (slot * 4 : Nat) :=
    Int32.toInt_ofNat_of_lt (by simp only [Layout.slotSize]; omega)
  refine ⟨⟨by omega, ?_⟩, by rw [hi]; rfl⟩
  rw [hi, page.sized, Memory.pageSize]
  omega

/-- A top-level variable is loaded from the address of its slot, which lies in the page. -/
theorem Context.address {c : Context} {name : String} (hf : c.layout.Fits) (hk : c.Knows name)
    (hl : c.isLocal name = false) : ∃ slot, c.layout.slots.get? name = some slot ∧
      (c.addressInstr name).loaded = .const (Int32.ofNat (slot * Layout.slotSize)) ∧
      ∀ page : Page, page.memory.Holds (Int32.ofNat (slot * Layout.slotSize)) ∧
        (Int32.ofNat (slot * Layout.slotSize)).toInt.toNat = slot * Layout.slotSize := by
  obtain ⟨slot, hs⟩ := hk hl
  exact ⟨slot, hs, by simp [addressInstr, Layout.address?, hs, Instr.loaded],
    fun page => page.holds_slot (hf name slot hs)⟩

theorem NumOp.apply_ofBinary (op : BinaryOp) (left right : Word) :
    (NumOp.ofBinary op).apply left right =
      match op.apply left right with
      | .ok value => .ok value
      | .error stop => .error stop.trap := by
  cases op with
  | floorDiv =>
    simp only [NumOp.ofBinary, NumOp.apply, BinaryOp.apply]
    split
    · rfl
    · split <;> rfl
  | mod =>
    simp only [NumOp.ofBinary, NumOp.apply, BinaryOp.apply]
    split <;> rfl
  | _ => rfl

/-- A call at this depth is followed, whatever the frame it is made from. -/
def CallsFollow (m : Module) (limit n depth : Nat) (arity : String → Option Nat)
    (call : String → List Word → Eval Page Word) : Prop :=
  ∀ name args w results locals stack kind rest height outer callers,
    callers.length + 1 = depth → arity name = some args.length →
    Follows m limit n
      (stateAt w results locals (args.reverse ++ stack)
        (⟨kind, .call name args.length 1 :: rest, height⟩ :: outer) callers)
      (call name args w)
      (fun v w' => .running (stateAt w' results locals (v :: stack) (⟨kind, rest, height⟩ :: outer)
        callers))
      (fun _ => True)

section Expressions

variable {m : Module} {limit n : Nat} {arity : String → Option Nat}
  {call : String → List Word → Eval Page Word} {c : Context} {locals : Table Word}
  {callers : List Frame}

/-- Words are negated by their last bit. Whether a word is a truth value plays no part here. -/
theorem unary_follows (op : UnaryOp) (v : Word) (w : World Page) (results : Nat)
    (stack : List Word) (kind : LabelKind) (rest : List Instr) (height : Nat) (outer : List Label) :
    Reaches m limit
      (stateAt w results locals (v :: stack)
        (⟨kind, Instr.loadedAll op.instrs ++ rest, height⟩ :: outer) callers)
      (.running (stateAt w results locals (op.apply .parity v :: stack)
        (⟨kind, rest, height⟩ :: outer) callers)) := by
  cases op with
  | neg =>
    have hv : v * -1 = -v := by rw [Int32.mul_comm, ← Int32.neg_eq_neg_one_mul]
    refine .trans (.one rfl) (.one ?_)
    change Progress.running (stateAt w results locals (v * -1 :: stack) _ callers) = _
    rw [hv]
    rfl
  | not =>
    have hz : (2 : Word) ≠ 0 := by decide
    refine .trans (.one rfl) (.trans (.one rfl) (.trans (.one rfl) (.one ?_)))
    simp only [step, exec, NumOp.apply, if_neg hz]
    rfl

theorem var_follows (hf : c.layout.Fits) (hd : c.Owns locals) {name : String}
    (hk : c.Knows name) {span : Span} (w : World Page) (results : Nat) (stack : List Word)
    (kind : LabelKind) (rest : List Instr) (height : Nat) (outer : List Label) :
    Follows m limit n
      (stateAt w results locals stack
        (⟨kind, Instr.loadedAll ((Expr.var span name).instrs c) ++ rest, height⟩ :: outer) callers)
      ((Expr.var span name).eval .parity call c.site locals w)
      (fun v w' => .running (stateAt w' results locals (v :: stack) (⟨kind, rest, height⟩ :: outer)
        callers))
      (fun _ => True) := by
  have hown := hd name
  cases hlocal : c.isLocal name with
  | true =>
    rw [hlocal, Table.contains] at hown
    obtain ⟨v, hv⟩ := Option.isSome_iff_exists.mp hown
    simp only [Expr.eval, Expr.instrs, hlocal, hv, ↓reduceIte]
    refine Follows.reached (.one ?_) trivial
    simp only [Instr.loadedAll, Instr.loaded, List.cons_append, List.nil_append, step, exec, hv]
  | false =>
    rw [hlocal, Table.contains, Option.isSome_eq_false_iff, Option.isNone_iff_eq_none] at hown
    obtain ⟨slot, hs, ha, hpage⟩ := Context.address hf hk hlocal
    obtain ⟨hholds, hnat⟩ := hpage w.store
    simp only [Expr.eval, Expr.instrs, hlocal, hown, Bool.false_eq_true, ↓reduceIte]
    refine Follows.reached ?_ trivial
    simp only [Instr.loadedAll, Instr.loaded, ha, List.cons_append, List.nil_append]
    refine .trans (.one rfl) (.one ?_)
    simp only [step, exec, Memory.load?, if_pos hholds, hnat, Context.site, Layout.site, hs]

mutual

/-- The run of the code of an expression leaves its value on the stack. -/
theorem Expr.follows (hcall : CallsFollow m limit n (callers.length + 1) arity call)
    (hf : c.layout.Fits) (hd : c.Owns locals) (e : Expr) (hs : e.Silent) (hp : e.Placed c)
    (hc : e.CallsFit arity) (w : World Page) (results : Nat) (stack : List Word) (kind : LabelKind)
    (rest : List Instr) (height : Nat) (outer : List Label) :
    Follows m limit n
      (stateAt w results locals stack
        (⟨kind, Instr.loadedAll (e.instrs c) ++ rest, height⟩ :: outer) callers)
      (e.eval .parity call c.site locals w)
      (fun v w' => .running (stateAt w' results locals (v :: stack) (⟨kind, rest, height⟩ :: outer)
        callers))
      (fun _ => True) := by
  match e with
  | .noneLit _ | .boolLit .. | .intLit .. =>
    simp only [eval]
    exact Follows.reached (.one rfl) trivial
  | .var span name => exact var_follows hf hd hp w results stack kind rest height outer
  | .unary _ op operand =>
    simp only [eval, instrs, Instr.loadedAll_append, List.append_assoc]
    refine Follows.bind (follows hcall hf hd operand hs hp hc w results stack kind _ height outer) ?_
    intro v w' _
    exact Follows.reached (unary_follows op v w' results stack kind rest height outer) trivial
  | .binary _ op left right =>
    obtain ⟨hpl, hpr⟩ := hp
    obtain ⟨hcl, hcr⟩ := hc
    obtain ⟨hsl, hsr⟩ := Nat.add_eq_zero_iff.mp hs
    simp only [eval, instrs, Instr.loadedAll_append, List.append_assoc]
    refine Follows.bind (follows hcall hf hd left hsl hpl hcl w results stack kind _ height outer) ?_
    intro l w₁ _
    refine Follows.bind
      (follows hcall hf hd right hsr hpr hcr w₁ results (l :: stack) kind _ height outer) ?_
    intro r w₂ _
    have happly := NumOp.apply_ofBinary op l r
    cases ho : op.apply l r with
    | ok v =>
      rw [ho] at happly
      refine Follows.reached (.one ?_) trivial
      simp only [Instr.loadedAll, Instr.loaded, List.cons_append, List.nil_append, step, exec, happly]
    | error stop =>
      rw [ho] at happly
      refine Reaches.one ?_
      simp only [Instr.loadedAll, Instr.loaded, List.cons_append, List.nil_append, step, exec, happly]
  | .call _ callee args =>
    obtain ⟨ha, hca⟩ := hc
    simp only [eval, instrs, Instr.loadedAll_append, List.append_assoc]
    refine Follows.bind
      (followsAll hcall hf hd args hs hp hca w results stack kind _ height outer) ?_
    intro values w' hlen
    rw [← hlen] at ha ⊢
    exact hcall callee values w' results locals stack kind rest height outer callers rfl ha
  | .print _ arg => exact absurd hs (by simp [Silent, prints])

theorem Expr.followsAll (hcall : CallsFollow m limit n (callers.length + 1) arity call)
    (hf : c.layout.Fits) (hd : c.Owns locals) (es : List Expr) (hs : printsAll es = 0)
    (hp : PlacedAll c es) (hc : CallsFitAll arity es) (w : World Page) (results : Nat)
    (stack : List Word) (kind : LabelKind) (rest : List Instr) (height : Nat) (outer : List Label) :
    Follows m limit n
      (stateAt w results locals stack
        (⟨kind, Instr.loadedAll (instrsAll c es) ++ rest, height⟩ :: outer) callers)
      (evalAll .parity call c.site locals es w)
      (fun vs w' => .running (stateAt w' results locals (vs.reverse ++ stack)
        (⟨kind, rest, height⟩ :: outer) callers))
      (fun vs => vs.length = es.length) := by
  match es with
  | [] =>
    simp only [evalAll]
    exact Follows.reached (.refl _) rfl
  | e :: es =>
    obtain ⟨hpe, hpes⟩ := hp
    obtain ⟨hce, hces⟩ := hc
    obtain ⟨hse, hses⟩ := Nat.add_eq_zero_iff.mp hs
    simp only [evalAll, instrsAll, Instr.loadedAll_append, List.append_assoc]
    refine Follows.bind (follows hcall hf hd e hse hpe hce w results stack kind _ height outer) ?_
    intro v w₁ _
    refine Follows.bind
      (followsAll hcall hf hd es hses hpes hces w₁ results (v :: stack) kind _ height outer) ?_
    intro vs w₂ hlen
    refine Follows.reached ?_ (by simp [hlen])
    rw [List.reverse_cons, List.append_assoc, List.singleton_append]
    exact .refl _

end

end Expressions

/-- Where a statement gets to: behind its code, or back to the caller. -/
def flowTarget (results : Nat) (stack : List Word) (labels : List Label) (callers : List Frame) :
    Flow → World Page → Progress
  | .next locals, w => .running (stateAt w results locals stack labels callers)
  | .returned v, w => leave w.store.memory w.host ⟨results, .empty, [v], []⟩ callers

def flowPost (c : Context) (returns : Bool) : Flow → Prop
  | .next locals => c.Owns locals
  | .returned _ => returns = true

theorem flowPost.weaken {c : Context} {a b : Bool} (hab : a = true → b = true) {flow : Flow}
    (h : flowPost c a flow) : flowPost c b flow := by
  cases flow with
  | next locals => exact h
  | returned v => exact hab h

section Branches

variable {m : Module} {limit : Nat} {w : World Page} {results : Nat} {locals : Table Word}
  {stack : List Word} {callers : List Frame} {kind : LabelKind} {rest code : List Instr}
  {height depth : Nat} {outer labels : List Label}

theorem cutTo_length (stack : List Word) : cutTo stack.length stack = stack := by
  simp [cutTo]

theorem jump_block (h : (⟨kind, rest, height⟩ :: outer).drop depth =
      ⟨.block, code, stack.length⟩ :: labels) :
    jump w.store.memory w.host ⟨results, locals, stack, ⟨kind, rest, height⟩ :: outer⟩ callers depth =
      .running (stateAt w results locals stack labels callers) := by
  simp only [jump, Frame.branch, h, cutTo_length]

theorem jump_loop {body : List Instr} (h : (⟨kind, rest, height⟩ :: outer).drop depth =
      ⟨.loop body, code, stack.length⟩ :: labels) :
    jump w.store.memory w.host ⟨results, locals, stack, ⟨kind, rest, height⟩ :: outer⟩ callers depth =
      .running (stateAt w results locals stack (⟨.loop body, body, stack.length⟩ :: labels)
        callers) := by
  simp only [jump, Frame.branch, h, cutTo_length]

theorem br_step (h : (⟨kind, rest, height⟩ :: outer).drop depth =
      ⟨.block, code, stack.length⟩ :: labels) :
    step m limit
        (stateAt w results locals stack (⟨kind, .br depth :: rest, height⟩ :: outer) callers) =
      .running (stateAt w results locals stack labels callers) := by
  simp only [step, exec]
  exact jump_block h

theorem brIf_step {v : Word} (hv : v ≠ 0) (h : (⟨kind, rest, height⟩ :: outer).drop depth =
      ⟨.block, code, stack.length⟩ :: labels) :
    step m limit
        (stateAt w results locals (v :: stack) (⟨kind, .brIf depth :: rest, height⟩ :: outer)
          callers) =
      .running (stateAt w results locals stack labels callers) := by
  simp only [step, exec, if_neg hv]
  exact jump_block h

theorem brIf_loop_step {v : Word} (hv : v ≠ 0) {body : List Instr}
    (h : (⟨kind, rest, height⟩ :: outer).drop depth =
      ⟨.loop body, code, stack.length⟩ :: labels) :
    step m limit
        (stateAt w results locals (v :: stack) (⟨kind, .brIf depth :: rest, height⟩ :: outer)
          callers) =
      .running (stateAt w results locals stack (⟨.loop body, body, stack.length⟩ :: labels)
        callers) := by
  simp only [step, exec, if_neg hv]
  exact jump_loop h

theorem brIf_zero_step :
    step m limit
        (stateAt w results locals (0 :: stack) (⟨kind, .brIf depth :: rest, height⟩ :: outer)
          callers) =
      .running (stateAt w results locals stack (⟨kind, rest, height⟩ :: outer) callers) := by
  simp only [step, exec, ↓reduceIte]

end Branches

namespace Machine.Follows

variable {m : Module} {limit n : Nat} {s : State} {results : Nat} {stack : List Word}
  {labels labels' : List Label} {callers : List Frame} {r : Option (Except Stop Flow × World Page)}

theorem weaken {α : Type} {r : Option (Except Stop α × World Page)}
    {target : α → World Page → Progress} {post post' : α → Prop} (hp : ∀ a, post a → post' a)
    (h : Follows m limit n s r target post) : Follows m limit n s r target post' := by
  match r with
  | none => exact h
  | some (.error stop, w) => exact h
  | some (.ok a, w) => exact ⟨h.1, hp a h.2⟩

/-- Behind a statement the run goes on to other labels. -/
theorem onward {post : Flow → Prop}
    (h : Follows m limit n s r (flowTarget results stack labels callers) post)
    (hn : ∀ locals w, Reaches m limit (stateAt w results locals stack labels callers)
      (.running (stateAt w results locals stack labels' callers))) :
    Follows m limit n s r (flowTarget results stack labels' callers) post := by
  match r with
  | none => exact h
  | some (.error stop, w) => exact h
  | some (.ok (.next locals), w) => exact ⟨h.1.trans (hn locals w), h.2⟩
  | some (.ok (.returned v), w) => exact h

/-- A statement after another runs unless the first one returns. -/
theorem bind_flow {g : Eval Page Flow} {f : Table Word → Eval Page Flow} {w : World Page}
    {c : Context} {a b : Bool}
    (h : Follows m limit n s (g w) (flowTarget results stack labels callers) (flowPost c a))
    (hf : ∀ locals w', c.Owns locals →
      Follows m limit n (stateAt w' results locals stack labels callers) (f locals w')
        (flowTarget results stack labels' callers) (flowPost c b))
    (hab : a = true → b = true) :
    Follows m limit n s
      ((do
        match ← g with
        | .next locals => f locals
        | .returned value => return .returned value) w)
      (flowTarget results stack labels' callers) (flowPost c b) := by
  change Follows m limit n s (Eval.bind g _ w) _ _
  unfold Eval.bind
  cases hg : g w with
  | none =>
    rw [hg] at h
    exact h
  | some p =>
    rw [hg] at h
    obtain ⟨stop | flow, w'⟩ := p
    · exact h
    · cases flow with
      | next locals => exact from_reached h.1 (hf locals w' h.2)
      | returned v => exact ⟨h.1, hab h.2⟩

/-- Behind a statement that does not return. -/
theorem bind_next {α : Type} {g : Eval Page Flow} {f : Eval Page α} {w : World Page} {c : Context}
    {target : α → World Page → Progress} {post : α → Prop}
    (h : Follows m limit n s (g w) (flowTarget results stack labels callers) (flowPost c false))
    (hf : ∀ locals w', c.Owns locals →
      Follows m limit n (stateAt w' results locals stack labels callers) (f w') target post) :
    Follows m limit n s ((do let _ ← g; f) w) target post := by
  change Follows m limit n s (Eval.bind g _ w) _ _
  unfold Eval.bind
  cases hg : g w with
  | none =>
    rw [hg] at h
    exact h
  | some p =>
    rw [hg] at h
    obtain ⟨stop | flow, w'⟩ := p
    · exact h
    · cases flow with
      | next locals => exact from_reached h.1 (hf locals w' h.2)
      | returned v => exact absurd h.2 (by simp [flowPost])

end Machine.Follows

section Statements

variable {m : Module} {limit fuel : Nat} {routine? : String → Option (Routine Page)}
  {arity : String → Option Nat} {call : String → List Word → Eval Page Word} {c : Context}
  {callers : List Frame} {results : Nat} {stack : List Word}

/-- Wherever it stands, the code leaves the word that evaluation gives. -/
def ValueFollows (m : Module) (limit fuel : Nat) (c : Context) (callers : List Frame) (results : Nat)
    (stack : List Word) (code : List Instr) (value : Table Word → Eval Page Word) : Prop :=
  ∀ locals w, c.Owns locals → ∀ kind rest height outer,
    Follows m limit fuel
      (stateAt w results locals stack (⟨kind, code ++ rest, height⟩ :: outer) callers)
      (value locals w)
      (fun v w' => .running (stateAt w' results locals (v :: stack)
        (⟨kind, rest, height⟩ :: outer) callers))
      (fun _ => True)

/-- Wherever it stands, the code goes on as evaluation does; it may return if `b` says so. -/
def BlockFollows (m : Module) (limit fuel : Nat) (c : Context) (callers : List Frame) (results : Nat)
    (stack : List Word) (code : List Instr) (body : Table Word → Eval Page Flow) (b : Bool) : Prop :=
  ∀ locals w, c.Owns locals → ∀ kind rest height outer,
    Follows m limit fuel
      (stateAt w results locals stack (⟨kind, code ++ rest, height⟩ :: outer) callers)
      (body locals w) (flowTarget results stack (⟨kind, rest, height⟩ :: outer) callers)
      (flowPost c b)

theorem BlockFollows.weaken {code : List Instr} {body : Table Word → Eval Page Flow} {a b : Bool}
    (hab : a = true → b = true) (h : BlockFollows m limit fuel c callers results stack code body a) :
    BlockFollows m limit fuel c callers results stack code body b :=
  fun locals w hd kind rest height outer =>
    (h locals w hd kind rest height outer).weaken fun _ => flowPost.weaken hab

/-- At the end of a block the run goes on behind it. -/
theorem block_end {height : Nat} {labels : List Label} (locals : Table Word) (w : World Page) :
    Reaches m limit (stateAt w results locals stack (⟨.block, [], height⟩ :: labels) callers)
      (.running (stateAt w results locals stack labels callers)) := .one rfl

/-- The last arm of a condition, and then what stands behind the block it ends. -/
theorem BlockFollows.lastArm {code : List Instr} {body : Table Word → Eval Page Flow} {b : Bool}
    (h : BlockFollows m limit fuel c callers results stack code body b) {locals : Table Word}
    (hd : c.Owns locals) (w : World Page) (height : Nat) (labels : List Label) :
    Follows m limit fuel
      (stateAt w results locals stack (⟨.block, code, height⟩ :: labels) callers) (body locals w)
      (flowTarget results stack labels callers) (flowPost c b) := by
  have hcode := h locals w hd .block [] height labels
  rw [List.append_nil] at hcode
  exact hcode.onward block_end

/-- A condition: the first of its blocks holds the test and the other arm, which jumps out. -/
theorem if_follows {cond : Table Word → Eval Page Word} {yes no : Table Word → Eval Page Flow}
    {condCode yesCode noCode : List Instr} {b : Bool}
    (hcond : ValueFollows m limit fuel c callers results stack condCode cond)
    (hyes : BlockFollows m limit fuel c callers results stack yesCode yes b)
    (hno : BlockFollows m limit fuel c callers results stack noCode no b) :
    BlockFollows m limit fuel c callers results stack
      [.block (.block (condCode ++ .brIf 0 :: (noCode ++ [.br 1])) :: yesCode)]
      (fun locals => do
        let test ← cond locals
        if test ≠ 0 then yes locals else no locals) b := by
  intro locals w hd kind rest height outer
  refine Follows.step rfl (Follows.step rfl ?_)
  refine Follows.bind (hcond locals w hd .block _ stack.length _) ?_
  intro v w' _
  by_cases hv : v = 0
  · subst hv
    simp only [ne_eq, not_true_eq_false, ↓reduceIte]
    refine Follows.step brIf_zero_step ?_
    have h := hno locals w' hd .block [.br 1] stack.length
      (⟨.block, yesCode, stack.length⟩ :: ⟨kind, rest, height⟩ :: outer)
    exact h.onward fun locals w => .one (br_step rfl)
  · simp only [ne_eq, hv, not_false_eq_true, ↓reduceIte]
    refine Follows.step (brIf_step hv rfl) ?_
    exact hyes.lastArm hd w' _ _

/-- A condition with a second test, made if the first one fails. -/
theorem elif_follows {cond cond' : Table Word → Eval Page Word}
    {yes yes' no : Table Word → Eval Page Flow}
    {condCode condCode' yesCode yesCode' noCode : List Instr} {b : Bool}
    (hcond : ValueFollows m limit fuel c callers results stack condCode cond)
    (hyes : BlockFollows m limit fuel c callers results stack yesCode yes b)
    (hcond' : ValueFollows m limit fuel c callers results stack condCode' cond')
    (hyes' : BlockFollows m limit fuel c callers results stack yesCode' yes' b)
    (hno : BlockFollows m limit fuel c callers results stack noCode no b) :
    BlockFollows m limit fuel c callers results stack
      [.block (.block (.block (condCode ++ .brIf 0 :: (condCode' ++ .brIf 1 :: (noCode ++ [.br 2])))
        :: (yesCode ++ [.br 1])) :: yesCode')]
      (fun locals => do
        let test ← cond locals
        if test ≠ 0 then yes locals
        else do
          let test' ← cond' locals
          if test' ≠ 0 then yes' locals else no locals) b := by
  intro locals w hd kind rest height outer
  refine Follows.step rfl (Follows.step rfl (Follows.step rfl ?_))
  refine Follows.bind (hcond locals w hd .block _ stack.length _) ?_
  intro v w' _
  by_cases hv : v = 0
  · subst hv
    simp only [ne_eq, not_true_eq_false, ↓reduceIte]
    refine Follows.step brIf_zero_step ?_
    refine Follows.bind (hcond' locals w' hd .block _ stack.length _) ?_
    intro v' w₂ _
    by_cases hv' : v' = 0
    · subst hv'
      simp only [not_true_eq_false, ↓reduceIte]
      refine Follows.step brIf_zero_step ?_
      have h := hno locals w₂ hd .block [.br 2] stack.length
        (⟨.block, yesCode ++ [.br 1], stack.length⟩ :: ⟨.block, yesCode', stack.length⟩ ::
          ⟨kind, rest, height⟩ :: outer)
      exact h.onward fun locals w => .one (br_step rfl)
    · simp only [hv', not_false_eq_true, ↓reduceIte]
      refine Follows.step (brIf_step hv' rfl) ?_
      exact hyes'.lastArm hd w₂ _ _
  · simp only [ne_eq, hv, not_false_eq_true, ↓reduceIte]
    refine Follows.step (brIf_step hv rfl) ?_
    have h := hyes locals w' hd .block [.br 1] stack.length
      (⟨.block, yesCode', stack.length⟩ :: ⟨kind, rest, height⟩ :: outer)
    exact h.onward fun locals w => .one (br_step rfl)

/-- From the head of a loop on: the body, then the test that goes back to the head. -/
theorem loop_follows {cond : Table Word → Eval Page Word} {body : Table Word → Eval Page Flow}
    {condCode bodyCode : List Instr} {b : Bool}
    (hcond : ValueFollows m limit fuel c callers results stack condCode cond)
    (hbody : BlockFollows m limit fuel c callers results stack bodyCode body b)
    {loopCode : List Instr} (hcode : loopCode = bodyCode ++ (condCode ++ [.brIf 0, .br 1]))
    (labels : List Label) (rounds : Nat) (hr : rounds ≤ fuel) (locals : Table Word)
    (w : World Page) (hd : c.Owns locals) :
    Follows m limit rounds
      (stateAt w results locals stack
        (⟨.loop loopCode, loopCode, stack.length⟩ :: ⟨.block, [], stack.length⟩ :: labels) callers)
      ((do
        match ← body locals with
        | .next locals => Stmt.loop cond body rounds (· != 0) locals
        | .returned value => return .returned value) w)
      (flowTarget results stack labels callers) (flowPost c b) := by
  have hhead (locals : Table Word) (w : World Page) (hd : c.Owns locals) :
      Follows m limit fuel
        (stateAt w results locals stack
          (⟨.loop loopCode, loopCode, stack.length⟩ :: ⟨.block, [], stack.length⟩ :: labels) callers)
        (body locals w)
        (flowTarget results stack (⟨.loop loopCode, condCode ++ [.brIf 0, .br 1], stack.length⟩ ::
          ⟨.block, [], stack.length⟩ :: labels) callers)
        (flowPost c b) := by
    have h := hbody locals w hd (.loop loopCode) (condCode ++ [.brIf 0, .br 1]) stack.length
      (⟨.block, [], stack.length⟩ :: labels)
    rwa [← hcode] at h
  -- by induction on the rounds that are left; a jump back to the head pays for one
  induction rounds generalizing locals w with
  | zero =>
    refine Follows.bind_flow ((hhead locals w hd).mono hr) ?_ id
    intro locals' w' _
    exact ⟨_, rfl⟩
  | succ rounds ih =>
    refine Follows.bind_flow ((hhead locals w hd).mono hr) ?_ id
    intro locals' w' hd'
    unfold Stmt.loop
    refine Follows.bind ((hcond locals' w' hd' ..).mono hr) ?_
    intro v w₂ _
    by_cases hv : v = 0
    · subst hv
      refine Follows.step brIf_zero_step ?_
      exact Follows.reached (.one (br_step rfl)) hd'
    · have hne : (v != 0) = true := by simpa using hv
      simp only [hne, ↓reduceIte]
      exact Follows.step_succ (brIf_loop_step hv rfl) (ih (by omega) locals' w₂ hd')

/-- A loop is entered by a test of its own, before the body and the test behind it. -/
theorem while_follows {cond : Table Word → Eval Page Word} {body : Table Word → Eval Page Flow}
    {condCode bodyCode : List Instr} {b : Bool}
    (hcond : ValueFollows m limit fuel c callers results stack condCode cond)
    (hbody : BlockFollows m limit fuel c callers results stack bodyCode body b) :
    BlockFollows m limit fuel c callers results stack
      [.block (condCode ++ (Instr.loadedAll UnaryOp.not.instrs ++
        [.brIf 0, .loop (bodyCode ++ (condCode ++ [.brIf 0, .br 1]))]))]
      (Stmt.loop cond body fuel Truth.parity.enters) b := by
  intro locals w hd kind rest height outer
  cases hfuel : fuel with
  | zero => exact ⟨_, rfl⟩
  | succ rounds =>
    unfold Stmt.loop
    refine Follows.step rfl ?_
    refine Follows.bind (hfuel ▸ hcond locals w hd .block _ stack.length _) ?_
    intro v w' _
    refine Follows.from_reached (unary_follows .not v w' results stack .block _ stack.length _) ?_
    cases hv : Truth.parity.enters v with
    | false =>
      have hn : UnaryOp.not.apply .parity v ≠ 0 := by
        simpa [UnaryOp.apply, Truth.parity] using hv
      simp only [Bool.false_eq_true, ↓reduceIte]
      exact Follows.reached (.one (brIf_step hn rfl)) hd
    | true =>
      have hn : UnaryOp.not.apply .parity v = 0 := by
        simpa [UnaryOp.apply, Truth.parity] using hv
      simp only [↓reduceIte]
      rw [hn]
      refine Follows.step brIf_zero_step ?_
      refine Follows.step_succ rfl ?_
      exact loop_follows hcond hbody rfl _ rounds (by omega) locals w' hd

/-- A store changes a variable of the call, or a slot in memory. -/
theorem store_follows (hcall : CallsFollow m limit fuel (callers.length + 1) arity call)
    (hf : c.layout.Fits) {locals : Table Word} (hd : c.Owns locals) {name : String} {value : Expr}
    (hk : c.Knows name) (hu : value.Usable c) (hc : value.CallsFit arity) (b : Bool)
    (w : World Page) (kind : LabelKind) (rest : List Instr) (height : Nat) (outer : List Label) :
    Follows m limit fuel
      (stateAt w results locals stack
        (⟨kind, Instr.loadedAll (c.storeInstrs name (value.instrs c)) ++ rest, height⟩ :: outer)
        callers)
      ((do
        let value ← value.eval .parity call c.site locals
        Stmt.assignTo c.site name value locals) w)
      (flowTarget results stack (⟨kind, rest, height⟩ :: outer) callers) (flowPost c b) := by
  have hown := hd name
  cases hlocal : c.isLocal name with
  | true =>
    rw [hlocal] at hown
    simp only [Context.storeInstrs, hlocal, ↓reduceIte, Instr.loadedAll_append, List.append_assoc]
    refine Follows.bind
      (value.follows hcall hf hd hu.silent hu.placed hc w results stack kind _ height outer) ?_
    intro v w' _
    simp only [Stmt.assignTo, hown, ↓reduceIte]
    refine Follows.reached (.one rfl) ?_
    intro other
    rw [Table.contains_insert, hd other]
    by_cases ho : other = name
    · simp [ho, hlocal]
    · simp [ho]
  | false =>
    rw [hlocal] at hown
    obtain ⟨slot, hs, ha, hpage⟩ := Context.address hf hk hlocal
    simp only [Context.storeInstrs, hlocal, Bool.false_eq_true, ↓reduceIte, List.cons_append,
      Instr.loadedAll, ha, Instr.loadedAll_append, List.append_assoc]
    refine Follows.step rfl ?_
    refine Follows.bind (value.follows hcall hf hd hu.silent hu.placed hc w results
      (Int32.ofNat (slot * Layout.slotSize) :: stack) kind _ height outer) ?_
    intro v w' _
    obtain ⟨hholds, hnat⟩ := hpage w'.store
    simp only [Stmt.assignTo, hown, Bool.false_eq_true, ↓reduceIte]
    refine Follows.reached (.one ?_) hd
    simp only [Instr.loaded, List.nil_append, step, exec, Memory.store?_of_holds hholds, hnat,
      Context.site, Layout.site, hs]
    rfl

theorem Ty.ofPrint_hostFunction (type : Ty) (v : Word) :
    HostCall.of? type.hostFunction [v] = some (.ofPrint type v) := by
  cases type <;> rfl

theorem print_follows (hl : Linked m routine? arity) (type : Ty) (v : Word) {locals : Table Word}
    (hd : c.Owns locals) (b : Bool) (w : World Page) (kind : LabelKind) (rest : List Instr)
    (height : Nat) (outer : List Label) :
    Follows m limit fuel
      (stateAt w results locals (v :: stack)
        (⟨kind, .call type.printer 1 0 :: rest, height⟩ :: outer) callers)
      ((do
        Eval.serve (.ofPrint type v)
        return Flow.next locals) w)
      (flowTarget results stack (⟨kind, rest, height⟩ :: outer) callers) (flowPost c b) := by
  obtain ⟨f, module, field, hfun, himp, hres⟩ := hl.printer type
  have hlen : ¬(v :: stack).length < 1 := by simp
  have hstep : step m limit (stateAt w results locals (v :: stack)
      (⟨kind, .call type.printer 1 0 :: rest, height⟩ :: outer) callers) =
      invoke limit w.store.memory w.host ⟨results, locals, stack, ⟨kind, rest, height⟩ :: outer⟩
        callers f [v] := by
    simp only [step, exec, hfun, if_neg hlen, List.take_succ_cons, List.take_zero,
      List.reverse_singleton, List.drop_succ_cons, List.drop_zero]
  change Follows m limit fuel _ (Eval.bind (Eval.serve (.ofPrint type v)) _ w) _ _
  unfold Eval.bind Eval.serve
  cases hserve : w.host.serve (.ofPrint type v) with
  | ok host =>
    refine Follows.reached (.one (hstep.trans ?_)) hd
    simp only [invoke, himp, hres, Host.call, Ty.ofPrint_hostFunction, hserve]
    rfl
  | error reason =>
    refine Reaches.one (hstep.trans ?_)
    simp only [invoke, himp, hres, Host.call, Host.failing, Ty.ofPrint_hostFunction, hserve]
    rfl

/-- A value that is given up: printed, or taken off the stack. -/
theorem value_follows (hl : Linked m routine? arity)
    (hcall : CallsFollow m limit fuel (callers.length + 1) arity call)
    (hf : c.layout.Fits) {locals : Table Word} (hd : c.Owns locals) {value : Expr}
    (he : value.Emitted c) (hc : value.CallsFit arity) (b : Bool) (w : World Page)
    (kind : LabelKind) (rest : List Instr) (height : Nat) (outer : List Label) :
    Follows m limit fuel
      (stateAt w results locals stack
        (⟨kind, Instr.loadedAll (value.instrs c ++ if value.isPrint then [] else [.drop]) ++ rest,
          height⟩ :: outer) callers)
      ((do
        let _ ← value.eval .parity call c.site locals
        return Flow.next locals) w)
      (flowTarget results stack (⟨kind, rest, height⟩ :: outer) callers) (flowPost c b) := by
  rcases he with hu | ⟨span, arg, rfl, hu⟩
  · simp only [Expr.isPrint_of_silent hu.silent, Bool.false_eq_true, ↓reduceIte,
      Instr.loadedAll_append, List.append_assoc]
    refine Follows.bind
      (value.follows hcall hf hd hu.silent hu.placed hc w results stack kind _ height outer) ?_
    intro v w' _
    exact Follows.reached (.one rfl) hd
  · simp only [Expr.instrs, Expr.isPrint, ↓reduceIte, List.append_nil, Instr.loadedAll_append,
      List.append_assoc, Expr.eval, bind_assoc, pure_bind]
    refine Follows.bind
      (arg.follows hcall hf hd hu.silent hu.placed hc w results stack kind _ height outer) ?_
    intro v w' _
    exact print_follows hl (arg.printType c.scopes) v hd b w' kind rest height outer

theorem Expr.Usable.follows (hcall : CallsFollow m limit fuel (callers.length + 1) arity call)
    (hf : c.layout.Fits) {value : Expr} (hu : value.Usable c) (hc : value.CallsFit arity) :
    ValueFollows m limit fuel c callers results stack (Instr.loadedAll (value.instrs c))
      (value.eval .parity call c.site) :=
  fun _ w hd kind rest height outer =>
    value.follows hcall hf hd hu.silent hu.placed hc w results stack kind rest height outer

mutual

/-- The run of the code of a statement leaves the stack as it was. -/
theorem Stmt.follows (hl : Linked m routine? arity)
    (hcall : CallsFollow m limit fuel (callers.length + 1) arity call) (hf : c.layout.Fits)
    (s : Stmt) (hp : s.Placed c) (hc : s.CallsFit arity) :
    BlockFollows m limit fuel c callers results stack (Instr.loadedAll (s.instrs c))
      (s.eval .parity call c.site fuel) s.returns := by
  intro locals w hd kind rest height outer
  match s with
  | .pass _ =>
    simp only [eval]
    exact Follows.reached (.one rfl) hd
  | .init .. | .assign .. =>
    simp only [eval]
    exact store_follows hcall hf hd hp.1 hp.2 hc _ w kind rest height outer
  | .expr _ value =>
    simp only [eval]
    exact value_follows hl hcall hf hd hp hc _ w kind rest height outer
  | .ret _ value =>
    simp only [eval, instrs, Instr.loadedAll_append, List.append_assoc]
    refine Follows.bind
      (value.follows hcall hf hd hp.silent hp.placed hc w results stack kind _ height outer) ?_
    intro v w' _
    exact Follows.reached (.one rfl) rfl
  | .ifElse _ cond yes no =>
    obtain ⟨hu, hpy, hpn⟩ := hp
    obtain ⟨hcc, hcy, hcn⟩ := hc
    simp only [eval, instrs, Instr.loadedAll, Instr.loaded, Instr.loadedAll_append,
      List.append_assoc, List.cons_append, List.nil_append]
    exact if_follows (hu.follows hcall hf hcc)
      ((followsAll hl hcall hf yes hpy hcy).weaken (by simp +contextual [returns]))
      ((followsAll hl hcall hf no hpn hcn).weaken (by simp +contextual [returns]))
      locals w hd kind rest height outer
  | .ifElif _ cond yes cond' yes' no =>
    obtain ⟨hu, hpy, hu', hpy', hpn⟩ := hp
    obtain ⟨hcc, hcy, hcc', hcy', hcn⟩ := hc
    simp only [eval, instrs, Instr.loadedAll, Instr.loaded, Instr.loadedAll_append,
      List.append_assoc, List.cons_append, List.nil_append]
    exact elif_follows (hu.follows hcall hf hcc)
      ((followsAll hl hcall hf yes hpy hcy).weaken (by simp +contextual [returns]))
      (hu'.follows hcall hf hcc')
      ((followsAll hl hcall hf yes' hpy' hcy').weaken (by simp +contextual [returns]))
      ((followsAll hl hcall hf no hpn hcn).weaken (by simp +contextual [returns]))
      locals w hd kind rest height outer
  | .whileDo _ cond body =>
    obtain ⟨hu, hpb⟩ := hp
    obtain ⟨hcc, hcb⟩ := hc
    simp only [eval, instrs, Instr.loadedAll, Instr.loaded, Instr.loadedAll_append,
      List.append_assoc, List.cons_append, List.nil_append]
    exact while_follows (hu.follows hcall hf hcc) (followsAll hl hcall hf body hpb hcb)
      locals w hd kind rest height outer
  | .define .. =>
    simp only [eval]
    exact Follows.reached (.refl _) hd

theorem Stmt.followsAll (hl : Linked m routine? arity)
    (hcall : CallsFollow m limit fuel (callers.length + 1) arity call) (hf : c.layout.Fits)
    (ss : List Stmt) (hp : PlacedAll c ss) (hc : CallsFitAll arity ss) :
    BlockFollows m limit fuel c callers results stack (Instr.loadedAll (instrsAll c ss))
      (evalAll .parity call c.site fuel ss) (returnsAny ss) := by
  intro locals w hd kind rest height outer
  match ss with
  | [] =>
    simp only [evalAll]
    exact Follows.reached (.refl _) hd
  | s :: ss =>
    obtain ⟨hps, hpss⟩ := hp
    obtain ⟨hcs, hcss⟩ := hc
    simp only [evalAll, instrsAll, Instr.loadedAll_append, List.append_assoc]
    refine Follows.bind_flow (follows hl hcall hf s hps hcs locals w hd kind _ height outer) ?_
      (by simp +contextual [returnsAny])
    intro locals' w' hd'
    refine (followsAll hl hcall hf ss hpss hcss locals' w' hd' kind rest height outer).weaken ?_
    exact fun _ => flowPost.weaken (by simp +contextual [returnsAny])

end

end Statements

theorem Routine.contains_frame {σ : Type} (r : Routine σ) {args : List Word}
    (hlen : r.params.length = args.length) (name : String) :
    (r.frame args).contains name =
      (r.params.map (·.name) ++ (FunctionCode.localsOf r.body).map (·.1)).contains name := by
  have hzip : ((r.params.map (·.name)).zip args).map (·.1) = r.params.map (·.name) :=
    List.map_fst_zip (by simp [hlen])
  rw [Routine.frame, Table.contains_ofList, List.map_append, hzip]
  simp [Function.comp_def]

/-- A call has the names its code takes for its own. -/
theorem Routine.owns_frame {r : Routine Page} {c : Context} {args : List Word}
    (hown : c.locals = some (r.params.map (·.name) ++ (FunctionCode.localsOf r.body).map (·.1)))
    (hlen : r.params.length = args.length) : c.Owns (r.frame args) := by
  intro name
  rw [r.contains_frame hlen, Context.isLocal, hown]

def resumed (w : World Page) (v : Word) (f : Frame) (callers : List Frame) : State :=
  ⟨w.store.memory, w.host, { f with stack := v :: f.stack }, callers⟩

/-- Where the body of a function gets to: its end, where a zero is still to be left, or back. -/
def bodyTarget (f : Frame) (callers : List Frame) : Flow → World Page → State
  | .next locals, w => stateAt w 1 locals [] [⟨.body, [.const 0], 0⟩] (f :: callers)
  | .returned v, w => resumed w v f callers

section Calls

variable {m : Module} {limit fuel : Nat} {routine? : String → Option (Routine Page)}
  {arity : String → Option Nat}

/-- A function that comes to its end gives zero. -/
theorem body_follows (hl : Linked m routine? arity) {call : String → List Word → Eval Page Word}
    {f : Frame} {callers : List Frame}
    (hcall : CallsFollow m limit fuel ((f :: callers).length + 1) arity call) {r : Routine Page}
    {name : String} {c : Context} (hcomp : r.Compiled m arity name c) {locals : Table Word}
    (hd : c.Owns locals) (w : World Page) :
    Follows m limit fuel
      (stateAt w 1 locals []
        [⟨.body, Instr.loadedAll (Stmt.instrsAll c r.body ++ [.const 0]), 0⟩] (f :: callers))
      ((do
        match ← Stmt.evalAll .parity call r.site fuel r.body locals with
        | .next _ => return 0
        | .returned value => return value) w)
      (fun v w' => .running (resumed w' v f callers)) (fun _ => True) := by
  have htarget : flowTarget 1 [] [⟨.body, [.const 0], 0⟩] (f :: callers) =
      fun flow w => .running (bodyTarget f callers flow w) := by
    funext flow w
    cases flow <;> rfl
  have h : Follows m limit fuel _ _ (flowTarget 1 [] [⟨.body, [.const 0], 0⟩] (f :: callers)) _ :=
    Stmt.followsAll hl hcall hcomp.fits r.body hcomp.placed hcomp.calls locals w hd .body [.const 0]
      0 []
  rw [htarget, ← hcomp.site] at h
  rw [Instr.loadedAll_append]
  refine Follows.bind h ?_
  intro flow w' _
  cases flow with
  | next locals' => exact Follows.reached (.trans (.one rfl) (.one rfl)) trivial
  | returned v => exact Follows.reached (.refl _) trivial

/-- A call gives what its function evaluates to, by induction on the fuel. -/
theorem Linked.calls_follow (hl : Linked m routine? arity) (fuel depth : Nat) :
    CallsFollow m limit fuel depth arity (callAt .parity routine? limit fuel depth) := by
  -- by induction on the fuel: the body of a function is followed with less of it, one call deeper
  induction fuel generalizing depth with
  | zero =>
    intro name args w results locals stack kind rest height outer callers hdepth ha
    exact ⟨_, rfl⟩
  | succ fuel ih =>
    intro name args w results locals stack kind rest height outer callers hdepth ha
    subst hdepth
    obtain ⟨r, c, hr, hparams, hcomp⟩ := hl.routine ha
    have hlen : ¬(args.reverse ++ stack).length < args.length := by simp
    have htake : ((args.reverse ++ stack).take args.length).reverse = args := by
      rw [List.take_left' (by simp), List.reverse_reverse]
    have hdrop : (args.reverse ++ stack).drop args.length = stack := List.drop_left' (by simp)
    have hstep : step m limit (stateAt w results locals (args.reverse ++ stack)
        (⟨kind, .call name args.length 1 :: rest, height⟩ :: outer) callers) =
        if callers.length + 1 < limit then
          .running ⟨w.store.memory, w.host, .ofCall (r.function name c) args,
            ⟨results, locals, stack, ⟨kind, rest, height⟩ :: outer⟩ :: callers⟩
        else .done ⟨.error .exhausted, w.store.memory, w.host⟩ := by
      simp only [step, exec, hcomp.loaded, if_neg hlen, invoke, Routine.function, htake, hdrop]
    simp only [callAt, hr]
    by_cases hd : callers.length + 1 < limit
    · rw [if_pos hd] at hstep ⊢
      have hown := Routine.owns_frame hcomp.own hparams
      exact Follows.step_succ hstep (body_follows hl (ih _) hcomp hown w)
    · rw [if_neg hd] at hstep ⊢
      exact Reaches.one hstep

/-- At the top level a call has no names of its own. -/
theorem Context.eq_empty_of_owns {c : Context} (hc : c.locals = none) {locals : Table Word}
    (hd : c.Owns locals) : locals = .empty := by
  obtain ⟨entries⟩ := locals
  cases entries with
  | nil => rfl
  | cons e es =>
    have h := hd e.1
    simp [Context.isLocal, hc, Table.contains, Table.get?] at h

/-- What the entry of a unit has on its stack at its end. -/
theorem last_value_follows (hl : Linked m routine? arity)
    {call : String → List Word → Eval Page Word} (hcall : CallsFollow m limit fuel 1 arity call)
    {c : Context} (hf : c.layout.Fits) (hown : c.Owns .empty) {value : Expr}
    (he : value.Emitted c) (hc : value.CallsFit arity) (w : World Page) :
    Follows m limit fuel
      (stateAt w 1 .empty []
        [⟨.body, Instr.loadedAll (value.instrs c ++ Stmt.fillerInstrs value), 0⟩] [])
      ((do
        let value ← value.eval .parity call c.site .empty
        return some value) w)
      (fun r w' => .done ⟨.ok r, w'.store.memory, w'.host⟩) (fun _ => True) := by
  rcases he with hu | ⟨span, arg, rfl, hu⟩
  · simp only [Stmt.fillerInstrs, Expr.isPrint_of_silent hu.silent, Bool.false_eq_true, ↓reduceIte,
      Instr.loadedAll_append]
    refine Follows.bind (value.follows hcall hf hown hu.silent hu.placed hc w 1 [] .body _ 0 []) ?_
    intro v w' _
    exact Follows.reached (.one rfl) trivial
  · simp only [Stmt.fillerInstrs, Expr.instrs, Expr.isPrint, ↓reduceIte, Instr.loadedAll_append,
      List.append_assoc, Expr.eval, bind_assoc, pure_bind]
    refine Follows.bind (arg.follows hcall hf hown hu.silent hu.placed hc w 1 [] .body _ 0 []) ?_
    intro v w' _
    have hprint : Follows m limit fuel _ _ (flowTarget 1 [] _ []) (flowPost c false) :=
      print_follows hl (arg.printType c.scopes) v hown false w' .body [.const 0] 0 []
    have hrest (locals : Table Word) (w : World Page) : Follows m limit fuel
        (stateAt w 1 locals [] [⟨.body, [.const 0], 0⟩] []) ((pure (some 0) : Eval Page _) w)
        (fun r w => .done ⟨.ok r, w.store.memory, w.host⟩) (fun _ => True) :=
      Follows.reached (.trans (.one rfl) (.one rfl)) trivial
    have h := Follows.bind_next hprint fun locals w _ => hrest locals w
    simp only [bind_assoc, pure_bind] at h
    exact h

/-- At the top level, the value of a last expression stays on the stack. -/
theorem top_follows (hl : Linked m routine? arity) {call : String → List Word → Eval Page Word}
    (hcall : CallsFollow m limit fuel 1 arity call) {c : Context} (hlocals : c.locals = none)
    (hf : c.layout.Fits) (ss : List Stmt) (hp : Stmt.PlacedAll c ss)
    (hc : Stmt.CallsFitAll arity ss) (hr : Stmt.returnsAny ss = false) (w : World Page) :
    Follows m limit fuel
      (stateAt w (if Program.endsInExpr ⟨ss⟩ then 1 else 0) .empty []
        [⟨.body, Instr.loadedAll (Stmt.topInstrs c ss), 0⟩] [])
      (Stmt.evalTop .parity call c.site fuel ss w)
      (fun r w' => .done ⟨.ok r, w'.store.memory, w'.host⟩) (fun _ => True) := by
  have hown : c.Owns .empty := by
    intro name
    simp [Context.isLocal, hlocals, Table.contains]
  fun_induction Stmt.evalTop .parity call c.site fuel ss generalizing w with
  | case1 => exact Follows.reached (.one rfl) trivial
  | case2 span value => exact last_value_follows hl hcall hf hown hp.1 hc.1 w
  | case3 s ss hs ih =>
    obtain ⟨hps, hpss⟩ := hp
    obtain ⟨hcs, hcss⟩ := hc
    obtain ⟨hrs, hrss⟩ := Bool.or_eq_false_iff.mp hr
    have hcode : Stmt.topInstrs c (s :: ss) = s.instrs c ++ Stmt.topInstrs c ss := by
      cases ss with
      | nil =>
        cases s with
        | expr span value => exact absurd rfl (hs span value rfl)
        | _ => rfl
      | cons t ts => exact Stmt.topInstrs_cons c s t ts
    have hends : Program.endsInExpr ⟨s :: ss⟩ = Program.endsInExpr ⟨ss⟩ := by
      cases ss with
      | nil =>
        cases s with
        | expr span value => exact absurd rfl (hs span value rfl)
        | _ => rfl
      | cons t ts => exact UnitCode.endsInExpr_cons s t ts
    rw [hcode, hends, Instr.loadedAll_append]
    have hfirst : Follows m limit fuel _ (s.eval .parity call c.site fuel .empty w)
        (flowTarget (if Program.endsInExpr ⟨ss⟩ then 1 else 0) [] _ []) (flowPost c s.returns) :=
      s.follows hl hcall hf hps hcs .empty w hown .body (Instr.loadedAll (Stmt.topInstrs c ss)) 0 []
    rw [hrs] at hfirst
    refine Follows.bind_next hfirst ?_
    intro locals w' hd
    rw [Context.eq_empty_of_owns hlocals hd]
    exact ih hpss hcss hrss w'

end Calls

def Machine.runEntry (m : Module) (limit steps : Nat) (memory : Memory) (host : Host)
    (entry : Function) : Progress :=
  match enter limit memory host entry with
  | .running s => advance m limit steps s
  | .done o => .done o

def entryFunction (c : Context) (ss : List Stmt) : Function :=
  ⟨none, [], if Program.endsInExpr ⟨ss⟩ then 1 else 0, [], Instr.loadedAll (Stmt.topInstrs c ss),
    none, some ModuleText.entryName⟩

theorem runEntry_running {m : Module} {limit : Nat} (h : 0 < limit) (steps : Nat) (w : World Page)
    (c : Context) (ss : List Stmt) :
    runEntry m limit steps w.store.memory w.host (entryFunction c ss) =
      advance m limit steps (stateAt w (if Program.endsInExpr ⟨ss⟩ then 1 else 0) .empty []
        [⟨.body, Instr.loadedAll (Stmt.topInstrs c ss), 0⟩] []) := by
  simp only [runEntry, enter, entryFunction, if_pos h]
  rfl

theorem runEntry_exhausted {m : Module} {limit : Nat} (h : ¬0 < limit) (steps : Nat)
    (w : World Page) (c : Context) (ss : List Stmt) :
    runEntry m limit steps w.store.memory w.host (entryFunction c ss) =
      .done ⟨.error .exhausted, w.store.memory, w.host⟩ := by
  simp only [runEntry, enter, entryFunction, if_neg h]

def outcomeOf (r : Except Stop (Option Word)) (w : World Page) : Outcome :=
  ⟨r.mapError Stop.trap, w.store.memory, w.host⟩

/-- The run of a unit ends exactly if its evaluation does, and as it does. -/
theorem Linked.run_iff_eval {m : Module} {limit : Nat} {routine? : String → Option (Routine Page)}
    {arity : String → Option Nat} (hl : Linked m routine? arity) {c : Context}
    (hlocals : c.locals = none) (hf : c.layout.Fits) (ss : List Stmt) (hp : Stmt.PlacedAll c ss)
    (hc : Stmt.CallsFitAll arity ss) (hr : Stmt.returnsAny ss = false) (w : World Page)
    (o : Outcome) :
    (∃ steps, runEntry m limit steps w.store.memory w.host (entryFunction c ss) = .done o) ↔
      ∃ fuel r w', evalUnit .parity routine? limit c.site fuel ss w = some (r, w') ∧
        o = outcomeOf r w' := by
  by_cases hlimit : 0 < limit
  · have hfollows (fuel : Nat) :=
      top_follows hl (@Linked.calls_follow m limit routine? arity hl fuel 1) hlocals hf ss hp hc hr w
    simp only [runEntry_running hlimit, evalUnit, if_pos hlimit]
    constructor
    · rintro ⟨steps, hdone⟩
      have h := hfollows steps
      cases hev : Stmt.evalTop .parity (callAt .parity routine? limit steps 1) c.site steps ss w with
      | none =>
        rw [hev] at h
        exact absurd h (not_lasts_of_done hdone (Nat.le_refl steps))
      | some a =>
        obtain ⟨r, w'⟩ := a
        rw [hev] at h
        refine ⟨steps, r, w', hev, ?_⟩
        cases r with
        | error stop =>
          obtain ⟨k, hk⟩ := h
          exact done_unique hdone hk
        | ok v =>
          obtain ⟨⟨k, hk⟩, _⟩ := h
          exact done_unique hdone hk
    · rintro ⟨fuel, r, w', hev, rfl⟩
      have h := hfollows fuel
      rw [hev] at h
      cases r with
      | error stop => exact h
      | ok v => exact h.1
  · simp only [runEntry_exhausted hlimit, evalUnit, if_neg hlimit, Eval.stop, Option.some.injEq,
      Prod.mk.injEq]
    constructor
    · rintro ⟨_, hdone⟩
      cases hdone
      exact ⟨0, _, _, ⟨rfl, rfl⟩, rfl⟩
    · rintro ⟨_, r, w', ⟨rfl, rfl⟩, rfl⟩
      exact ⟨0, rfl⟩

end StackScript
