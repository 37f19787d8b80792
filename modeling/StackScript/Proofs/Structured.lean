import StackScript.Machine

namespace StackScript

namespace Machine

structure Config where
  memory : Memory
  host : Host
  locals : Table Word
  /-- The operands, top first. -/
  stack : List Word

inductive Exit where
  | through
  /-- A branch to the body this many levels out. -/
  | branch (depth : Nat)
  | returned
  | trapped (t : Trap)

/-- An exit of a body as the body around it sees it; a branch to the body itself is not one. -/
def Exit.outward : Exit → Exit
  | branch (depth + 1) => branch depth
  | e => e

def resultOf (results : Nat) (stack : List Word) : Except Trap (Option Word) :=
  if results = 0 then .ok none
  else
    match stack with
    | [] => .error .noResult
    | top :: _ => .ok (some top)

/-- The result of a function whose body ends so; a branch to the body returns, and there is none
further out. -/
def Exit.result? (results : Nat) (stack : List Word) : Exit → Option (Except Trap (Option Word))
  | through | branch 0 | returned => some (resultOf results stack)
  | trapped t => some (.error t)
  | branch (_ + 1) => none

namespace Config

def push (c : Config) (value : Word) : Config := { c with stack := value :: c.stack }

def cut (c : Config) (height : Nat) : Config :=
  { c with stack := c.stack.drop (c.stack.length - height) }

/-- What an instruction computes; `none` if it is about control. -/
def compute? (c : Config) : Instr → Option (Except Trap Config)
  | .const value => some (.ok (c.push value))
  | .address offset _ => some (.ok (c.push offset))
  | .num op => some <|
    match c.stack with
    | right :: left :: stack =>
      match op.apply left right with
      | .ok value => .ok { c with stack := value :: stack }
      | .error t => .error t
    | _ => .error .underflow
  | .load => some <|
    match c.stack with
    | address :: stack =>
      match c.memory.load? address with
      | some value => .ok { c with stack := value :: stack }
      | none => .error (.outOfBounds address)
    | [] => .error .underflow
  | .store => some <|
    match c.stack with
    | value :: address :: stack =>
      match c.memory.store? address value with
      | some memory => .ok { c with memory, stack }
      | none => .error (.outOfBounds address)
    | _ => .error .underflow
  | .localGet name => some <|
    match c.locals.get? name with
    | some value => .ok (c.push value)
    | none => .error (.unknownLocal name)
  | .localSet name => some <|
    match c.stack with
    | value :: stack => .ok { c with locals := c.locals.insert name value, stack }
    | [] => .error .underflow
  | .drop => some <|
    match c.stack with
    | _ :: stack => .ok { c with stack }
    | [] => .error .underflow
  | .nop => some (.ok c)
  | .call .. | .ret | .br _ | .brIf _ | .block _ | .loop _ => none

def callee (c : Config) (f : Function) (args : List Word) : Config where
  memory := c.memory
  host := c.host
  locals := .ofList (f.params.zip args ++ f.locals.map fun name => (name, 0))
  stack := []

def resume (c callee : Config) (result : Option Word) : Config :=
  { c with memory := callee.memory, host := callee.host, stack := result.toList ++ c.stack }

end Config

inductive Task where
  | one (i : Instr)
  | all (code : List Instr)
  /-- The body of a loop that was entered at this height, again and again. -/
  | rounds (body : List Instr) (height : Nat)
  /-- A call whose arguments are off the stack. -/
  | invoke (f : Function) (args : List Word)

/-- With this many frames live, the task takes the first configuration to an exit and the second. A
block turns a branch to itself into falling through and a loop starts again; both cut the stack back
to its height on entry. A call runs the body of its callee on a stack and locals of its own, and
needs room for one more frame. -/
inductive Runs (m : Module) (limit : Nat) : Nat → Task → Config → Exit → Config → Prop where
  | computed {live : Nat} {i : Instr} {c c' : Config} : c.compute? i = some (.ok c') →
    Runs m limit live (.one i) c .through c'
  | failed {live : Nat} {i : Instr} {c : Config} {t : Trap} : c.compute? i = some (.error t) →
    Runs m limit live (.one i) c (.trapped t) c
  | ret {live : Nat} {c : Config} : Runs m limit live (.one .ret) c .returned c
  | br {live depth : Nat} {c : Config} : Runs m limit live (.one (.br depth)) c (.branch depth) c
  | brIf {live depth : Nat} {c : Config} {value : Word} {stack : List Word} :
    c.stack = value :: stack → value ≠ 0 →
    Runs m limit live (.one (.brIf depth)) c (.branch depth) { c with stack }
  | brIfNot {live depth : Nat} {c : Config} {stack : List Word} : c.stack = 0 :: stack →
    Runs m limit live (.one (.brIf depth)) c .through { c with stack }
  | brIfShort {live depth : Nat} {c : Config} : c.stack = [] →
    Runs m limit live (.one (.brIf depth)) c (.trapped .underflow) c
  | block {live : Nat} {body : List Instr} {c c' : Config} {e : Exit} :
    Runs m limit live (.all body) c e c' → e ≠ .branch 0 →
    Runs m limit live (.one (.block body)) c e.outward c'
  | blockLeft {live : Nat} {body : List Instr} {c c' : Config} :
    Runs m limit live (.all body) c (.branch 0) c' →
    Runs m limit live (.one (.block body)) c .through (c'.cut c.stack.length)
  | loop {live : Nat} {body : List Instr} {c c' : Config} {e : Exit} :
    Runs m limit live (.rounds body c.stack.length) c e c' →
    Runs m limit live (.one (.loop body)) c e c'
  | round {live height : Nat} {body : List Instr} {c c' : Config} {e : Exit} :
    Runs m limit live (.all body) c e c' → e ≠ .branch 0 →
    Runs m limit live (.rounds body height) c e.outward c'
  | again {live height : Nat} {body : List Instr} {c c' c'' : Config} {e : Exit} :
    Runs m limit live (.all body) c (.branch 0) c' →
    Runs m limit live (.rounds body height) (c'.cut height) e c'' →
    Runs m limit live (.rounds body height) c e c''
  | nil {live : Nat} {c : Config} : Runs m limit live (.all []) c .through c
  | next {live : Nat} {i : Instr} {code : List Instr} {c c' c'' : Config} {e : Exit} :
    Runs m limit live (.one i) c .through c' → Runs m limit live (.all code) c' e c'' →
    Runs m limit live (.all (i :: code)) c e c''
  | stop {live : Nat} {i : Instr} {code : List Instr} {c c' : Config} {e : Exit} :
    Runs m limit live (.one i) c e c' → e ≠ .through →
    Runs m limit live (.all (i :: code)) c e c'
  | unknown {live params results : Nat} {name : String} {c : Config} : m.function? name = none →
    Runs m limit live (.one (.call name params results)) c (.trapped (.unknownFunction name)) c
  | short {live params results : Nat} {name : String} {f : Function} {c : Config} :
    m.function? name = some f → c.stack.length < params →
    Runs m limit live (.one (.call name params results)) c (.trapped .underflow) c
  | call {live params results : Nat} {name : String} {f : Function} {c c' : Config} {e : Exit} :
    m.function? name = some f → params ≤ c.stack.length →
    Runs m limit live (.invoke f (c.stack.take params).reverse)
      { c with stack := c.stack.drop params } e c' →
    Runs m limit live (.one (.call name params results)) c e c'
  | unlinked {live : Nat} {f : Function} {args : List Word} {c : Config} {module field : String} :
    f.imported = some (module, field) → HostFunction.resolve? module field = none →
    Runs m limit live (.invoke f args) c (.trapped (.unknownImport module field)) c
  | served {live : Nat} {f : Function} {args : List Word} {c : Config} {module field : String}
      {function : HostFunction} {host : Host} :
    f.imported = some (module, field) → HostFunction.resolve? module field = some function →
    c.host.call function args = .ok host →
    Runs m limit live (.invoke f args) c .through { c with host }
  | refused {live : Nat} {f : Function} {args : List Word} {c : Config} {module field : String}
      {function : HostFunction} {t : Trap} :
    f.imported = some (module, field) → HostFunction.resolve? module field = some function →
    c.host.call function args = .error t →
    Runs m limit live (.invoke f args) c (.trapped t) { c with host := c.host.failing function args }
  | exhausted {live : Nat} {f : Function} {args : List Word} {c : Config} :
    f.imported = none → limit ≤ live →
    Runs m limit live (.invoke f args) c (.trapped .exhausted) c
  | returns {live : Nat} {f : Function} {args : List Word} {c c' : Config} {e : Exit}
      {result : Option Word} :
    f.imported = none → live < limit →
    Runs m limit (live + 1) (.all f.body) (c.callee f args) e c' →
    e.result? f.results c'.stack = some (.ok result) →
    Runs m limit live (.invoke f args) c .through (c.resume c' result)
  | traps {live : Nat} {f : Function} {args : List Word} {c c' : Config} {e : Exit} {t : Trap} :
    f.imported = none → live < limit →
    Runs m limit (live + 1) (.all f.body) (c.callee f args) e c' →
    e.result? f.results c'.stack = some (.error t) →
    Runs m limit live (.invoke f args) c (.trapped t) (c.resume c' none)

def Config.outcome (c : Config) : Exit → Outcome
  | .trapped t => ⟨.error t, c.memory, c.host⟩
  | _ => ⟨.ok c.stack.head?, c.memory, c.host⟩

/-- The entry, called without arguments while no frame is live, ends with this outcome. -/
def Evaluates (m : Module) (limit : Nat) (memory : Memory) (host : Host) (entry : Function)
    (o : Outcome) : Prop :=
  ∃ e c, Runs m limit 0 (.invoke entry []) ⟨memory, host, .empty, []⟩ e c ∧ c.outcome e = o

end Machine

namespace Instr

mutual

/-- Every branch goes to one of the bodies around it, of which there are `labels` outside. -/
def Within (labels : Nat) : Instr → Prop
  | .br depth | .brIf depth => depth < labels
  | .block body | .loop body => WithinAll (labels + 1) body
  | _ => True

def WithinAll (labels : Nat) : List Instr → Prop
  | [] => True
  | i :: is => Within labels i ∧ WithinAll labels is

end

end Instr

def Module.Within (m : Module) : Prop := ∀ f ∈ m.functions, Instr.WithinAll 1 f.body

theorem Module.Within.of_function? {m : Module} (h : m.Within) {name : String} {f : Function}
    (hf : m.function? name = some f) : Instr.WithinAll 1 f.body :=
  h f (List.mem_of_find?_eq_some hf)

namespace Machine

def Task.Within (labels : Nat) : Task → Prop
  | .one i => i.Within labels
  | .all code => Instr.WithinAll labels code
  | .rounds body _ => Instr.WithinAll (labels + 1) body
  | .invoke f _ => Instr.WithinAll 1 f.body

theorem Exit.eq_branch_of_outward {e : Exit} {depth : Nat} (hne : e ≠ .branch 0)
    (h : e.outward = .branch depth) : e = .branch (depth + 1) := by
  match e with
  | through | returned | trapped _ => cases h
  | branch 0 => exact absurd rfl hne
  | branch (n + 1) =>
    cases h
    rfl

/-- A branch out of code that stays inside goes to a body around it. -/
theorem Runs.branch_lt {m : Module} {limit live : Nat} {task : Task} {c c' : Config} {e : Exit}
    (hm : m.Within) (h : Runs m limit live task c e c') {labels depth : Nat}
    (ht : task.Within labels) (he : e = .branch depth) : depth < labels := by
  induction h generalizing labels depth with
  | br | brIf =>
    cases he
    exact ht
  | block _ hne ih | round _ hne ih =>
    exact Nat.lt_of_succ_lt_succ (ih ht (Exit.eq_branch_of_outward hne he))
  | loop _ ih => exact ih ht he
  | again _ _ _ ih => exact ih ht he
  | next _ _ _ ih => exact ih ht.2 he
  | stop _ _ ih => exact ih ht.1 he
  | call hf _ _ ih => exact ih (hm.of_function? hf) he
  | _ => cases he

end Machine

end StackScript
