import StackScript.Machine.Host
import StackScript.Machine.Memory
import StackScript.Module
import StackScript.Table

/-!
The machine that runs modules.

A frame runs one call: its locals, its stack, and labels for the function body and for each block or
loop it is inside of, with the code that is left there. `step` executes one instruction, or leaves a
body that has come to its end. A call puts the caller aside; nothing nests in the machine itself, so
a run is `step` again and again.
-/

namespace StackScript

namespace NumOp

def ofBool (b : Bool) : Word := if b then 1 else 0

/-- The word an operation leaves, `left` below `right` on the stack. Arithmetic wraps; division
goes toward zero. -/
def apply (op : NumOp) (left right : Word) : Except Trap Word :=
  match op with
  | add => .ok (left + right)
  | sub => .ok (left - right)
  | mul => .ok (left * right)
  | div =>
    if right = 0 then .error .divideByZero
    else if left = Int32.minValue ∧ right = -1 then .error .overflow
    else .ok (left / right)
  | rem => if right = 0 then .error .divideByZero else .ok (left % right)
  | lt => .ok (ofBool (left < right))
  | le => .ok (ofBool (left ≤ right))
  | gt => .ok (ofBool (right < left))
  | ge => .ok (ofBool (right ≤ left))
  | eq => .ok (ofBool (left == right))
  | ne => .ok (ofBool (left != right))

end NumOp

namespace Machine

inductive LabelKind where
  /-- A branch to the body of a function returns. -/
  | body
  | block
  /-- A branch to a loop starts this code again. -/
  | loop (code : List Instr)

/-- A body the frame is inside of. -/
structure Label where
  kind : LabelKind
  /-- What is left of it. -/
  code : List Instr
  /-- The height of the stack when it was entered. -/
  height : Nat

structure Frame where
  results : Nat
  locals : Table Word
  /-- The operands, top first. -/
  stack : List Word
  /-- The bodies around the next instruction, innermost first. -/
  labels : List Label

/-- The frame of a call. -/
def Frame.ofCall (f : Function) (args : List Word) : Frame where
  results := f.results
  locals := .ofList (f.params.zip args ++ f.locals.map fun name => (name, 0))
  stack := []
  labels := [⟨.body, f.body, 0⟩]

structure State where
  memory : Memory
  host : Host
  frame : Frame
  /-- The frames that wait for a call to return, innermost first. -/
  callers : List Frame

/-- How a run has ended. -/
structure Outcome where
  result : Except Trap (Option Word)
  memory : Memory
  host : Host

inductive Progress where
  | running (s : State)
  | done (o : Outcome)

/-- The stack cut down to a height. -/
def cutTo (height : Nat) (stack : List Word) : List Word := stack.drop (stack.length - height)

/-- What a branch does to a frame: `none` if it leaves the function. -/
def Frame.branch (f : Frame) (depth : Nat) : Except Trap (Option Frame) :=
  match f.labels.drop depth with
  | [] => .error (.branchOutOfRange depth)
  | l :: outer =>
    match l.kind with
    | .body => .ok none
    | .block => .ok (some { f with labels := outer, stack := cutTo l.height f.stack })
    | .loop code =>
      .ok (some { f with labels := { l with code } :: outer, stack := cutTo l.height f.stack })

/-- Ends the call of a frame: the caller gets its result, or the run is over. -/
def leave (memory : Memory) (host : Host) (f : Frame) (callers : List Frame) : Progress :=
  let result : Except Trap (Option Word) :=
    if f.results = 0 then .ok none
    else
      match f.stack with
      | [] => .error .noResult
      | top :: _ => .ok (some top)
  match result, callers with
  | .error t, _ => .done ⟨.error t, memory, host⟩
  | .ok r, [] => .done ⟨.ok r, memory, host⟩
  | .ok r, caller :: callers =>
    .running ⟨memory, host, { caller with stack := r.toList ++ caller.stack }, callers⟩

/-- Calls a function from a frame. A function of the host runs at once; any other one needs room
for its frame below the limit. -/
def invoke (limit : Nat) (memory : Memory) (host : Host) (f : Frame) (callers : List Frame)
    (callee : Function) (args : List Word) : Progress :=
  match callee.imported with
  | some (module, field) =>
    match HostFunction.resolve? module field with
    | none => .done ⟨.error (.unknownImport module field), memory, host⟩
    | some function =>
      match host.call function args with
      | .ok host => .running ⟨memory, host, f, callers⟩
      | .error t => .done ⟨.error t, memory, host.failing function args⟩
  | none =>
    if callers.length + 1 < limit then .running ⟨memory, host, .ofCall callee args, f :: callers⟩
    else .done ⟨.error .exhausted, memory, host⟩

/-- Takes a branch. -/
def jump (memory : Memory) (host : Host) (f : Frame) (callers : List Frame) (depth : Nat) :
    Progress :=
  match f.branch depth with
  | .error t => .done ⟨.error t, memory, host⟩
  | .ok none => leave memory host f callers
  | .ok (some f) => .running ⟨memory, host, f, callers⟩

/-- Executes an instruction in a frame that is already past it. -/
def exec (m : Module) (limit : Nat) (memory : Memory) (host : Host) (f : Frame)
    (callers : List Frame) (i : Instr) : Progress :=
  match i with
  | .const value => .running ⟨memory, host, { f with stack := value :: f.stack }, callers⟩
  | .address offset _ => .running ⟨memory, host, { f with stack := offset :: f.stack }, callers⟩
  | .num op =>
    match f.stack with
    | right :: left :: stack =>
      match op.apply left right with
      | .ok value => .running ⟨memory, host, { f with stack := value :: stack }, callers⟩
      | .error t => .done ⟨.error t, memory, host⟩
    | _ => .done ⟨.error .underflow, memory, host⟩
  | .load =>
    match f.stack with
    | address :: stack =>
      match memory.load? address with
      | some value => .running ⟨memory, host, { f with stack := value :: stack }, callers⟩
      | none => .done ⟨.error (.outOfBounds address), memory, host⟩
    | [] => .done ⟨.error .underflow, memory, host⟩
  | .store =>
    match f.stack with
    | value :: address :: stack =>
      match memory.store? address value with
      | some memory => .running ⟨memory, host, { f with stack }, callers⟩
      | none => .done ⟨.error (.outOfBounds address), memory, host⟩
    | _ => .done ⟨.error .underflow, memory, host⟩
  | .localGet name =>
    match f.locals.get? name with
    | some value => .running ⟨memory, host, { f with stack := value :: f.stack }, callers⟩
    | none => .done ⟨.error (.unknownLocal name), memory, host⟩
  | .localSet name =>
    match f.stack with
    | value :: stack =>
      .running ⟨memory, host, { f with stack, locals := f.locals.insert name value }, callers⟩
    | [] => .done ⟨.error .underflow, memory, host⟩
  | .call name params _ =>
    match m.function? name with
    | none => .done ⟨.error (.unknownFunction name), memory, host⟩
    | some callee =>
      if f.stack.length < params then .done ⟨.error .underflow, memory, host⟩
      else
        invoke limit memory host { f with stack := f.stack.drop params } callers callee
          (f.stack.take params).reverse
  | .drop =>
    match f.stack with
    | _ :: stack => .running ⟨memory, host, { f with stack }, callers⟩
    | [] => .done ⟨.error .underflow, memory, host⟩
  | .nop => .running ⟨memory, host, f, callers⟩
  | .ret => leave memory host f callers
  | .br depth => jump memory host f callers depth
  | .brIf depth =>
    match f.stack with
    | value :: stack =>
      if value = 0 then .running ⟨memory, host, { f with stack }, callers⟩
      else jump memory host { f with stack } callers depth
    | [] => .done ⟨.error .underflow, memory, host⟩
  | .block body =>
    let label : Label := ⟨.block, body, f.stack.length⟩
    .running ⟨memory, host, { f with labels := label :: f.labels }, callers⟩
  | .loop body =>
    let label : Label := ⟨.loop body, body, f.stack.length⟩
    .running ⟨memory, host, { f with labels := label :: f.labels }, callers⟩

def step (m : Module) (limit : Nat) (s : State) : Progress :=
  match s with
  | ⟨memory, host, f, callers⟩ =>
    match f.labels with
    | [] => leave memory host f callers
    | l :: outer =>
      match l.code with
      | [] =>
        match l.kind with
        | .body => leave memory host f callers
        | _ => .running ⟨memory, host, { f with labels := outer }, callers⟩
      | i :: code => exec m limit memory host { f with labels := { l with code } :: outer } callers i

/-- At most `n` steps. -/
def advance (m : Module) (limit : Nat) : Nat → State → Progress
  | 0, s => .running s
  | n + 1, s =>
    match step m limit s with
    | .running s => advance m limit n s
    | .done o => .done o

/-- The start of a run at an entry that gets no arguments. -/
def enter (limit : Nat) (memory : Memory) (host : Host) (entry : Function) : Progress :=
  match entry.imported with
  | some (module, field) =>
    match HostFunction.resolve? module field with
    | none => .done ⟨.error (.unknownImport module field), memory, host⟩
    | some function =>
      match host.call function [] with
      | .ok host => .done ⟨.ok none, memory, host⟩
      | .error t => .done ⟨.error t, memory, host.failing function []⟩
  | none =>
    if 0 < limit then .running ⟨memory, host, .ofCall entry [], []⟩
    else .done ⟨.error .exhausted, memory, host⟩

end Machine

end StackScript
