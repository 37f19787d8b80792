import StackScript.Code
import StackScript.Diagnostic

/-!
The host of a module: the printing it offers, and what ends a run for good.
-/

namespace StackScript

/-- The functions a host offers. -/
inductive HostFunction where
  | print
  | printGlobal
  | printInt
  | printBool
  deriving DecidableEq, Repr

namespace HostFunction

def label : HostFunction → String
  | print => "Print"
  | printGlobal => "PrintGlobal"
  | printInt => "PrintInt"
  | printBool => "PrintBool"

/-- The function a module imports by these names. -/
def resolve? (module field : String) : Option HostFunction :=
  if module = "imports" then
    match field with
    | "imported_func" => some print
    | "print_global_func" => some printGlobal
    | "print_int" => some printInt
    | "print_bool" => some printBool
    | _ => none
  else none

def arity : HostFunction → Nat
  | printGlobal => 2
  | print | printInt | printBool => 1

end HostFunction

/-- A call to the host with all its arguments. -/
inductive HostCall where
  | print (value : Word)
  | printGlobal (slot value : Word)
  | printInt (value : Word)
  | printBool (value : Word)
  deriving DecidableEq, Repr

namespace HostCall

def of? : HostFunction → List Word → Option HostCall
  | .print, [value] => some (.print value)
  | .printGlobal, [slot, value] => some (.printGlobal slot value)
  | .printInt, [value] => some (.printInt value)
  | .printBool, [value] => some (.printBool value)
  | _, _ => none

/-- The line a call prints. -/
def line : HostCall → String
  | print _ => "None\n"
  | printGlobal _ value | printInt value => Text.decimal value ++ "\n"
  | printBool value => if value = 1 then "True\n" else "False\n"

end HostCall

/-- What stops a run. -/
inductive Trap where
  | underflow
  | unknownLocal (name : String)
  | branchOutOfRange (depth : Nat)
  | noResult
  | divideByZero
  | overflow
  | exhausted
  | unknownFunction (name : String)
  | unknownImport (module field : String)
  | outOfBounds (address : Word)
  | hostArity (function : HostFunction) (given : Nat)
  | hostFailed (reason : String)
  deriving DecidableEq, Repr

def Trap.message : Trap → String
  | underflow => "operand stack underflow"
  | unknownLocal name => s!"unknown local `{name}`"
  | branchOutOfRange depth => s!"branch depth {depth} out of range"
  | noResult => "function returned without a value"
  | divideByZero => "integer divide by zero"
  | overflow => "integer overflow"
  | exhausted => "call stack exhausted"
  | unknownFunction name => s!"unknown function `${name}`"
  | unknownImport module field => s!"unknown import {module}.{field}"
  | outOfBounds address => s!"out of bounds memory access at address {Text.decimal address}"
  | hostArity f given =>
    s!"host function {f.label} expects {f.arity} argument(s), got {given}"
  | hostFailed reason => s!"host output failed: {reason}"

/-- A trap has no place in a unit's text. -/
def Trap.diagnostic (t : Trap) : Diagnostic := ⟨.trap t.message, .nowhere⟩

/-- A host of any behaviour: what it makes of a call may depend on all that it has been asked for
before, so it may fail one and serve the next. Calls are listed newest first. -/
structure Host where
  asked : List HostCall
  served : List HostCall
  /-- Why it fails a call after it has been asked for others. -/
  refuses : List HostCall → HostCall → Option String

namespace Host

def reliable : Host := ⟨[], [], fun _ _ => none⟩

/-- A host that serves the first `n` calls. -/
def failingAfter (n : Nat) (reason : String) : Host :=
  ⟨[], [], fun asked _ => if asked.length < n then none else some reason⟩

def noting (h : Host) (c : HostCall) : Host := { h with asked := c :: h.asked }

def serving (h : Host) (c : HostCall) : Host := { h.noting c with served := c :: h.served }

def serve (h : Host) (c : HostCall) : Except String Host :=
  match h.refuses h.asked c with
  | none => .ok (h.serving c)
  | some reason => .error reason

def call (h : Host) (f : HostFunction) (args : List Word) : Except Trap Host :=
  match HostCall.of? f args with
  | some c =>
    match h.serve c with
    | .ok h => .ok h
    | .error reason => .error (.hostFailed reason)
  | none => .error (.hostArity f args.length)

/-- The host after a call that it has failed. -/
def failing (h : Host) (f : HostFunction) (args : List Word) : Host :=
  match HostCall.of? f args with
  | some c => h.noting c
  | none => h

theorem serve_served {h h' : Host} {c : HostCall} (hs : h.serve c = .ok h') :
    h'.served = c :: h.served := by
  unfold serve at hs
  split at hs <;> cases hs
  rfl

/-- A call that fails has too few or too many arguments, or the host refuses it. -/
theorem call_eq_error {h : Host} {f : HostFunction} {args : List Word} {t : Trap}
    (hc : h.call f args = .error t) :
    (∃ reason, t = .hostFailed reason) ∨
      HostCall.of? f args = none ∧ t = .hostArity f args.length := by
  unfold call at hc
  split at hc
  · split at hc <;> cases hc
    exact .inl ⟨_, rfl⟩
  · rename_i hnone
    cases hc
    exact .inr ⟨hnone, rfl⟩

/-- What the served calls printed. -/
def output (h : Host) : String := String.join (h.served.reverse.map HostCall.line)

/-- Forgets the served calls. -/
def cleared (h : Host) : Host := { h with served := [] }

end Host

end StackScript
