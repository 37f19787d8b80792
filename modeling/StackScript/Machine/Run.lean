import StackScript.Diagnostic
import StackScript.Machine
import StackScript.Module.OfForms
import StackScript.ModuleText

/-!
Running module text: load it, link it with the host, start its entry.
-/

namespace StackScript

def LoadError.diagnostic (e : LoadError) : Diagnostic :=
  ⟨.assembly e.fault.message, ⟨e.offset, "<module>"⟩⟩

namespace Module

/-- Every import must be a function of the host with its number of parameters and no result. -/
def link : List Function → Except LoadError Unit
  | [] => .ok ()
  | f :: fs =>
    match f.imported with
    | none => link fs
    | some (module, field) =>
      match HostFunction.resolve? module field with
      | none => .error ⟨.unknownImport module field, 0⟩
      | some host =>
        if host.arity = f.params.length ∧ f.results = 0 then link fs
        else .error ⟨.wrongSignature module field, 0⟩

/-- A module that can run, and its entry. -/
def prepare (text : String) : Except LoadError (Module × Function) := do
  let m ← load text
  link m.functions
  match m.functions.find? fun f => f.exported == some ModuleText.entryName with
  | some entry => return (m, entry)
  | none => .error ⟨.noEntry ModuleText.entryName, 0⟩

end Module

namespace Machine

/-- Frames that may be live at once unless a limit is given. -/
def defaultLimit : Nat := 1000

/-- How module text ends: it may not load, and it may need more than `steps` steps. -/
inductive Ending where
  | refused (e : LoadError)
  | unfinished
  | ended (o : Outcome)

/-- Runs module text for at most `steps` steps. -/
def execute (steps limit : Nat) (memory : Memory) (host : Host) (text : String) : Ending :=
  match Module.prepare text with
  | .error e => .refused e
  | .ok (m, entry) =>
    match enter limit memory host entry with
    | .done o => .ended o
    | .running s =>
      match advance m limit steps s with
      | .done o => .ended o
      | .running _ => .unfinished

end Machine

end StackScript
