import StackScript.Machine.Run
import StackScript.Program.OfTree

/-!
Units one after the other.

A unit is compiled on top of the declarations of earlier ones, and its module holds their functions
too. A session keeps the declarations, the memory and the host. A unit that fails leaves the
declarations as they were; what it had written to memory stays.
-/

namespace StackScript

/-- The value of a unit. -/
inductive Value where
  | int (n : Word)
  | bool (b : Bool)
  | none
  deriving DecidableEq, Repr

namespace Value

/-- Reads the word an entry gives as a value of a type; a word that makes no sense reads as zero. -/
def ofWord : Option Word → Ty → Value
  | .none, _ => .none
  | some w, .bool => .bool (w == 1)
  | some w, .int => .int w
  | some w, .none => if w = 0 then .none else .int 0
  | some _, .void => .int 0

def text : Value → String
  | .int n => Text.decimal n
  | .bool true => "True"
  | .bool false => "False"
  | .none => "None"

end Value

/-- What later units need of earlier ones. -/
structure Globals where
  layout : Layout
  declared : Layer
  /-- The texts of the functions so far. -/
  definitions : List String

def Globals.empty : Globals := ⟨.empty, .empty, []⟩

/-- A unit that is ready to run. -/
structure Compiled where
  text : String
  type : Ty
  returnsValue : Bool
  /-- The declarations once it has run. -/
  globals : Globals

/-- Compiles a unit on top of earlier ones. -/
def Globals.compile (g : Globals) (source file : String) : Except Diagnostic Compiled := do
  let p ← Program.parse source file
  let typing ← p.typeOn g.declared
  let code ← UnitCode.ofProgram typing.declared g.layout p
  return {
    text := ModuleText.ofUnit g.definitions code
    type := p.valueType typing
    returnsValue := code.returnsValue
    globals := ⟨code.layout, typing.declared, g.definitions ++ code.definitions⟩ }

structure Session where
  globals : Globals
  memory : Memory
  host : Host
  limit : Nat

/-- The name of a text that comes from no file. -/
def shellName : String := "shell"

namespace Session

/-- A session with nothing declared, over one page of memory. -/
def start (host : Host) (limit : Nat) : Session := ⟨.empty, .ofPages 1, host, limit⟩

/-- A unit that has been compiled and loaded, and how far it has come. -/
structure Started where
  compiled : Compiled
  module : Module
  progress : Machine.Progress

/-- Compiles and loads a unit. -/
def begin (s : Session) (source file : String) : Except Diagnostic Started := do
  let compiled ← s.globals.compile source file
  match Module.prepare compiled.text with
  | .error e => .error e.diagnostic
  | .ok (module, entry) =>
    return ⟨compiled, module, Machine.enter s.limit s.memory s.host entry⟩

/-- Goes on for at most `steps` steps. -/
def Started.advance (u : Started) (limit steps : Nat) : Started :=
  match u.progress with
  | .done _ => u
  | .running s => { u with progress := Machine.advance u.module limit steps s }

/-- Takes up the outcome of a unit. -/
def finish (s : Session) (compiled : Compiled) (o : Machine.Outcome) :
    Except Diagnostic Value × Session :=
  match o.result with
  | .ok raw =>
    (.ok (.ofWord raw compiled.type), { s with
      globals := compiled.globals, memory := o.memory, host := o.host })
  | .error t => (.error t.diagnostic, { s with memory := o.memory, host := o.host })

/-- Runs a unit for at most `steps` steps. -/
def run (s : Session) (steps : Nat) (source : String) : Option (Except Diagnostic Value × Session) :=
  match s.begin source shellName with
  | .error d => some (.error d, s)
  | .ok u =>
    match (u.advance s.limit steps).progress with
    | .running _ => none
    | .done o => some (s.finish u.compiled o)

end Session

end StackScript
