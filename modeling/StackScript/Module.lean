import StackScript.Code
import StackScript.Form

/-!
Modules: functions with their code, ready to run.
-/

namespace StackScript

structure Function where
  name : Option String
  /-- Names of the parameters; one without a name is named by its place. -/
  params : List String
  results : Nat
  locals : List String
  body : List Instr
  /-- Module and field of a function that comes from the host. -/
  imported : Option (String × String)
  exported : Option String

structure MemoryImport where
  module : String
  field : String
  pages : Nat

structure Module where
  functions : List Function
  memory : Option MemoryImport

namespace Module

/-- The place of the function of a name. -/
def index? (m : Module) (name : String) : Option Nat :=
  m.functions.findIdx? fun f => f.name == some name

/-- The place of the first function exported under a name. -/
def exported? (m : Module) (name : String) : Option Nat :=
  m.functions.findIdx? fun f => f.exported == some name

def function? (m : Module) (name : String) : Option Function :=
  m.functions.find? fun f => f.name == some name

end Module

end StackScript
