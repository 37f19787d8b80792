import StackScript.Text.Quoted
import StackScript.Text.Slice

/-!
Forms: module text as nested lists of atoms, each with the byte offset it starts at.
-/

namespace StackScript

/-- A form starts at a byte offset of its text, which is taken to be `Text.Short`. -/
inductive Form where
  | atom (offset : Nat) (text : String)
  | list (offset : Nat) (items : List Form)

namespace Form

def offset : Form → Nat
  | atom offset _ | list offset _ => offset

def atom? : Form → Option String
  | atom _ text => some text
  | list .. => none

def items? : Form → Option (List Form)
  | atom .. => none
  | list _ items => some items

/-- What a quoted atom holds. -/
def string? (f : Form) : Option String :=
  match f.atom?.map String.toList with
  | some ('"' :: cs) => if cs.getLast? = some '"' then some (String.ofList cs.dropLast) else none
  | _ => none

/-- The name of an atom that starts with the sign for names. -/
def name? (f : Form) : Option String :=
  match f.atom?.map String.toList with
  | some ('$' :: cs) => some (String.ofList cs)
  | _ => none

/-- The atom at the head of a list. -/
def head? : Form → Option String
  | list _ (first :: _) => first.atom?
  | _ => none

end Form

/-- Why a module text cannot be loaded. -/
inductive Fault where
  | unbalancedClose
  | unclosedOpen
  | unexpectedCharacter (c : Char)
  | expectedString (what : String)
  | onlyWords (what : String)
  | oneTypeEach (what : String)
  | atomInFunction
  | severalResults
  | importWithBody
  | malformedImport
  | memorySize
  | onlyMemoryImports
  | expectedLocal
  | unknownLocal (name : String)
  | expectedDepth
  | depthOutOfRange (depth : Nat)
  | expectedInstruction
  | blockResult
  | immediates (op : String) (wanted given : Nat)
  | invalidConstant
  | expectedFunctionName
  | unknownFunction (name : String)
  | unknownInstruction (op : String)
  | notOneModule
  | notAModule
  | atomInModule
  | secondMemory
  | unsupportedField (head : Option String)
  | duplicateFunction (name : String)
  | unknownImport (module field : String)
  | wrongSignature (module field : String)
  | noEntry (name : String)
  deriving DecidableEq, Repr

def Fault.message : Fault → String
  | unbalancedClose => "unbalanced `)`"
  | unclosedOpen => "unclosed `(`"
  | unexpectedCharacter c => s!"unexpected character {Text.quotedChar c}"
  | expectedString what => s!"expected a string for {what}"
  | onlyWords what => s!"only i32 {what} are supported"
  | oneTypeEach what => s!"named {what} must have one type"
  | atomInFunction => "unexpected atom in function"
  | severalResults => "at most one result is supported"
  | importWithBody => "an imported function cannot have a body"
  | malformedImport => "malformed import"
  | memorySize => "invalid memory size"
  | onlyMemoryImports => "only memory imports are supported here"
  | expectedLocal => "expected a local"
  | unknownLocal name => s!"unknown local `{name}`"
  | expectedDepth => "expected a branch depth"
  | depthOutOfRange depth => s!"branch depth {depth} out of range"
  | expectedInstruction => "expected an instruction"
  | blockResult => "block results are not supported"
  | immediates op wanted given => s!"`{op}` takes {wanted} immediate(s), got {given}"
  | invalidConstant => "invalid i32 constant"
  | expectedFunctionName => "expected a function name"
  | unknownFunction name => s!"unknown function `${name}`"
  | unknownInstruction op => s!"unknown instruction `{op}`"
  | notOneModule => "expected exactly one module"
  | notAModule => "expected `(module ...)`"
  | atomInModule => "unexpected atom in module"
  | secondMemory => "only one memory is supported"
  | unsupportedField head => "unsupported module field `" ++ head.getD "?" ++ "`"
  | duplicateFunction name => s!"duplicate function `${name}`"
  | unknownImport module field => s!"unknown import {module}.{field}"
  | wrongSignature module field => s!"import {module}.{field} has the wrong signature"
  | noEntry name => s!"no exported `{name}`"

/-- A fault at a byte of the module text. -/
structure LoadError where
  fault : Fault
  offset : Nat
  deriving DecidableEq, Repr

end StackScript
