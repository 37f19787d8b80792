import StackScript.Text.Blank
import StackScript.Text.Line
import StackScript.Text.Quoted

/-!
Diagnostics: what is wrong with a unit, where, and how it is reported.

A diagnostic is a cause at a position. The kind, name, message and tip of a report are functions of
the cause alone; `Diagnostic.render` adds the source line and a caret under the position.
-/

namespace StackScript

/-- A byte offset in a named text. Texts are taken to be `Text.Short`: from 4 GiB on, 32 bits do not hold
their offsets. -/
structure Position where
  offset : Nat
  file : String
  deriving DecidableEq, Repr

/-- A stretch of a named text, from its first byte to the one after its last. -/
structure Span where
  start : Nat
  stop : Nat
  file : String
  deriving DecidableEq, Repr

/-- The place of what stands in no text. -/
def Position.nowhere : Position := ⟨0, "<null>"⟩

namespace Span

def nowhere : Span := ⟨0, 0, "<null>"⟩

def first (s : Span) : Position := ⟨s.start, s.file⟩

def last (s : Span) : Position := ⟨s.stop, s.file⟩

/-- From the start of one span to the end of another. -/
def upTo (a b : Span) : Span := ⟨a.start, b.stop, a.file⟩

/-- The empty span at the end. -/
def atEnd (s : Span) : Span := ⟨s.stop, s.stop, s.file⟩

def text (s : Span) (source : String) : String := Text.slice source s.start s.stop

end Span

/-- The stage at which a unit fails on its way from text to result. -/
inductive Stage where
  | syntactic
  | scoping
  | typing
  | generation
  | running
  deriving DecidableEq, Repr

def Stage.label : Stage → String
  | .syntactic => "SyntaxError"
  | .scoping => "ScopeError"
  | .typing => "TypeError"
  | .generation => "CodegenError"
  | .running => "RuntimeError"

inductive Cause where
  | unrecognisedToken (token : String)
  | unexpectedToken (token : String)
  | unexpectedTokenDetailed (token message : String)
  | inconsistentIndentation
  | numberParse (token : String)
  | unsupportedSyntax (node : String) (start stop : Nat) (text : String)
  | unknownType (name : String)
  | duplicateDeclaration (name : String)
  | notAVariable (name : String)
  | notAFunction (name : String)
  | reservedName (name : String)
  | lateInitialization (name : String)
  | lateFunctionDefinition (name : String)
  | nestedFunctionDefinition (name : String)
  | nonLocalAssignment (name : String)
  | returnOutsideFunction
  | unexpectedArguments (expected received : Nat)
  | argumentTypeMatch (expected received : String) (index : Nat)
  | typeMatch (expected received : String)
  | returnTypeMatch (expected received : String)
  | unaryOperatorType (operator operand : String)
  | binaryOperatorType (operator left right : String)
  | conditionType (received : String)
  | unknownName (name : String)
  | stackUnderflow (instruction : String) (needed available : Nat)
  | unbalancedStack (context : String) (depth expected : Nat)
  | assembly (message : String)
  | trap (message : String)
  deriving DecidableEq, Repr

namespace Cause

def stage : Cause → Stage
  | unrecognisedToken _ | unexpectedToken _ | unexpectedTokenDetailed .. | inconsistentIndentation
  | numberParse _ | unsupportedSyntax .. | unknownType _ => .syntactic
  | duplicateDeclaration _ | notAVariable _ | notAFunction _ | reservedName _
  | lateInitialization _ | lateFunctionDefinition _ | nestedFunctionDefinition _
  | nonLocalAssignment _ | returnOutsideFunction => .scoping
  | unexpectedArguments .. | argumentTypeMatch .. | typeMatch .. | returnTypeMatch ..
  | unaryOperatorType .. | binaryOperatorType .. | conditionType _ => .typing
  | unknownName _ | stackUnderflow .. | unbalancedStack .. => .generation
  | assembly _ | trap _ => .running

def name : Cause → String
  | unrecognisedToken _ => "UnrecognisedToken"
  | unexpectedToken _ => "UnexpectedToken"
  | unexpectedTokenDetailed .. => "UnexpectedTokenDetailed"
  | inconsistentIndentation => "InconsistentIndentation"
  | numberParse _ => "NumberParseError"
  | unsupportedSyntax .. => "UnsupportedSyntax"
  | unknownType _ => "UnknownType"
  | duplicateDeclaration _ => "DuplicateDeclaration"
  | notAVariable _ => "NotAVariable"
  | notAFunction _ => "NotAFunction"
  | reservedName _ => "ReservedName"
  | lateInitialization _ => "LateInitialization"
  | lateFunctionDefinition _ => "LateFunctionDefinition"
  | nestedFunctionDefinition _ => "NestedFunctionDefinition"
  | nonLocalAssignment _ => "NonLocalAssignment"
  | returnOutsideFunction => "ReturnOutsideFunction"
  | unexpectedArguments .. => "UnexpectedArguments"
  | argumentTypeMatch .. => "ArgumentTypeMatchError"
  | typeMatch .. => "TypeMatchError"
  | returnTypeMatch .. => "ReturnTypeMatchError"
  | unaryOperatorType .. => "UnaryOperatorTypeError"
  | binaryOperatorType .. => "BinaryOperatorTypeError"
  | conditionType _ => "ConditionTypeError"
  | unknownName _ => "UnknownName"
  | stackUnderflow .. => "StackUnderflow"
  | unbalancedStack .. => "UnbalancedStack"
  | assembly _ => "AssemblyError"
  | trap _ => "Trap"

def message : Cause → String
  | unrecognisedToken token => s!"unrecognised token: {Text.quoted token}"
  | unexpectedToken token => s!"unexpected token: {Text.quoted token}"
  | unexpectedTokenDetailed token message => s!"unexpected token ({message}): {Text.quoted token}"
  | inconsistentIndentation => "unindent does not match any outer indentation level"
  | numberParse token => s!"error parsing number: {Text.quoted token}"
  | unsupportedSyntax node start stop text => s!"Could not parse {node} at {start} {stop}: {text}"
  | unknownType name => s!"unknown type {name} found"
  | duplicateDeclaration name => s!"Duplicate declaration of identifier in same scope: {name}"
  | notAVariable name => s!"Not a variable: `{name}`"
  | notAFunction name => s!"Not a class or function: {name}"
  | reservedName name => s!"Cannot define function `{name}`: the name is reserved by a built-in"
  | lateInitialization name =>
    s!"Please initialize variable `{name}` in the beginning of the program/function"
  | lateFunctionDefinition name =>
    s!"Please define function `{name}` in the beginning of the program"
  | nestedFunctionDefinition name => s!"Cannot define function `{name}` inside another function"
  | nonLocalAssignment name =>
    s!"Cannot assign to `{name}`: it is not a parameter or local of this function"
  | returnOutsideFunction => "Return statement cannot appear at the top level"
  | unexpectedArguments expected received => s!"Expected {expected} arguments; got {received}"
  | argumentTypeMatch expected received index =>
    s!"Expected type `{expected}`; got type `{received}` in parameter {index}"
  | typeMatch expected received => s!"Expected type `{expected}`; got type `{received}`"
  | returnTypeMatch expected received => s!"Expected type `{expected}`; got `{received}`"
  | unaryOperatorType operator operand =>
    s!"Cannot apply operator `{operator}` on type `{operand}`"
  | binaryOperatorType operator left right =>
    s!"Cannot apply operator `{operator}` on types `{left}` and `{right}`"
  | conditionType received => s!"Condition expression cannot be of type `{received}`"
  | unknownName name => s!"Could not find name {name}"
  | stackUnderflow instruction needed available =>
    s!"stack underflow: `{instruction}` needs {needed} operand(s), {available} available"
  | unbalancedStack context depth expected =>
    s!"unbalanced stack: {context} leaves {depth} value(s), expected {expected}"
  | assembly message => s!"could not assemble module: {message}"
  | trap message => message

/-- Advice shown with the name; most messages already read as advice. -/
def tip : Cause → Option String
  | unrecognisedToken _ => none
  | unexpectedToken token => some s!"Unexpected token: `{token}`, is a newline or `:` missing?"
  | inconsistentIndentation => some "Dedent does not match any outer indentation level"
  | numberParse token =>
    some s!"Invalid number: `{token}`, is it above the 32-bit integer limit?"
  | unknownType name => some s!"Unknown type `{name}`, expected `int`, `bool` or `None`"
  | lateInitialization _ | lateFunctionDefinition _ =>
    some "Declarations must come before any other statement of their block"
  | stackUnderflow .. =>
    some "`print(...)` does not leave a value and cannot be used as an operand"
  | cause => some cause.message

end Cause

structure Diagnostic where
  cause : Cause
  position : Position
  deriving DecidableEq, Repr

namespace Diagnostic

/-- The one-line report: stage and message. -/
def summary (d : Diagnostic) : String := s!"{d.cause.stage.label}: {d.cause.message}"

def headline (d : Diagnostic) : String :=
  match d.cause.tip with
  | none => s!"Error: {d.cause.name}\n"
  | some tip => s!"Error: {d.cause.name} ({tip})\n"

/-- The report with the source line and a caret under the position. Leading spaces are not shown,
and the caret moves left by as many columns. -/
def render (d : Diagnostic) (source file : String) : String :=
  let line := Text.lineAt source d.position.offset
  let number := toString line.number
  let indent := (line.text.takeWhile (· == ' ')).length
  let shown := String.ofList (Text.trim (line.text.drop indent))
  let margin := Text.padLeft ' ' (number.length + 2) "|"
  let caret := Text.padLeft '-' (line.column - indent + 1) "^"
  d.headline ++ s!"-> {file}\n" ++ s!"{margin}\n" ++ s!"{number} | {shown}\n" ++
    s!"{margin} {caret}\n"

end Diagnostic

end StackScript
