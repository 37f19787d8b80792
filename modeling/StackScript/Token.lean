import StackScript.Diagnostic

/-!
Tokens: the words of a unit, and the layout tokens that stand for line ends and indentation.
-/

namespace StackScript

inductive Token.Kind where
  | eof
  | number
  | string
  | identifier
  | newline
  | indent
  | dedent
  | openParen
  | closeParen
  | assignment
  | equals
  | notEquals
  | less
  | lessEquals
  | greater
  | greaterEquals
  | colon
  | comma
  | arrow
  | plus
  | dash
  | star
  | slashSlash
  | percent
  | kwDef
  | kwIf
  | kwElif
  | kwElse
  | kwWhile
  | kwReturn
  | kwPass
  | kwNot
  | kwIs
  | kwAnd
  | kwOr
  | kwTrue
  | kwFalse
  | kwNone
  deriving DecidableEq, Repr

structure Token where
  kind : Token.Kind
  value : String
  span : Span
  deriving DecidableEq, Repr

namespace Token.Kind

def label : Kind → String
  | eof => "EOF"
  | number => "Number"
  | string => "String"
  | identifier => "Identifier"
  | newline => "Newline"
  | indent => "Indent"
  | dedent => "Dedent"
  | openParen => "OpenParen"
  | closeParen => "CloseParen"
  | assignment => "Assignment"
  | equals => "Equals"
  | notEquals => "NotEquals"
  | less => "Less"
  | lessEquals => "LessEquals"
  | greater => "Greater"
  | greaterEquals => "GreaterEquals"
  | colon => "Colon"
  | comma => "Comma"
  | arrow => "Arrow"
  | plus => "Plus"
  | dash => "Dash"
  | star => "Star"
  | slashSlash => "SlashSlash"
  | percent => "Percent"
  | kwDef => "Def"
  | kwIf => "If"
  | kwElif => "Elif"
  | kwElse => "Else"
  | kwWhile => "While"
  | kwReturn => "Return"
  | kwPass => "Pass"
  | kwNot => "Not"
  | kwIs => "Is"
  | kwAnd => "And"
  | kwOr => "Or"
  | kwTrue => "True"
  | kwFalse => "False"
  | kwNone => "None"

/-- The layout tokens carry no text of the unit. -/
def isLayout : Kind → Bool
  | eof | newline | indent | dedent => true
  | _ => false

/-- The reserved words. -/
def keyword? (word : String) : Option Kind :=
  match word with
  | "def" => some kwDef
  | "if" => some kwIf
  | "elif" => some kwElif
  | "else" => some kwElse
  | "while" => some kwWhile
  | "return" => some kwReturn
  | "pass" => some kwPass
  | "not" => some kwNot
  | "is" => some kwIs
  | "and" => some kwAnd
  | "or" => some kwOr
  | "True" => some kwTrue
  | "False" => some kwFalse
  | "None" => some kwNone
  | _ => none

def all : List Kind :=
  [eof, number, string, identifier, newline, indent, dedent, openParen, closeParen, assignment,
    equals, notEquals, less, lessEquals, greater, greaterEquals, colon, comma, arrow, plus, dash,
    star, slashSlash, percent, kwDef, kwIf, kwElif, kwElse, kwWhile, kwReturn, kwPass, kwNot, kwIs,
    kwAnd, kwOr, kwTrue, kwFalse, kwNone]

def ofLabel? (text : String) : Option Kind := all.find? fun k => k.label == text

end Token.Kind

/-- The token as a listing shows it. -/
def Token.display (t : Token) : String :=
  s!"Token \x7b\nkind: {t.kind.label},\nvalue: {t.value}\x7d"

end StackScript
