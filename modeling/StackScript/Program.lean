import StackScript.Diagnostic

/-!
Programs: types, operators, expressions and statements, each with the span it was read from.
-/

namespace StackScript

/-- Types of values, and `void` for what gives no value. -/
inductive Ty where
  | int
  | bool
  | none
  | void
  deriving DecidableEq, Repr

namespace Ty

def label : Ty → String
  | int => "int"
  | bool => "bool"
  | none => "<None>"
  | void => "notype"

/-- The type a written annotation names. -/
def ofAnnotation? (text : String) : Option Ty :=
  match text with
  | "int" => some int
  | "bool" => some bool
  | "None" => some none
  | _ => Option.none

def isValue (t : Ty) : Bool := t != void

end Ty

inductive UnaryOp where
  | neg
  | not
  deriving DecidableEq, Repr

namespace UnaryOp

def symbol : UnaryOp → String
  | neg => "-"
  | not => "not"

def ofSymbol? (text : String) : Option UnaryOp :=
  match text with
  | "-" => some neg
  | "not" => some not
  | _ => none

end UnaryOp

inductive BinaryOp where
  | add
  | sub
  | mul
  | floorDiv
  | mod
  | lt
  | le
  | gt
  | ge
  | eq
  | ne
  | is
  deriving DecidableEq, Repr

namespace BinaryOp

def symbol : BinaryOp → String
  | add => "+"
  | sub => "-"
  | mul => "*"
  | floorDiv => "//"
  | mod => "%"
  | lt => "<"
  | le => "<="
  | gt => ">"
  | ge => ">="
  | eq => "=="
  | ne => "!="
  | is => "is"

def ofSymbol? (text : String) : Option BinaryOp :=
  match text with
  | "+" => some add
  | "-" => some sub
  | "*" => some mul
  | "//" => some floorDiv
  | "%" => some mod
  | "<" => some lt
  | "<=" => some le
  | ">" => some gt
  | ">=" => some ge
  | "==" => some eq
  | "!=" => some ne
  | "is" => some is
  | _ => none

end BinaryOp

inductive Expr where
  | noneLit (span : Span)
  | boolLit (span : Span) (value : Bool)
  | intLit (span : Span) (value : Int32)
  | var (span : Span) (name : String)
  | unary (span : Span) (op : UnaryOp) (operand : Expr)
  | binary (span : Span) (op : BinaryOp) (left right : Expr)
  | call (span : Span) (callee : String) (args : List Expr)
  | print (span : Span) (arg : Expr)

namespace Expr

def span : Expr → Span
  | noneLit s | boolLit s _ | intLit s _ | var s _ | unary s _ _ | binary s _ _ _ | call s _ _
  | print s _ => s

/-- The same expression with another span. -/
def withSpan (s : Span) : Expr → Expr
  | noneLit _ => noneLit s
  | boolLit _ value => boolLit s value
  | intLit _ value => intLit s value
  | var _ name => var s name
  | unary _ op operand => unary s op operand
  | binary _ op left right => binary s op left right
  | call _ callee args => call s callee args
  | print _ arg => print s arg

/-- Where the expression starts. -/
def start (e : Expr) : Position := e.span.first

end Expr

structure Param where
  name : String
  type : Ty
  span : Span
  deriving DecidableEq, Repr

inductive Stmt where
  | assign (span : Span) (name : String) (value : Expr)
  /-- Declares a variable. -/
  | init (span : Span) (name : String) (type : Ty) (value : Expr)
  /-- Declares a function. -/
  | define (span : Span) (name : String) (params : List Param) (result : Ty) (body : List Stmt)
  /-- A missing `else` is an empty body. -/
  | ifElse (span : Span) (cond : Expr) (yes no : List Stmt)
  | ifElif (span : Span) (cond : Expr) (yes : List Stmt) (cond' : Expr) (yes' no : List Stmt)
  | whileDo (span : Span) (cond : Expr) (body : List Stmt)
  | pass (span : Span)
  | ret (span : Span) (value : Expr)
  | expr (span : Span) (value : Expr)

namespace Stmt

def span : Stmt → Span
  | assign s _ _ | init s _ _ _ | define s _ _ _ _ | ifElse s _ _ _ | ifElif s _ _ _ _ _
  | whileDo s _ _ | pass s | ret s _ | expr s _ => s

def start (s : Stmt) : Position := s.span.first

/-- Declarations come before all else in their block. -/
def isDeclaration : Stmt → Bool
  | init .. | define .. => true
  | _ => false

end Stmt

/-- A unit: its top-level statements in order. -/
structure Program where
  body : List Stmt

/-- Whether the last statement is an expression, whose value is then the unit's. -/
def Program.endsInExpr (p : Program) : Bool :=
  match p.body.getLast? with
  | some (.expr ..) => true
  | _ => false

/-- The number of arguments of a function that every program can call. -/
def builtinArity? (name : String) : Option Nat :=
  if name = "print" then some 1 else none

/-- The names that every module takes from its host. -/
def hostNames : List String := ["print", "print_global", "print_int", "print_bool"]

/-- A program may not define a function of such a name. -/
def isReserved (name : String) : Bool := (builtinArity? name).isSome || hostNames.contains name

end StackScript
