import StackScript.Token

/-!
Concrete syntax trees.

A node has a kind, a span and children; its text is what the source holds at its span. Leaves stand
for tokens, so punctuation and keywords are nodes too.
-/

namespace StackScript

inductive Node.Kind where
  | script
  | expressionStatement
  | assignStatement
  | ifStatement
  | whileStatement
  | functionDefinition
  | returnStatement
  | passStatement
  | body
  | paramList
  | typeDef
  | assignOp
  | variableName
  | number
  | boolean
  | none
  | string
  | unaryExpression
  | binaryExpression
  | callExpression
  | argList
  | parenthesizedExpression
  | arithOp
  | compareOp
  | logicOp
  | unaryOp
  | openParen
  | closeParen
  | comma
  | colon
  | arrow
  | kwIf
  | kwElif
  | kwElse
  | kwWhile
  | kwDef
  | kwReturn
  | kwPass
  deriving DecidableEq, Repr

namespace Node.Kind

def label : Kind → String
  | script => "Script"
  | expressionStatement => "ExpressionStatement"
  | assignStatement => "AssignStatement"
  | ifStatement => "IfStatement"
  | whileStatement => "WhileStatement"
  | functionDefinition => "FunctionDefinition"
  | returnStatement => "ReturnStatement"
  | passStatement => "PassStatement"
  | body => "Body"
  | paramList => "ParamList"
  | typeDef => "TypeDef"
  | assignOp => "AssignOp"
  | variableName => "VariableName"
  | number => "Number"
  | boolean => "Boolean"
  | none => "None"
  | string => "String"
  | unaryExpression => "UnaryExpression"
  | binaryExpression => "BinaryExpression"
  | callExpression => "CallExpression"
  | argList => "ArgList"
  | parenthesizedExpression => "ParenthesizedExpression"
  | arithOp => "ArithOp"
  | compareOp => "CompareOp"
  | logicOp => "LogicOp"
  | unaryOp => "UnaryOp"
  | openParen => "("
  | closeParen => ")"
  | comma => ","
  | colon => ":"
  | arrow => "->"
  | kwIf => "if"
  | kwElif => "elif"
  | kwElse => "else"
  | kwWhile => "while"
  | kwDef => "def"
  | kwReturn => "return"
  | kwPass => "pass"

def all : List Kind :=
  [script, expressionStatement, assignStatement, ifStatement, whileStatement, functionDefinition,
    returnStatement, passStatement, body, paramList, typeDef, assignOp, variableName, number,
    boolean, none, string, unaryExpression, binaryExpression, callExpression, argList,
    parenthesizedExpression, arithOp, compareOp, logicOp, unaryOp, openParen, closeParen, comma,
    colon, arrow, kwIf, kwElif, kwElse, kwWhile, kwDef, kwReturn, kwPass]

def ofLabel? (text : String) : Option Kind := all.find? fun k => k.label == text

end Node.Kind

inductive Node where
  | mk (kind : Node.Kind) (span : Span) (children : List Node)

namespace Node

def kind : Node → Kind
  | mk kind _ _ => kind

def span : Node → Span
  | mk _ span _ => span

def children : Node → List Node
  | mk _ _ children => children

def leaf (kind : Kind) (token : Token) : Node := mk kind token.span []

/-- A node over its children, from the start of the first to the end of the last. -/
def branch (kind : Kind) (children : List Node) : Node :=
  let span :=
    match children.head?, children.getLast? with
    | some first, some last => first.span.upTo last.span
    | _, _ => .nowhere
  mk kind span children

def text (n : Node) (source : String) : String := n.span.text source

mutual

/-- One line for the node and one for each node below it, deeper ones further in. A leaf shows its
text. -/
def outlineAt (source : String) (depth : Nat) : Node → String
  | mk kind span children =>
    let indent := String.ofList (List.replicate (2 * depth) ' ')
    let shown :=
      match children with
      | [] => " " ++ Text.quoted (span.text source)
      | _ => ""
    indent ++ kind.label ++ shown ++ "\n" ++ outlineAll source (depth + 1) children

def outlineAll (source : String) (depth : Nat) : List Node → String
  | [] => ""
  | n :: ns => outlineAt source depth n ++ outlineAll source depth ns

end

def outline (n : Node) (source : String) : String := outlineAt source 0 n

end Node

end StackScript
