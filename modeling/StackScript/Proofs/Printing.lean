import StackScript.Proofs.Spelling
import StackScript.Proofs.RoundTrip

namespace StackScript

def Ty.annotation : Ty → String
  | int => "int"
  | bool => "bool"
  | none | void => "None"

/-- How tightly an operator holds its operands. -/
def UnaryOp.level : UnaryOp → Nat
  | not => 0
  | neg => 4

@[inherit_doc UnaryOp.level]
def BinaryOp.level : BinaryOp → Nat
  | lt | le | gt | ge | eq | ne | is => 1
  | add | sub => 2
  | mul | floorDiv | mod => 3

def UnaryOp.render : UnaryOp → String
  | not => "not "
  | neg => "-"

def Text.grouped (inside : Bool) (text : String) : String :=
  if inside then "(" ++ text ++ ")" else text

namespace Expr

/-- The level of the operator at the top; what has none is held together by itself. -/
def level : Expr → Nat
  | unary _ op _ => op.level
  | binary _ op _ _ => op.level
  | _ => 5

mutual

def render : Expr → String
  | noneLit _ => "None"
  | boolLit _ value => if value then "True" else "False"
  | intLit _ value => Text.decimal value
  | var _ name => name
  | unary _ op operand => op.render ++ Text.grouped (operand.level < op.level) operand.render
  | binary _ op left right =>
    Text.grouped (left.level < op.level) left.render ++ " " ++ op.symbol ++ " " ++
      Text.grouped (right.level ≤ op.level) right.render
  | call _ callee args => callee ++ "(" ++ renderArgs args ++ ")"
  | print _ arg => "print(" ++ arg.render ++ ")"

def renderArgs : List Expr → String
  | [] => ""
  | [last] => last.render
  | e :: es => e.render ++ ", " ++ renderArgs es

end

end Expr

def Param.render (p : Param) : String := p.name ++ ": " ++ p.type.annotation

def Param.renderAll : List Param → String
  | [] => ""
  | [last] => last.render
  | p :: ps => p.render ++ ", " ++ renderAll ps

def renderLine (width depth : Nat) (text : String) : String :=
  String.ofList (List.replicate (width * depth) ' ') ++ text ++ "\n"

namespace Stmt

mutual

def render (width depth : Nat) : Stmt → String
  | assign _ name value => renderLine width depth (name ++ " = " ++ value.render)
  | init _ name type value =>
    renderLine width depth (name ++ ": " ++ type.annotation ++ " = " ++ value.render)
  | define _ name params result body =>
    renderLine width depth
      ("def " ++ name ++ "(" ++ Param.renderAll params ++ ")" ++ " -> " ++ result.annotation ++
        ":") ++
      renderAll width (depth + 1) body
  | ifElse _ cond yes no =>
    renderLine width depth ("if " ++ cond.render ++ ":") ++ renderAll width (depth + 1) yes ++
      renderElse width depth no
  | ifElif _ cond yes cond' yes' no =>
    renderLine width depth ("if " ++ cond.render ++ ":") ++ renderAll width (depth + 1) yes ++
      (renderLine width depth ("elif " ++ cond'.render ++ ":") ++
        renderAll width (depth + 1) yes' ++ renderElse width depth no)
  | whileDo _ cond body =>
    renderLine width depth ("while " ++ cond.render ++ ":") ++ renderAll width (depth + 1) body
  | pass _ => renderLine width depth "pass"
  | ret _ value => renderLine width depth ("return " ++ value.render)
  | expr _ value => renderLine width depth value.render

def renderAll (width depth : Nat) : List Stmt → String
  | [] => ""
  | s :: ss => render width depth s ++ renderAll width depth ss

/-- An `else` without statements is left out. -/
def renderElse (width depth : Nat) : List Stmt → String
  | [] => ""
  | s :: ss =>
    renderLine width depth "else:" ++ (render width (depth + 1) s ++ renderAll width (depth + 1) ss)

end

end Stmt

/-- The program as text, with this many blanks for a level. An operand is in parentheses only if it
would be read apart without them: if its level is below that of its operator, or the same to the
right of a binary operator. -/
def Program.render (width : Nat) (p : Program) : String := Stmt.renderAll width 0 p.body

def isName (name : String) : Bool :=
  Token.isIdentifier name && (Token.Kind.keyword? name).isNone

mutual

def Expr.isPrintable : Expr → Bool
  | .noneLit _ | .boolLit .. => true
  | .intLit _ value => 0 ≤ value.toInt
  | .var _ name => isName name
  | .unary _ _ operand => operand.isPrintable
  | .binary _ _ left right => left.isPrintable && right.isPrintable
  | .call _ callee args => isName callee && callee != "print" && Expr.areArgsPrintable args
  | .print _ arg => arg.isPrintable

def Expr.areArgsPrintable : List Expr → Bool
  | [] => true
  | e :: es => e.isPrintable && areArgsPrintable es

end

def Param.isPrintable (p : Param) : Bool := isName p.name && p.type.isValue

mutual

/-- Only an `else` can be without statements. -/
def Stmt.isPrintable : Stmt → Bool
  | .assign _ name value => isName name && value.isPrintable
  | .init _ name type value => isName name && type.isValue && value.isPrintable
  | .define _ name params result body =>
    isName name && params.all Param.isPrintable && result.isValue && !body.isEmpty &&
      Stmt.areAllPrintable body
  | .ifElse _ cond yes no =>
    cond.isPrintable && !yes.isEmpty && Stmt.areAllPrintable yes && Stmt.areAllPrintable no
  | .ifElif _ cond yes cond' yes' no =>
    cond.isPrintable && !yes.isEmpty && Stmt.areAllPrintable yes && cond'.isPrintable &&
      !yes'.isEmpty && Stmt.areAllPrintable yes' && Stmt.areAllPrintable no
  | .whileDo _ cond body => cond.isPrintable && !body.isEmpty && Stmt.areAllPrintable body
  | .pass _ => true
  | .ret _ value | .expr _ value => value.isPrintable

def Stmt.areAllPrintable : List Stmt → Bool
  | [] => true
  | s :: ss => s.isPrintable && areAllPrintable ss

end

def Program.isPrintable (p : Program) : Bool := Stmt.areAllPrintable p.body

mutual

def Expr.unplaced : Expr → Expr
  | .noneLit _ => .noneLit .nowhere
  | .boolLit _ value => .boolLit .nowhere value
  | .intLit _ value => .intLit .nowhere value
  | .var _ name => .var .nowhere name
  | .unary _ op operand => .unary .nowhere op operand.unplaced
  | .binary _ op left right => .binary .nowhere op left.unplaced right.unplaced
  | .call _ callee args => .call .nowhere callee (Expr.unplacedAll args)
  | .print _ arg => .print .nowhere arg.unplaced

def Expr.unplacedAll : List Expr → List Expr
  | [] => []
  | e :: es => e.unplaced :: unplacedAll es

end

theorem Expr.unplaced_withSpan (e : Expr) (span : Span) :
    (e.withSpan span).unplaced = e.unplaced := by
  cases e <;> rfl

def Param.unplaced (p : Param) : Param := { p with span := .nowhere }

mutual

def Stmt.unplaced : Stmt → Stmt
  | .assign _ name value => .assign .nowhere name value.unplaced
  | .init _ name type value => .init .nowhere name type value.unplaced
  | .define _ name params result body =>
    .define .nowhere name (params.map Param.unplaced) result (Stmt.unplacedAll body)
  | .ifElse _ cond yes no =>
    .ifElse .nowhere cond.unplaced (Stmt.unplacedAll yes) (Stmt.unplacedAll no)
  | .ifElif _ cond yes cond' yes' no =>
    .ifElif .nowhere cond.unplaced (Stmt.unplacedAll yes) cond'.unplaced (Stmt.unplacedAll yes')
      (Stmt.unplacedAll no)
  | .whileDo _ cond body => .whileDo .nowhere cond.unplaced (Stmt.unplacedAll body)
  | .pass _ => .pass .nowhere
  | .ret _ value => .ret .nowhere value.unplaced
  | .expr _ value => .expr .nowhere value.unplaced

def Stmt.unplacedAll : List Stmt → List Stmt
  | [] => []
  | s :: ss => s.unplaced :: unplacedAll ss

end

def Program.unplaced (p : Program) : Program := ⟨Stmt.unplacedAll p.body⟩

end StackScript
