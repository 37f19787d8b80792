import StackScript.Code.Depth
import StackScript.Layout
import StackScript.Typing

/-!
The code of a unit.

Every expression leaves its value on the stack, except a print, which leaves none; every statement
leaves the stack as it was. The depth is counted along, so an operand that leaves no value is found
out here. Top-level variables live in memory, parameters and variables of a function in its locals.

* `not e` is `(e + 1) % 2`, and `-e` is `e * -1`.
* A condition is a block in which the taken arm is jumped to and the last arm falls through.
* A loop tests its condition once before and then at the end of each round.
-/

namespace StackScript

/-- What code generation knows about names. -/
structure Context where
  layout : Layout
  scopes : Scopes
  /-- Parameters and variables of the function around, if there is one. -/
  locals : Option (List String)

def Context.isLocal (c : Context) (name : String) : Bool :=
  match c.locals with
  | some names => names.contains name
  | none => false

/-- Code written from a stack depth on, and the depth behind it. -/
def Gen (α : Type) : Type := Nat → Except Diagnostic (α × Nat)

namespace Gen

protected def pure {α : Type} (a : α) : Gen α := fun depth => .ok (a, depth)

protected def bind {α β : Type} (g : Gen α) (f : α → Gen β) : Gen β := fun depth =>
  match g depth with
  | .ok (a, depth) => f a depth
  | .error d => .error d

instance : Monad Gen where
  pure := Gen.pure
  bind := Gen.bind

def fail {α : Type} (d : Diagnostic) : Gen α := fun _ => .error d

def lift {α : Type} (r : Except Diagnostic α) : Gen α := fun depth =>
  match r with
  | .ok a => .ok (a, depth)
  | .error d => .error d

def depth : Gen Nat := fun depth => .ok (depth, depth)

/-- One instruction, written for what stands at a position. -/
def emit (at_ : Position) (i : Instr) : Gen (List Instr) := fun depth =>
  match i.depthAfter depth with
  | .ok depth => .ok ([i], depth)
  | .error cause => .error ⟨cause, at_⟩

end Gen

open Gen

def NumOp.ofBinary : BinaryOp → NumOp
  | .add => .add
  | .sub => .sub
  | .mul => .mul
  | .floorDiv => .div
  | .mod => .rem
  | .lt => .lt
  | .le => .le
  | .gt => .gt
  | .ge => .ge
  | .eq | .is => .eq
  | .ne => .ne

/-- The host function that prints a value of a type. -/
def Ty.printer : Ty → String
  | .int => "print_int"
  | .bool => "print_bool"
  | .none | .void => "print"

/-- The address of a top-level variable. -/
def addressCode (c : Context) (name : String) (at_ : Position) : Gen (List Instr) :=
  match c.layout.address? name with
  | some offset => emit at_ (.address offset name)
  | none => fail ⟨.unknownName name, at_⟩

/-- What is done to the operand of a unary operator. -/
def unaryCode (at_ : Position) : UnaryOp → Gen (List Instr)
  | .not => do
    let one ← emit at_ (.const 1)
    let add ← emit at_ (.num .add)
    let two ← emit at_ (.const 2)
    let rem ← emit at_ (.num .rem)
    return one ++ add ++ two ++ rem
  | .neg => do
    let one ← emit at_ (.const (-1))
    let mul ← emit at_ (.num .mul)
    return one ++ mul

namespace Expr

mutual

def code (c : Context) : Expr → Gen (List Instr)
  | .noneLit span => emit span.first (.const 0)
  | .boolLit span value => emit span.first (.const (if value then 1 else 0))
  | .intLit span value => emit span.first (.const value)
  | .var span name =>
    if c.isLocal name then emit span.first (.localGet name)
    else do
      let address ← addressCode c name span.first
      let load ← emit span.first .load
      return address ++ load
  | .unary span op operand => do
    let operand ← operand.code c
    let op ← unaryCode span.first op
    return operand ++ op
  | .binary span op left right => do
    let left ← left.code c
    let right ← right.code c
    let op ← emit span.first (.num (.ofBinary op))
    return left ++ right ++ op
  | .call span callee args => do
    let operands ← codeAll c args
    let call ← emit span.first (.call callee args.length 1)
    return operands ++ call
  | .print span arg => do
    let operand ← arg.code c
    let type ← lift (arg.typeIn c.scopes)
    let call ← emit span.first (.call type.printer 1 0)
    return operand ++ call

def codeAll (c : Context) : List Expr → Gen (List Instr)
  | [] => return []
  | e :: es => do
    let first ← e.code c
    let rest ← codeAll c es
    return first ++ rest

end

end Expr

/-- Stores a value in a variable. -/
def storeCode (c : Context) (name : String) (value : Expr) (at_ : Position) : Gen (List Instr) :=
  if c.isLocal name then do
    let value ← value.code c
    let set ← emit at_ (.localSet name)
    return value ++ set
  else do
    let address ← addressCode c name at_
    let value ← value.code c
    let store ← emit at_ .store
    return address ++ value ++ store

namespace Stmt

/-- An expression statement drops its value if it leaves one. -/
def valueCode (c : Context) (value : Expr) (at_ : Position) : Gen (List Instr) := do
  let before ← depth
  let value ← value.code c
  if before < (← depth) then
    let drop ← emit at_ .drop
    return value ++ drop
  else
    return value

mutual

def code (c : Context) : Stmt → Gen (List Instr)
  | .pass span => emit span.first .nop
  | .init span name _ value => storeCode c name value span.first
  | .assign span name value => storeCode c name value span.first
  | .expr span value => valueCode c value span.first
  | .ret span value => do
    let value ← value.code c
    let ret ← emit span.first .ret
    return value ++ ret
  | .ifElse span cond yes no => do
    let cond ← cond.code c
    let test ← emit span.first (.brIf 0)
    let no ← codeAll c no
    let leave ← emit span.first (.br 1)
    let yes ← codeAll c yes
    emit span.first (.block (.block (cond ++ test ++ no ++ leave) :: yes))
  | .ifElif span cond yes cond' yes' no => do
    let cond ← cond.code c
    let test ← emit span.first (.brIf 0)
    let cond' ← cond'.code c
    let test' ← emit span.first (.brIf 1)
    let no ← codeAll c no
    let leave ← emit span.first (.br 2)
    let yes ← codeAll c yes
    let leave' ← emit span.first (.br 1)
    let yes' ← codeAll c yes'
    let inner := Instr.block (cond ++ test ++ cond' ++ test' ++ no ++ leave)
    emit span.first (.block (.block (inner :: yes ++ leave') :: yes'))
  | .whileDo span cond body => do
    let guard ← (Expr.unary cond.span .not cond).code c
    let skip ← emit span.first (.brIf 0)
    let body ← codeAll c body
    let again ← cond.code c
    let test ← emit span.first (.brIf 0)
    let leave ← emit span.first (.br 1)
    let loop ← emit span.first (.loop (body ++ again ++ test ++ leave))
    emit span.first (.block (guard ++ skip ++ loop))
  | .define .. => return []

def codeAll (c : Context) : List Stmt → Gen (List Instr)
  | [] => return []
  | s :: ss => do
    let first ← s.code c
    let rest ← codeAll c ss
    return first ++ rest

end

end Stmt

/-- The code of one function. -/
structure FunctionCode where
  name : String
  params : List String
  locals : List String
  body : List Instr

namespace FunctionCode

/-- Every function gives a word. -/
def render (f : FunctionCode) : String :=
  let params := String.join (f.params.map fun p => s!" (param ${p} i32)")
  let locals := String.join (f.locals.map fun l => s!"  (local ${l} i32)\n")
  s!"(func ${f.name}{params} (result i32)\n" ++ locals ++ Instr.renderAll 1 f.body ++ ")"

/-- The variables a function declares, in order. -/
def localsOf : List Stmt → List (String × Ty)
  | [] => []
  | .init _ name type _ :: stmts => (name, type) :: localsOf stmts
  | _ :: stmts => localsOf stmts

/-- The layer of a function's own names. -/
def layerOf (params : List Param) (locals : List (String × Ty)) : Layer :=
  ⟨.ofList (params.map (fun p => (p.name, p.type)) ++ locals), .empty⟩

/-- A body leaves nothing; the word behind it is for a body that ends without a return. -/
def bodyCode (c : Context) (name : String) (body : List Stmt) (at_ : Position) :
    Gen (List Instr) := do
  let code ← Stmt.codeAll c body
  let zero ← emit at_ (.const 0)
  let depth ← depth
  if depth = 1 then return code ++ zero
  else fail ⟨.unbalancedStack s!"function `{name}`" depth 1, at_⟩

def ofDefinition (c : Context) (name : String) (params : List Param) (body : List Stmt)
    (at_ : Position) : Except Diagnostic FunctionCode :=
  let locals := localsOf body
  let inner : Context :=
    { c with
      scopes := c.scopes.push (layerOf params locals)
      locals := some (params.map (·.name) ++ locals.map (·.1)) }
  match bodyCode inner name body at_ 0 with
  | .ok (code, _) => .ok ⟨name, params.map (·.name), locals.map (·.1), code⟩
  | .error d => .error d

/-- The functions of a unit, in order. -/
def ofStmts (c : Context) : List Stmt → Except Diagnostic (List FunctionCode)
  | [] => .ok []
  | .define span name params _ body :: stmts => do
    let first ← ofDefinition c name params body span.first
    return first :: (← ofStmts c stmts)
  | _ :: stmts => ofStmts c stmts

end FunctionCode

/-- The code of a unit: its functions, and the entry that runs its top-level statements. -/
structure UnitCode where
  functions : List FunctionCode
  main : List Instr
  returnsValue : Bool
  layout : Layout

namespace UnitCode

/-- The words the entry leaves. -/
def results (u : UnitCode) : Nat := if u.returnsValue then 1 else 0

def definitions (u : UnitCode) : List String := u.functions.map FunctionCode.render

def mainText (u : UnitCode) : String := Instr.renderAll 2 u.main

/-- Top-level statements; the value of a last expression stays. -/
def topCode (c : Context) : List Stmt → Gen (List Instr)
  | [] => return []
  | [.expr _ value] => value.code c
  | s :: ss => do
    let first ← s.code c
    let rest ← topCode c ss
    return first ++ rest

/-- The entry. A last expression that leaves no value leaves a zero. -/
def mainCode (c : Context) (p : Program) : Gen (List Instr) := do
  let end_ := (p.body.getLast?.map fun s => s.span.last).getD .nowhere
  let code ← topCode c p.body
  let filler ← if p.endsInExpr && (← depth) == 0 then emit end_ (.const 0) else pure []
  let depth ← depth
  let expected := if p.endsInExpr then 1 else 0
  if depth = expected then return code ++ filler
  else fail ⟨.unbalancedStack "entry function" depth expected, end_⟩

/-- The code of a unit whose top-level names mean what `declared` says. -/
def ofProgram (declared : Layer) (layout : Layout) (p : Program) : Except Diagnostic UnitCode := do
  let layout := layout.extend p.body
  let c : Context := ⟨layout, ⟨Layer.empty.overlay declared, []⟩, none⟩
  let functions ← FunctionCode.ofStmts c p.body
  let (main, _) ← mainCode c p 0
  return ⟨functions, main, p.endsInExpr, layout⟩

end UnitCode

end StackScript
