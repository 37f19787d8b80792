import StackScript.Scope

/-!
Typing of units.

A block starts with declarations, which are taken up one by one; the statements after them are
checked with all of them. Function bodies are checked last, each in a layer of its own that starts
with the parameters.
-/

namespace StackScript

namespace Expr

def wrongType (expected received : Ty) (at_ : Position) : Diagnostic :=
  ⟨.typeMatch expected.label received.label, at_⟩

/-- The type of the operand and of the result. -/
def unaryType : UnaryOp → Ty
  | .neg => .int
  | .not => .bool

/-- The result of an operator on operands of these types, if it takes them. -/
def binaryType? (op : BinaryOp) (left right : Ty) : Option Ty :=
  let both (t : Ty) : Bool := left == t && right == t
  match op with
  | .add | .sub | .mul | .floorDiv | .mod => if both .int then some .int else none
  | .lt | .le | .gt | .ge => if both .int then some .bool else none
  | .eq | .ne => some .bool
  | .is => if both .none then some .bool else none

mutual

def typeIn (s : Scopes) : Expr → Except Diagnostic Ty
  | .noneLit _ => .ok .none
  | .boolLit _ _ => .ok .bool
  | .intLit _ _ => .ok .int
  | .var span name =>
    match s.typeOf? name with
    | some type => .ok type
    | none => .error ⟨.notAVariable name, span.first⟩
  | .unary span op operand => do
    let type ← operand.typeIn s
    if type = unaryType op then return unaryType op
    else .error ⟨.unaryOperatorType op.symbol type.label, span.first⟩
  | .binary span op left right => do
    let l ← left.typeIn s
    let r ← right.typeIn s
    match binaryType? op l r with
    | some type => return type
    | none => .error ⟨.binaryOperatorType op.symbol l.label r.label, span.first⟩
  | .call span callee args =>
    match s.signatureOf? callee with
    | none => .error ⟨.notAFunction callee, span.first⟩
    | some sig =>
      if args.length ≠ sig.params.length then
        .error ⟨.unexpectedArguments sig.params.length args.length, span.first⟩
      else do
        checkArgs s 0 sig.params args
        return sig.result
  | .print _ arg => arg.typeIn s

/-- Checks arguments against parameter types, counting from `index`. -/
def checkArgs (s : Scopes) (index : Nat) : List Ty → List Expr → Except Diagnostic Unit
  | expected :: params, arg :: args => do
    let received ← arg.typeIn s
    if received = expected then checkArgs s (index + 1) params args
    else .error ⟨.argumentTypeMatch expected.label received.label index, arg.start⟩
  | _, _ => .ok ()

end

def checkCondition (s : Scopes) (cond : Expr) : Except Diagnostic Unit := do
  let type ← cond.typeIn s
  if type = .bool then return ()
  else .error ⟨.conditionType type.label, cond.start⟩

end Expr

namespace Stmt

mutual

/-- Checks a statement behind the declarations of its block, and gives the type of its value.
`result` is the result type of the function around it, if there is one. -/
def typeIn (s : Scopes) (result : Option Ty) : Stmt → Except Diagnostic Ty
  | .init span name _ _ => .error ⟨.lateInitialization name, span.first⟩
  | .define span name _ _ _ =>
    match result with
    | some _ => .error ⟨.nestedFunctionDefinition name, span.first⟩
    | none => .error ⟨.lateFunctionDefinition name, span.first⟩
  | .ret span value =>
    match result with
    | none => .error ⟨.returnOutsideFunction, span.first⟩
    | some expected => do
      let type ← value.typeIn s
      if type = expected then return type
      else .error ⟨.returnTypeMatch expected.label type.label, span.first⟩
  | .assign span name value =>
    match s.typeOf? name with
    | none => .error ⟨.notAVariable name, span.first⟩
    | some expected =>
      if result.isSome && !s.isLocal name then .error ⟨.nonLocalAssignment name, span.first⟩
      else do
        let type ← value.typeIn s
        if type = expected then return .void
        else .error (Expr.wrongType expected type value.start)
  | .ifElse _ cond yes no => do
    cond.checkCondition s
    checkAll s result yes
    checkAll s result no
    return .void
  | .ifElif _ cond yes cond' yes' no => do
    cond.checkCondition s
    checkAll s result yes
    cond'.checkCondition s
    checkAll s result yes'
    checkAll s result no
    return .void
  | .whileDo _ cond body => do
    cond.checkCondition s
    checkAll s result body
    return .void
  | .pass _ => .ok .void
  | .expr _ value => value.typeIn s

def checkAll (s : Scopes) (result : Option Ty) : List Stmt → Except Diagnostic Unit
  | [] => .ok ()
  | stmt :: stmts => do
    let _ ← stmt.typeIn s result
    checkAll s result stmts

end

/-- The type of the last statement that has a value, `type` if none has. -/
def lastType (s : Scopes) (type : Ty) : List Stmt → Except Diagnostic Ty
  | [] => .ok type
  | stmt :: stmts => do
    let t ← stmt.typeIn s none
    lastType s (if t.isValue then t else type) stmts

/-- Declares a variable of a block; only at the top level do the layers around it matter. -/
def declareVariable (s : Scopes) (inFunction : Bool) (name : String) (type : Ty) (at_ : Position) :
    Except Diagnostic Scopes :=
  settled (s.put (!inFunction) name (.variable type) at_)

def signatureOf (params : List Param) (result : Ty) : Signature := ⟨params.map (·.type), result⟩

/-- Takes up the declarations at the head of a block. Gives the scopes with them, and the statements
after them. -/
def declareAll (s : Scopes) (inFunction : Bool) :
    List Stmt → Except Diagnostic (Scopes × List Stmt)
  | .init span name type value :: stmts => do
    let received ← value.typeIn s
    if received = type then
      let s ← declareVariable s inFunction name type span.first
      declareAll s inFunction stmts
    else .error (Expr.wrongType type received value.start)
  | .define span name params result _ :: stmts =>
    if inFunction then .error ⟨.nestedFunctionDefinition name, span.first⟩
    else if isReserved name then .error ⟨.reservedName name, span.first⟩
    else do
      let s ← s.declareFunction name (signatureOf params result) span.first
      declareAll s inFunction stmts
  | stmts => .ok (s, stmts)

/-- The layer a function body starts with. -/
def paramLayer (l : Layer) : List Param → Except Diagnostic Layer
  | [] => .ok l
  | p :: ps => do
    let l ← l.declareVariable p.name p.type p.span.first
    paramLayer l ps

def checkFunction (s : Scopes) (params : List Param) (result : Ty) (body : List Stmt) :
    Except Diagnostic Unit := do
  let layer ← paramLayer .empty params
  let (s, stmts) ← declareAll (s.push layer) true body
  checkAll s (some result) stmts

/-- Checks the bodies of the functions among the declarations at the head of a block. -/
def checkFunctions (s : Scopes) : List Stmt → Except Diagnostic Unit
  | .define _ _ params result body :: stmts => do
    checkFunction s params result body
    checkFunctions s stmts
  | .init .. :: stmts => checkFunctions s stmts
  | _ => .ok ()

end Stmt

/-- What checking finds out about a unit. -/
structure Typing where
  /-- The type of the last top-level statement with a value. -/
  result : Ty
  /-- The top-level declarations, earlier units included. -/
  declared : Layer

namespace Program

def typeFrom (s : Scopes) (p : Program) : Except Diagnostic Typing := do
  let (s, stmts) ← Stmt.declareAll s false p.body
  let result ← Stmt.lastType s .none stmts
  Stmt.checkFunctions s p.body
  return ⟨result, s.flatten⟩

/-- Types a unit on its own. -/
def typeAlone (p : Program) : Except Diagnostic Typing := p.typeFrom .empty

/-- Types a unit on top of the declarations of earlier ones. -/
def typeOn (seed : Layer) (p : Program) : Except Diagnostic Typing := p.typeFrom (.seeded seed)

/-- The type its value is read as: only a unit that ends in an expression has one. -/
def valueType (p : Program) (t : Typing) : Ty := if p.endsInExpr then t.result else .none

end Program

end StackScript
