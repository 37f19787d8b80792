import StackScript.Tree.Stream

/-!
The syntax tree of a token list.

Expressions are read by binding power: an operand first, then operators for as long as they bind
tighter than what stands to the left. Statements are read by their first word. Each reading takes a
number of steps it may nest; `ofTokens` gives it enough for any list that ends in a token after
which no operand is awaited.
-/

namespace StackScript.Tree

/-- How tightly a token holds the expression before it. -/
inductive Power where
  | none
  | logical
  | negation
  | relational
  | additive
  | multiplicative
  | unary
  | call
  | primary
  deriving DecidableEq, Repr

namespace Power

def level : Power → Nat
  | none => 0
  | logical => 1
  | negation => 2
  | relational => 3
  | additive => 4
  | multiplicative => 5
  | unary => 6
  | call => 7
  | primary => 8

instance : LT Power := ⟨fun a b => a.level < b.level⟩

instance (a b : Power) : Decidable (a < b) := inferInstanceAs (Decidable (a.level < b.level))

/-- The power of a token behind an expression. A token that only starts an expression has the
greatest: it cannot stand there, and reading on finds that out. -/
def ofKind : Token.Kind → Power
  | .kwAnd | .kwOr => logical
  | .less | .lessEquals | .greater | .greaterEquals | .equals | .notEquals | .kwIs => relational
  | .plus | .dash => additive
  | .star | .slashSlash | .percent => multiplicative
  | .openParen => call
  | .number | .identifier | .string | .kwTrue | .kwFalse | .kwNone | .kwNot => primary
  | _ => none

end Power

/-- The leaf a one-token operand becomes. -/
def operandKind? : Token.Kind → Option Node.Kind
  | .number => some .number
  | .identifier => some .variableName
  | .string => some .string
  | .kwTrue | .kwFalse => some .boolean
  | .kwNone => some .none
  | _ => none

/-- The leaf a binary operator becomes. -/
def operatorKind? : Token.Kind → Option Node.Kind
  | .kwAnd | .kwOr => some .logicOp
  | .less | .lessEquals | .greater | .greaterEquals | .equals | .notEquals | .kwIs =>
    some .compareOp
  | .plus | .dash | .star | .slashSlash | .percent => some .arithOp
  | _ => none

open Reader

mutual

/-- An expression whose operators all bind tighter than `power`. -/
def expr (steps : Nat) (power : Power) : Reader Node :=
  match steps with
  | 0 => endless
  | steps + 1 => do
    let left ← operand steps
    climb steps power left

/-- An expression without a binary operator at its top: a leaf, a prefix operator with its operand,
or an expression in parentheses. -/
def operand (steps : Nat) : Reader Node :=
  match steps with
  | 0 => endless
  | steps + 1 => do
    let kind ← kind
    match kind with
    | .kwNot => prefixed steps .negation
    | .dash => prefixed steps .unary
    | .openParen => do
      let opening ← takeLeaf .openParen
      let inner ← expr steps .none
      let closing ← expectLeaf .closeParen .closeParen
      return .branch .parenthesizedExpression [opening, inner, closing]
    | kind =>
      match operandKind? kind with
      | some node => takeLeaf node
      | none => fail Stream.unexpected

def prefixed (steps : Nat) (power : Power) : Reader Node :=
  match steps with
  | 0 => endless
  | steps + 1 => do
    let operator ← takeLeaf .unaryOp
    let inner ← expr steps power
    return .branch .unaryExpression [operator, inner]

/-- Extends `left` by the operators that bind tighter than `power`. -/
def climb (steps : Nat) (power : Power) (left : Node) : Reader Node :=
  match steps with
  | 0 => endless
  | steps + 1 => do
    let kind ← kind
    if power < .ofKind kind then
      match kind, operatorKind? kind with
      | .openParen, _ => do
        let opening ← takeLeaf .openParen
        let items ← arguments steps
        climb steps power (.branch .callExpression [left, .branch .argList (opening :: items)])
      | _, some node => do
        let operator ← takeLeaf node
        let right ← expr steps (.ofKind kind)
        climb steps power (.branch .binaryExpression [left, operator, right])
      | _, none => fail Stream.unexpected
    else return left

/-- Arguments and the commas between them up to the closing parenthesis, and that. -/
def arguments (steps : Nat) : Reader (List Node) :=
  match steps with
  | 0 => endless
  | steps + 1 => do
    if (← kind) = .closeParen then
      return [← takeLeaf .closeParen]
    else
      let argument ← expr steps .none
      if (← kind) = .comma then
        let comma ← takeLeaf .comma
        let items ← arguments steps
        return argument :: comma :: items
      else
        return [argument, ← expectLeaf .closeParen .closeParen]

end

/-- A type is a bare name or the word for no value. -/
def typeName : Reader Node := do
  match ← kind with
  | .identifier => takeLeaf .variableName
  | .kwNone => takeLeaf .none
  | _ => fail (·.unexpectedWith "expected a type name")

/-- A type behind the mark that announces it. -/
def typeAfter (mark : Token.Kind) (node : Node.Kind) : Reader Node := do
  let mark ← expectLeaf mark node
  let type ← typeName
  return .branch .typeDef [mark, type]

/-- A type if its mark stands here: one node or none. -/
def typeIf (mark : Token.Kind) (node : Node.Kind) : Reader (List Node) := do
  if (← kind) = mark then
    return [← typeAfter mark node]
  else
    return []

/-- Parameters and the commas between them up to the closing parenthesis, and that. -/
def parameters (steps : Nat) : Reader (List Node) :=
  match steps with
  | 0 => endless
  | steps + 1 => do
    if (← kind) = .closeParen then
      return [← takeLeaf .closeParen]
    else
      let name ← expectLeaf .identifier .variableName
      let typed ← typeAfter .colon .colon
      if (← kind) = .comma then
        let comma ← takeLeaf .comma
        let items ← parameters steps
        return name :: typed :: comma :: items
      else
        return [name, typed, ← expectLeaf .closeParen .closeParen]

/-- `name = value`, with a type after the name if one is declared. -/
def assignment (steps : Nat) : Reader Node := do
  let name ← expectLeaf .identifier .variableName
  let typed ← typeIf .colon .colon
  let operator ← expectLeaf .assignment .assignOp
  let value ← expr steps .none
  let _ ← expect .newline
  return .branch .assignStatement (name :: typed ++ [operator, value])

def returning (steps : Nat) : Reader Node := do
  let keyword ← takeLeaf .kwReturn
  if (← kind) = .newline then
    let _ ← take
    return .branch .returnStatement [keyword]
  else
    let value ← expr steps .none
    let _ ← expect .newline
    return .branch .returnStatement [keyword, value]

def passing : Reader Node := do
  let keyword ← takeLeaf .kwPass
  let _ ← expect .newline
  return .branch .passStatement [keyword]

def expression (steps : Nat) : Reader Node := do
  let value ← expr steps .none
  let _ ← expect .newline
  return .branch .expressionStatement [value]

mutual

def stmt (steps : Nat) : Reader Node :=
  match steps with
  | 0 => endless
  | steps + 1 => do
    match ← kind with
    | .kwDef => definition steps
    | .kwIf => do
      let keyword ← takeLeaf .kwIf
      let condition ← expr steps .none
      let then_ ← body steps
      let arms ← laterArms steps
      return .branch .ifStatement (keyword :: condition :: then_ :: arms)
    | .kwWhile => do
      let keyword ← takeLeaf .kwWhile
      let condition ← expr steps .none
      let body ← body steps
      return .branch .whileStatement [keyword, condition, body]
    | .kwReturn => returning steps
    | .kwPass => passing
    | .identifier => do
      match ← nextKind with
      | .colon | .assignment => assignment steps
      | _ => expression steps
    | _ => expression steps

/-- The arms of a condition after the first: any number of `elif`, then an `else` if there is one. -/
def laterArms (steps : Nat) : Reader (List Node) :=
  match steps with
  | 0 => endless
  | steps + 1 => do
    match ← kind with
    | .kwElif => do
      let keyword ← takeLeaf .kwElif
      let condition ← expr steps .none
      let body ← body steps
      let arms ← laterArms steps
      return keyword :: condition :: body :: arms
    | .kwElse => do
      let keyword ← takeLeaf .kwElse
      let body ← body steps
      return [keyword, body]
    | _ => return []

def definition (steps : Nat) : Reader Node :=
  match steps with
  | 0 => endless
  | steps + 1 => do
    let keyword ← takeLeaf .kwDef
    let name ← expectLeaf .identifier .variableName
    let opening ← expectLeaf .openParen .openParen
    let items ← parameters steps
    let result ← typeIf .arrow .arrow
    let body ← body steps
    return .branch .functionDefinition
      (keyword :: name :: .branch .paramList (opening :: items) :: result ++ [body])

/-- A colon, then an indented block or one simple statement on the same line. -/
def body (steps : Nat) : Reader Node :=
  match steps with
  | 0 => endless
  | steps + 1 => do
    let colon ← expectLeaf .colon .colon
    match ← kind with
    | .newline => do
      let _ ← take
      if (← kind) = .indent then
        let _ ← take
        let stmts ← block steps
        return .branch .body (colon :: stmts)
      else
        fail (·.unexpectedWith "expected an indented block")
    | .kwIf | .kwWhile | .kwDef =>
      fail (·.unexpectedWith "compound statements must start on their own line")
    | _ => do
      let stmt ← stmt steps
      return .branch .body [colon, stmt]

/-- Statements up to the dedent that ends the block. -/
def block (steps : Nat) : Reader (List Node) :=
  match steps with
  | 0 => endless
  | steps + 1 => do
    if (← more) && (← kind) != .dedent then
      let first ← stmt steps
      let rest ← block steps
      return first :: rest
    else
      let _ ← expect .dedent
      return []

end

/-- Statements up to the end. -/
def script (steps : Nat) : Reader (List Node) :=
  match steps with
  | 0 => endless
  | steps + 1 => do
    if ← more then
      let first ← stmt steps
      let rest ← script steps
      return first :: rest
    else
      return []

/-- The root over the statements; one over none lies where the reading stopped. -/
def root : List Node → Reader Node
  | [] => fun s => .ok (.mk .script s.current.span []) s
  | stmts => pure (.branch .script stmts)

/-- Steps that are enough for a list of this length. -/
def enoughSteps (tokens : Nat) : Nat := 8 * tokens + 16

def parse (s : Stream) : Reply Node :=
  (do root (← script (enoughSteps s.rest.length))) s

end StackScript.Tree
