import StackScript.Program
import StackScript.Text.Numeral
import StackScript.Token.Scan
import StackScript.Tree.Cursor
import StackScript.Tree.OfTokens

/-!
The program a tree stands for.

Each node is read by the places of its children. A tree can have forms that no program has (a
string, `and`, a second `elif`, a call of what is no name); reading reports the first such node, or
the end of a node that lacks a child.
-/

namespace StackScript.Program

open Node (unsupported missing)

def unaryOp (source : String) (n : Node) : Except Diagnostic UnaryOp :=
  match UnaryOp.ofSymbol? (n.text source) with
  | some op => .ok op
  | none => .error (unsupported "expr" n.span source)

def binaryOp (source : String) (n : Node) : Except Diagnostic BinaryOp :=
  if n.kind = .logicOp then .error (unsupported "expr" n.span source)
  else
    match BinaryOp.ofSymbol? (n.text source) with
    | some op => .ok op
    | none => .error (unsupported "expr" n.span source)

/-- A call, or the built-in of that name with its own number of arguments. -/
def callOf (span : Span) (callee : String) (args : List Expr) : Except Diagnostic Expr :=
  match builtinArity? callee with
  | none => .ok (.call span callee args)
  | some arity =>
    match args with
    | [arg] => .ok (.print span arg)
    | args => .error ⟨.unexpectedArguments arity args.length, span.first⟩

mutual

def ofExpr (source : String) : Node → Except Diagnostic Expr
  | .mk .number span _ =>
    let text := span.text source
    match Text.int32? text with
    | some n => .ok (.intLit span n)
    | none => .error ⟨.numberParse text, span.first⟩
  | .mk .boolean span _ => .ok (.boolLit span (span.text source == "True"))
  | .mk .none span _ => .ok (.noneLit span)
  | .mk .variableName span _ => .ok (.var span (span.text source))
  | .mk .unaryExpression span children =>
    match children with
    | [] => .error (missing "expr" span source)
    | op :: rest => do
      let op ← unaryOp source op
      match rest with
      | [] => .error (missing "expr" span source)
      | operand :: _ => return .unary span op (← ofExpr source operand)
  | .mk .binaryExpression span children =>
    match children with
    | [] => .error (missing "expr" span source)
    | left :: rest => do
      let left ← ofExpr source left
      match rest with
      | [] => .error (missing "expr" span source)
      | op :: rest => do
        let op ← binaryOp source op
        match rest with
        | [] => .error (missing "expr" span source)
        | right :: _ => return .binary span op left (← ofExpr source right)
  | .mk .parenthesizedExpression span children =>
    match children with
    | _ :: inner :: _ => return (← ofExpr source inner).withSpan span
    | _ => .error (missing "expr" span source)
  | .mk .callExpression span children =>
    match children with
    | [] => .error (missing "expr" span source)
    | callee :: rest =>
      if callee.kind = .variableName then
        match rest with
        | .mk .argList list (_ :: items) :: _ => do
          let args ← ofArgs source list items
          callOf span (callee.text source) args
        | .mk .argList list [] :: _ => .error (missing "expr" list source)
        | _ => .error (unsupported "expr" span source)
      else .error (unsupported "expr" callee.span source)
  | .mk _ span _ => .error (unsupported "expr" span source)

/-- Arguments up to the closing parenthesis; one comma may follow each. -/
def ofArgs (source : String) (list : Span) : List Node → Except Diagnostic (List Expr)
  | [] => .error (missing "expr" list source)
  | [last] =>
    if last.kind = .closeParen then .ok []
    else do
      let _ ← ofExpr source last
      .error (missing "expr" list source)
  | first :: second :: rest =>
    if first.kind = .closeParen then .ok []
    else do
      let arg ← ofExpr source first
      let args ←
        if second.kind = .comma then ofArgs source list rest
        else ofArgs source list (second :: rest)
      return arg :: args

end

/-- The type that the second child names. -/
def ofTypeDef (source : String) (n : Node) : Except Diagnostic Ty :=
  match n.children with
  | _ :: name :: _ =>
    match Ty.ofAnnotation? (name.text source) with
    | some type => .ok type
    | none => .error ⟨.unknownType (name.text source), name.span.first⟩
  | _ => .error (missing "type" n.span source)

/-- Parameters up to the closing parenthesis; one comma may follow each. -/
def ofParams (source : String) (list : Span) : List Node → Except Diagnostic (List Param)
  | [] => .error (missing "param" list source)
  | name :: rest =>
    if name.kind = .closeParen then .ok []
    else if name.kind ≠ .variableName then .error (unsupported "param" name.span source)
    else
      match rest with
      | [] => .error (missing "type" list source)
      | typed :: rest => do
        let type ← ofTypeDef source typed
        let param : Param := ⟨name.text source, type, name.span.upTo typed.span⟩
        match rest with
        | [] => .error (missing "param" list source)
        | next :: rest =>
          if next.kind = .comma then return param :: (← ofParams source list rest)
          else return param :: (← ofParams source list (next :: rest))

mutual

def ofStmt (source : String) : Node → Except Diagnostic Stmt
  | .mk .assignStatement span children =>
    match children with
    | target :: next :: rest =>
      match next.kind, rest with
      | .typeDef, _ :: value :: _ => do
        let type ← ofTypeDef source next
        return .init span (target.text source) type (← ofExpr source value)
      | .typeDef, _ => do
        let _ ← ofTypeDef source next
        .error (missing "expr" span source)
      | .assignOp, value :: _ => return .assign span (target.text source) (← ofExpr source value)
      | .assignOp, [] => .error (missing "expr" span source)
      | _, _ => .error (unsupported "stmt" span source)
    | _ => .error (unsupported "stmt" span source)
  | .mk .ifStatement span children =>
    match children with
    | _ :: cond :: rest => do
      let cond ← ofExpr source cond
      match rest with
      | [] => .error (missing "body" span source)
      | yes :: rest => do
        let yes ← ofBody source yes
        match rest with
        | next :: rest =>
          if next.kind = .kwElif then
            match rest with
            | [] => .error (missing "expr" span source)
            | cond' :: rest => do
              let cond' ← ofExpr source cond'
              match rest with
              | [] => .error (missing "body" span source)
              | yes' :: rest => do
                let yes' ← ofBody source yes'
                match rest with
                | [] => return .ifElif span cond yes cond' yes' []
                | next :: rest =>
                  if next.kind = .kwElif then .error (unsupported "stmt" next.span source)
                  else if next.kind = .kwElse then
                    match rest with
                    | [] => .error (missing "body" span source)
                    | no :: _ => return .ifElif span cond yes cond' yes' (← ofBody source no)
                  else return .ifElif span cond yes cond' yes' []
          else if next.kind = .kwElse then
            match rest with
            | [] => .error (missing "body" span source)
            | no :: _ => return .ifElse span cond yes (← ofBody source no)
          else return .ifElse span cond yes []
        | [] => return .ifElse span cond yes []
    | _ => .error (missing "expr" span source)
  | .mk .whileStatement span children =>
    match children with
    | _ :: cond :: rest => do
      let cond ← ofExpr source cond
      match rest with
      | [] => .error (missing "body" span source)
      | body :: _ => return .whileDo span cond (← ofBody source body)
    | _ => .error (missing "expr" span source)
  | .mk .functionDefinition span children =>
    match children with
    | _ :: name :: list :: rest =>
      if list.kind ≠ .paramList then .error (unsupported "stmt" span source)
      else do
        let params ← ofParams source list.span list.children.tail
        match rest with
        | [] => .error (missing "body" span source)
        | next :: rest =>
          if next.kind = .typeDef then do
            let result ← ofTypeDef source next
            match rest with
            | [] => .error (missing "body" span source)
            | body :: _ =>
              return .define span (name.text source) params result (← ofBody source body)
          else return .define span (name.text source) params .none (← ofBody source next)
    | _ => .error (unsupported "stmt" span source)
  | .mk .returnStatement span children =>
    match children with
    | [] => .ok (.ret span (.noneLit span.atEnd))
    | [keyword] => .ok (.ret span (.noneLit keyword.span))
    | _ :: value :: _ => return .ret span (← ofExpr source value)
  | .mk .passStatement span _ => .ok (.pass span)
  | .mk .expressionStatement span children =>
    match children with
    | [] => .error (missing "expr" span source)
    | value :: _ => return .expr span (← ofExpr source value)
  | .mk _ span _ => .error (unsupported "stmt" span source)

/-- The statements of a body, behind its colon. -/
def ofBody (source : String) : Node → Except Diagnostic (List Stmt)
  | .mk .body _ (_ :: stmts) => ofStmts source stmts
  | .mk .body _ [] => .ok []
  | .mk _ span _ => .error (unsupported "body" span source)

def ofStmts (source : String) : List Node → Except Diagnostic (List Stmt)
  | [] => .ok []
  | n :: ns => do
    let first ← ofStmt source n
    return first :: (← ofStmts source ns)

end

def ofTree (tree : Node) (source : String) : Except Diagnostic Program :=
  if tree.kind = .script then do return ⟨← ofStmts source tree.children⟩
  else .error (unsupported "program" tree.span source)

end StackScript.Program

namespace StackScript

/-- The tree of a token list. A reading that would not end is stopped at the last token. -/
def Tree.ofStream (s : Tree.Stream) : Except Diagnostic Node × Tree.Stream :=
  match Tree.parse s with
  | .ok tree rest => (.ok tree, rest)
  | .failed why rest => (.error why, rest)
  | .endless => (.error ⟨.unexpectedToken s.last.value, s.last.span.first⟩, ⟨[], s.last⟩)

/-- The stream of a unit's tokens. -/
def Tree.streamOf (source file : String) : Except Diagnostic Tree.Stream := do
  let tokens ← Token.scan source file
  return ⟨tokens, tokens.getLastD ⟨.eof, "EOF", ⟨0, 0, file⟩⟩⟩

def Program.parse (source file : String) : Except Diagnostic Program := do
  let stream ← Tree.streamOf source file
  let tree ← (Tree.ofStream stream).1
  Program.ofTree tree source

end StackScript
