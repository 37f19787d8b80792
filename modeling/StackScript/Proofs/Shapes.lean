import StackScript.Program.OfTree
import StackScript.Proofs.Phrases

namespace StackScript

namespace Node

@[simp] theorem kind_leaf (kind : Kind) (t : Token) : (leaf kind t).kind = kind := rfl

@[simp] theorem text_leaf (kind : Kind) (t : Token) (source : String) :
    (leaf kind t).text source = t.span.text source := rfl

@[simp] theorem kind_branch (kind : Kind) (children : List Node) :
    (branch kind children).kind = kind := rfl

mutual

def nodes : Node → List Node
  | mk kind span children => mk kind span children :: nodesAll children

def nodesAll : List Node → List Node
  | [] => []
  | n :: ns => nodes n ++ nodesAll ns

end

@[simp] theorem nodes_leaf (kind : Kind) (t : Token) : (leaf kind t).nodes = [leaf kind t] := rfl

@[simp] theorem nodes_branch (kind : Kind) (children : List Node) :
    (branch kind children).nodes = branch kind children :: nodesAll children := rfl

@[simp] theorem nodesAll_nil : nodesAll [] = [] := rfl

@[simp] theorem nodesAll_cons (n : Node) (ns : List Node) :
    nodesAll (n :: ns) = n.nodes ++ nodesAll ns := rfl

@[simp] theorem nodesAll_append (ms ns : List Node) :
    nodesAll (ms ++ ns) = nodesAll ms ++ nodesAll ns := by
  induction ms with
  | nil => rfl
  | cons m ms ih => simp [ih]

end Node

namespace Tree

open Node

/-- An operand is no mark of a list and no keyword; if it is a name, it is a leaf. -/
theorem Built.expr_kind {used : List Token} {n : Node} (h : Built .expr used [n]) :
    n.kind ≠ .closeParen ∧ n.kind ≠ .comma ∧ n.kind ≠ .openParen ∧ n.kind ≠ .kwElif ∧
      (n.kind = .variableName → n.nodes = [n]) := by
  cases h with
  | leaf hk =>
    unfold operandKind? at hk
    split at hk <;> cases hk <;> simp
  | prefixed => simp
  | grouped => simp
  | binary => simp
  | call => simp

end Tree

namespace Program

open Node

variable (source : String)

theorem ofExpr_unary (op n : Node) :
    ofExpr source (branch .unaryExpression [op, n]) = do
      let o ← unaryOp source op
      return .unary (branch .unaryExpression [op, n]).span o (← ofExpr source n) := rfl

theorem ofExpr_binary (left op right : Node) :
    ofExpr source (branch .binaryExpression [left, op, right]) = do
      let l ← ofExpr source left
      let o ← binaryOp source op
      return .binary (branch .binaryExpression [left, op, right]).span o l
        (← ofExpr source right) := rfl

/-- Parentheses leave a longer span, and nothing else. -/
theorem ofExpr_grouped (l n r : Node) :
    ofExpr source (branch .parenthesizedExpression [l, n, r]) = do
      return (← ofExpr source n).withSpan (branch .parenthesizedExpression [l, n, r]).span := rfl

/-- The callee has to be a name. One that is none is refused before the arguments are read. -/
theorem ofExpr_call (callee l : Node) (items : List Node) :
    ofExpr source (branch .callExpression [callee, branch .argList (l :: items)]) =
      if callee.kind = .variableName then do
        let args ← ofArgs source (branch .argList (l :: items)).span items
        callOf (branch .callExpression [callee, branch .argList (l :: items)]).span
          (callee.text source) args
      else .error (unsupported "expr" callee.span source) := rfl

/-- The last argument may stand right before the closing parenthesis. -/
theorem ofArgs_last (list : Span) {n : Node} (hn : n.kind ≠ .closeParen) (r : Token) :
    ofArgs source list [n, leaf .closeParen r] = do return [← ofExpr source n] := by
  simp only [ofArgs, if_neg hn, kind_leaf, if_true, reduceCtorEq, if_false]
  rfl

theorem ofArgs_more (list : Span) {n : Node} (hn : n.kind ≠ .closeParen) (c : Token)
    (items : List Node) :
    ofArgs source list (n :: leaf .comma c :: items) = do
      return (← ofExpr source n) :: (← ofArgs source list items) := by
  simp only [ofArgs, if_neg hn, kind_leaf, if_true]

theorem ofTypeDef_branch (mark name : Node) :
    ofTypeDef source (branch .typeDef [mark, name]) =
      match Ty.ofAnnotation? (name.text source) with
      | some type => .ok type
      | none => .error ⟨.unknownType (name.text source), name.span.first⟩ := rfl

theorem ofParams_last (list : Span) (name r : Token) (typed : Node) :
    ofParams source list [leaf .variableName name, typed, leaf .closeParen r] = do
      return [⟨name.span.text source, ← ofTypeDef source typed, name.span.upTo typed.span⟩] := by
  simp only [ofParams, kind_leaf, reduceCtorEq, ne_eq, not_true_eq_false, if_false, if_true]
  rfl

theorem ofParams_more (list : Span) (name c : Token) (typed : Node) (items : List Node) :
    ofParams source list (leaf .variableName name :: typed :: leaf .comma c :: items) = do
      let type ← ofTypeDef source typed
      return ⟨name.span.text source, type, name.span.upTo typed.span⟩ ::
        (← ofParams source list items) := by
  simp only [ofParams, kind_leaf, reduceCtorEq, ne_eq, not_true_eq_false, if_false, if_true]
  rfl

theorem ofStmt_assign (name op value : Node) (hop : op.kind = .assignOp) :
    ofStmt source (branch .assignStatement [name, op, value]) = do
      return .assign (branch .assignStatement [name, op, value]).span (name.text source)
        (← ofExpr source value) := by
  obtain ⟨kind, span, children⟩ := op
  obtain rfl : kind = .assignOp := hop
  rfl

/-- The type of a variable is read before its value. -/
theorem ofStmt_init (name typed op value : Node) (ht : typed.kind = .typeDef) :
    ofStmt source (branch .assignStatement [name, typed, op, value]) = do
      let type ← ofTypeDef source typed
      return .init (branch .assignStatement [name, typed, op, value]).span (name.text source) type
        (← ofExpr source value) := by
  obtain ⟨kind, span, children⟩ := typed
  obtain rfl : kind = .typeDef := ht
  rfl

theorem ofStmt_returnValue (word value : Node) :
    ofStmt source (branch .returnStatement [word, value]) = do
      return .ret (branch .returnStatement [word, value]).span (← ofExpr source value) := rfl

theorem ofStmt_expr (value : Node) :
    ofStmt source (branch .expressionStatement [value]) = do
      return .expr (branch .expressionStatement [value]).span (← ofExpr source value) := rfl

theorem ofStmt_while (word cond body : Node) :
    ofStmt source (branch .whileStatement [word, cond, body]) = do
      let e ← ofExpr source cond
      return .whileDo (branch .whileStatement [word, cond, body]).span e
        (← ofBody source body) := rfl

/-- Without an `else` the other arm is empty. -/
theorem ofStmt_if (word cond yes : Node) :
    ofStmt source (branch .ifStatement [word, cond, yes]) = do
      let e ← ofExpr source cond
      return .ifElse (branch .ifStatement [word, cond, yes]).span e (← ofBody source yes) [] := rfl

theorem ofStmt_ifElse (word cond yes no : Node) (last : Token) :
    ofStmt source (branch .ifStatement [word, cond, yes, leaf .kwElse last, no]) = do
      let e ← ofExpr source cond
      let b ← ofBody source yes
      return .ifElse (branch .ifStatement [word, cond, yes, leaf .kwElse last, no]).span e b
        (← ofBody source no) := rfl

theorem ofStmt_ifElif (word cond yes cond' yes' : Node) (next : Token) :
    ofStmt source (branch .ifStatement [word, cond, yes, leaf .kwElif next, cond', yes']) = do
      let e ← ofExpr source cond
      let b ← ofBody source yes
      let e' ← ofExpr source cond'
      return .ifElif (branch .ifStatement [word, cond, yes, leaf .kwElif next, cond', yes']).span
        e b e' (← ofBody source yes') [] := rfl

theorem ofStmt_ifElifElse (word cond yes cond' yes' no : Node) (next last : Token) :
    ofStmt source (branch .ifStatement
        [word, cond, yes, leaf .kwElif next, cond', yes', leaf .kwElse last, no]) = do
      let e ← ofExpr source cond
      let b ← ofBody source yes
      let e' ← ofExpr source cond'
      let b' ← ofBody source yes'
      return .ifElif (branch .ifStatement
        [word, cond, yes, leaf .kwElif next, cond', yes', leaf .kwElse last, no]).span
        e b e' b' (← ofBody source no) := rfl

/-- Of a condition with a second `elif`, the parts before it are still read. -/
theorem ofStmt_ifElifElif (word cond yes cond' yes' : Node) (next last : Token)
    (arms : List Node) :
    ofStmt source (branch .ifStatement
        (word :: cond :: yes :: leaf .kwElif next :: cond' :: yes' :: leaf .kwElif last :: arms)) =
      (do
        let _ ← ofExpr source cond
        let _ ← ofBody source yes
        let _ ← ofExpr source cond'
        let _ ← ofBody source yes'
        .error (unsupported "stmt" last.span source)) := rfl

/-- A function that states no result gives `None`. -/
theorem ofStmt_define (word name list body : Node) (hl : list.kind = .paramList)
    (hb : body.kind = .body) :
    ofStmt source (branch .functionDefinition [word, name, list, body]) = do
      let params ← ofParams source list.span list.children.tail
      return .define (branch .functionDefinition [word, name, list, body]).span (name.text source)
        params .none (← ofBody source body) := by
  obtain ⟨kind, span, children⟩ := list
  obtain rfl : kind = .paramList := hl
  obtain ⟨kind', span', children'⟩ := body
  obtain rfl : kind' = .body := hb
  rfl

theorem ofStmt_defineTyped (word name list result body : Node) (hl : list.kind = .paramList)
    (hr : result.kind = .typeDef) :
    ofStmt source (branch .functionDefinition [word, name, list, result, body]) = do
      let params ← ofParams source list.span list.children.tail
      let type ← ofTypeDef source result
      return .define (branch .functionDefinition [word, name, list, result, body]).span
        (name.text source) params type (← ofBody source body) := by
  obtain ⟨kind, span, children⟩ := list
  obtain rfl : kind = .paramList := hl
  obtain ⟨kind', span', children'⟩ := result
  obtain rfl : kind' = .typeDef := hr
  rfl

theorem ofBody_branch (colon : Node) (stmts : List Node) :
    ofBody source (branch .body (colon :: stmts)) = ofStmts source stmts := rfl

theorem ofStmts_cons (n : Node) (ns : List Node) :
    ofStmts source (n :: ns) = do return (← ofStmt source n) :: (← ofStmts source ns) := rfl

end Program

end StackScript
