import StackScript.Proofs.Lines
import StackScript.Proofs.Readings
import StackScript.Proofs.Shapes

namespace StackScript

open Token StackScript.Tree Program
open Token.Word (fixed)

/-- The tokens are these words, as the source spells them. -/
structure Stand (source : String) (tokens : List Token) (ws : List Token.Word) : Prop where
  words : tokens.map Token.word = ws
  spelled : ∀ t ∈ tokens, t.Spelled source

namespace Stand

variable {source : String} {tokens : List Token} {ws vs : List Token.Word} {w : Token.Word}

theorem cons (h : Stand source tokens (w :: ws)) : ∃ t rest, tokens = t :: rest ∧ t.word = w ∧
    t.Spelled source ∧ Stand source rest ws := by
  obtain ⟨t, rest, rfl, hw, hrest⟩ := List.map_eq_cons_iff.mp h.words
  refine ⟨t, rest, rfl, hw, h.spelled t List.mem_cons_self, hrest, ?_⟩
  exact fun x hx => h.spelled x (List.mem_cons_of_mem t hx)

theorem append (h : Stand source tokens (ws ++ vs)) : ∃ as bs, tokens = as ++ bs ∧
    Stand source as ws ∧ Stand source bs vs := by
  obtain ⟨as, bs, rfl, has, hbs⟩ := List.map_eq_append_iff.mp h.words
  refine ⟨as, bs, rfl, ⟨has, ?_⟩, ⟨hbs, ?_⟩⟩
  · exact fun x hx => h.spelled x (List.mem_append_left bs hx)
  · exact fun x hx => h.spelled x (List.mem_append_right as hx)

/-- The first token is the first word. -/
theorem head (h : Stand source tokens ws) (hw : ws.head? = some w) (t : Stream) :
    (t.before tokens).kind = w.kind := by
  obtain ⟨vs, rfl⟩ := List.head?_eq_some_iff.mp hw
  obtain ⟨x, rest, rfl, hx, -⟩ := h.cons
  exact congrArg Token.Word.kind hx

theorem nil (h : Stand source tokens []) : tokens = [] := List.map_eq_nil_iff.mp h.words

theorem single (h : Stand source tokens [w]) : ∃ t, tokens = [t] ∧ t.word = w ∧
    t.Spelled source := by
  obtain ⟨t, rest, rfl, hw, ht, hrest⟩ := h.cons
  rw [hrest.nil]
  exact ⟨t, rfl, hw, ht⟩

end Stand

theorem Token.kind_of_word {t : Token} {kind : Kind} {text : String} (h : t.word = ⟨kind, text⟩) :
    t.kind = kind := congrArg Word.kind h

/-- The source holds the text of a word. -/
theorem Token.text_of_word {source : String} {t : Token} {kind : Kind} {text : String}
    (h : t.word = ⟨kind, text⟩) (hs : t.Spelled source) (hl : kind.isLayout = false)
    (hk : kind ≠ .string) : t.span.text source = text := by
  have hkind := kind_of_word h
  rw [hs.value_eq (hkind ▸ hl) (hkind ▸ hk)]
  exact congrArg Word.text h

/-- The tokens are read as the expression, by an operator of this power, before this stream. -/
def Expr.ReadAs (source : String) (e : Expr) (power : Power) (tokens : List Token) (t : Stream) :
    Prop :=
  ∃ n e', ofExpr source n = .ok e' ∧ e'.unplaced = e.unplaced ∧
    ∀ r u, Gives (climb · power n) t r u → Gives (expr · power) (t.before tokens) r u

def Expr.isBinary : Expr → Bool
  | .binary .. => true
  | _ => false

namespace Expr.ReadAs

variable {source : String} {e : Expr} {power : Power} {tokens : List Token} {t : Stream}

/-- Nothing goes on the expression. -/
theorem read (h : e.ReadAs source power tokens t) (hp : ¬power < .ofKind t.kind) :
    ∃ n e', ofExpr source n = .ok e' ∧ e'.unplaced = e.unplaced ∧
      Gives (expr · power) (t.before tokens) n t := by
  obtain ⟨n, e', hn, he, hread⟩ := h
  exact ⟨n, e', hn, he, hread n t (.stop hp)⟩

theorem leaf {x : Token} {kind : Node.Kind} {e' : Expr} (hk : operandKind? x.kind = some kind)
    (hn : ofExpr source (.leaf kind x) = .ok e') (he : e'.unplaced = e.unplaced) :
    e.ReadAs source power [x] t :=
  ⟨.leaf kind x, e', hn, he, fun _ _ hr => .expr (.leaf (s := t.before [x]) hk) hr⟩

/-- In parentheses an expression is read as if no operator were near. -/
theorem grouped {ws : List Token.Word} (hs : Stand source tokens (Token.Word.grouped true ws))
    (h : ∀ as u, Stand source as ws → Power.ofKind u.kind = .none → e.ReadAs source .none as u) :
    e.ReadAs source power tokens t := by
  obtain ⟨l, rest, rfl, hl, -, hrest⟩ := hs.cons
  obtain ⟨as, bs, rfl, has, hbs⟩ := hrest.append
  obtain ⟨r, rfl, hr, -⟩ := hbs.single
  have hclose : (t.before [r]).kind = .closeParen := Token.kind_of_word hr
  have hnone : Power.ofKind (t.before [r]).kind = .none := by
    rw [hclose]
    rfl
  obtain ⟨n, e', hn, he, hread⟩ := (h as (t.before [r]) has hnone).read (by rw [hnone]; decide)
  rw [← Stream.before_append] at hread
  have hlower := ofExpr_grouped source (.leaf .openParen l) n (.leaf .closeParen r)
  rw [hn] at hlower
  refine ⟨_, _, hlower, ?_, fun _ _ hr => ?_⟩
  · rw [Expr.unplaced_withSpan, he]
  · exact .expr (.grouped (s := t.before (l :: (as ++ [r]))) (t := t.before [r])
      (Token.kind_of_word hl) hread hclose) hr

end Expr.ReadAs

def UnaryOp.power : UnaryOp → Power
  | not => .negation
  | neg => .unary

theorem UnaryOp.power_level (op : UnaryOp) : op.power.level = op.level + 2 := by
  cases op <;> rfl

/-- The level of a binary operator is its power, counted from the loosest operator on. -/
theorem BinaryOp.power_level (op : BinaryOp) : (Power.ofKind op.kind).level = op.level + 2 := by
  cases op <;> rfl

theorem BinaryOp.operatorKind?_kind (op : BinaryOp) :
    ∃ node, operatorKind? op.kind = some node ∧ node ≠ .logicOp := by
  cases op <;> exact ⟨_, rfl, by decide⟩

theorem Program.unaryOp_word {source : String} {x : Token} {op : UnaryOp}
    (hx : x.word = fixed op.kind) (hs : x.Spelled source) :
    unaryOp source (.leaf .unaryOp x) = .ok op := by
  have hkind : x.kind = op.kind := Token.kind_of_word hx
  have htext : (Node.leaf .unaryOp x).text source = op.symbol :=
    hs.text_eq (by rw [hkind]; cases op <;> rfl)
  rw [unaryOp, htext]
  cases op <;> rfl

theorem Program.binaryOp_word {source : String} {x : Token} {op : BinaryOp} {node : Node.Kind}
    (hx : x.word = fixed op.kind) (hs : x.Spelled source) (hn : node ≠ .logicOp) :
    binaryOp source (.leaf node x) = .ok op := by
  have hkind : x.kind = op.kind := Token.kind_of_word hx
  have htext : (Node.leaf node x).text source = op.symbol :=
    hs.text_eq (by rw [hkind]; cases op <;> rfl)
  rw [binaryOp, Node.kind_leaf, if_neg hn, htext]
  cases op <;> rfl

theorem BinaryOp.level_bounds (op : BinaryOp) : 1 ≤ op.level ∧ op.level ≤ 3 := by
  cases op <;> decide

theorem Expr.level_of_isBinary {e : Expr} (h : e.isBinary = true) : 1 ≤ e.level ∧ e.level ≤ 3 := by
  cases e with
  | binary _ op _ _ => exact op.level_bounds
  | _ => cases h

/-- An operand that is loose enough to be read apart is no operation of two operands, or it binds
tighter than the prefix operator. -/
theorem UnaryOp.power_lt {op : UnaryOp} {e : Expr} (h : op.level ≤ e.level)
    (hb : e.isBinary = true) : op.power.level < e.level + 2 := by
  have := Expr.level_of_isBinary hb
  rw [op.power_level]
  cases op with
  | not =>
    change 0 + 2 < _
    omega
  | neg =>
    change 4 ≤ e.level at h
    omega

theorem Expr.words_head (e : Expr) : ∃ w, e.words.head? = some w ∧ w.kind ≠ .closeParen := by
  match e with
  | .noneLit _ | .intLit .. | .var .. | .call .. | .print .. => exact ⟨_, rfl, Kind.noConfusion⟩
  | .boolLit _ value => cases value <;> exact ⟨_, rfl, Kind.noConfusion⟩
  | .unary _ op operand => exact ⟨_, rfl, by cases op <;> decide⟩
  | .binary _ op left right =>
    cases hb : decide (left.level < op.level) with
    | true =>
      rw [words, hb]
      exact ⟨_, rfl, by decide⟩
    | false =>
      obtain ⟨w, hw, hk⟩ := left.words_head
      refine ⟨w, ?_, hk⟩
      rw [words, hb]
      change (left.words ++ _).head? = some w
      rw [List.head?_append, hw]
      rfl

def Expr.Readable (source : String) (e : Expr) : Prop :=
  ∀ (power : Power) (tokens : List Token) (t : Stream), Stand source tokens e.words →
    power < .call → (e.isBinary = true → power.level < e.level + 2) →
    (Power.ofKind t.kind).level ≤ e.level + 2 → e.ReadAs source power tokens t

/-- Where no operator is near. -/
theorem Expr.Readable.alone {source : String} {e : Expr} (h : e.Readable source)
    {tokens : List Token} {t : Stream} (hs : Stand source tokens e.words)
    (ht : Power.ofKind t.kind = .none) : e.ReadAs source .none tokens t :=
  h .none tokens t hs (by decide) (fun _ => Nat.succ_pos _) (by rw [ht]; exact Nat.zero_le _)

/-- How an operand is read that stands in parentheses if it is too loose. -/
theorem Expr.ReadAs.operand {source : String} {e : Expr} {power : Power} {tokens : List Token}
    {t : Stream} {b : Bool} (hs : Stand source tokens (Token.Word.grouped b e.words))
    (h : e.Readable source) (hc : power < .call)
    (hp : b = false → e.isBinary = true → power.level < e.level + 2)
    (ht : b = false → (Power.ofKind t.kind).level ≤ e.level + 2) :
    e.ReadAs source power tokens t := by
  cases b with
  | false => exact h power tokens t hs hc (hp rfl) (ht rfl)
  | true => exact .grouped hs fun _ _ has hu => h.alone has hu

theorem Expr.ReadAs.call {source : String} {e : Expr} {power : Power} {t u : Stream} {x l : Token}
    {name : String} {items : List Node} {args : List Expr} (hx : x.word = .name name)
    (hs : x.Spelled source) (hl : l.kind = .openParen) (hc : power < .call)
    (hi : ∀ list, ofArgs source list items = .ok args) (hg : Gives arguments u items t)
    (he : ∀ span, ∃ e', callOf span name args = .ok e' ∧ e'.unplaced = e.unplaced)
    {tokens : List Token} (hu : t.before tokens = u) :
    e.ReadAs source power (x :: l :: tokens) t := by
  have htext : (Node.leaf .variableName x).text source = name :=
    Token.text_of_word hx hs rfl (by decide)
  have hlower := ofExpr_call source (.leaf .variableName x) (.leaf .openParen l) items
  rw [Node.kind_leaf, if_pos rfl, htext, hi] at hlower
  obtain ⟨e', hcall, hunplaced⟩ := he (Node.branch .callExpression [.leaf .variableName x,
    .branch .argList (.leaf .openParen l :: items)]).span
  refine ⟨_, e', hlower.trans hcall, hunplaced, fun r v hr => ?_⟩
  subst hu
  refine .expr (.leaf (s := t.before (x :: l :: tokens)) ?_)
    (.called (s := t.before (l :: tokens)) hl hc hg hr)
  rw [Stream.kind_before, Token.kind_of_word hx]
  rfl

/-- An argument and the mark behind it. -/
theorem Expr.readArg {source : String} {e : Expr} {as : List Token} {m : Token} (t : Stream)
    (rest : List Token) (h : e.Readable source) (has : Stand source as e.words)
    (hm : Power.ofKind m.kind = .none) :
    ∃ n e', ofExpr source n = .ok e' ∧ e'.unplaced = e.unplaced ∧ n.kind ≠ .closeParen ∧
      (t.before (as ++ m :: rest)).kind ≠ .closeParen ∧
      Gives (Tree.expr · .none) (t.before (as ++ m :: rest)) n (t.before (m :: rest)) := by
  have hstop : ¬Power.none < Power.ofKind (t.before (m :: rest)).kind := by
    rw [Stream.kind_before, hm]
    decide
  obtain ⟨n, e', hn, he, hread⟩ := (h.alone has hm (t := t.before (m :: rest))).read hstop
  obtain ⟨w, hw, hk⟩ := e.words_head
  have hkind := has.head hw (t.before (m :: rest))
  rw [← Stream.before_append] at hread hkind
  refine ⟨n, e', hn, he, ?_, hkind ▸ hk, hread⟩
  intro hclose
  obtain ⟨kind, span, children⟩ := n
  obtain rfl : kind = .closeParen := hclose
  cases hn

theorem Expr.readLast {source : String} {e : Expr} {tokens : List Token} {t : Stream}
    (h : e.Readable source) (hs : Stand source tokens (e.words ++ [fixed .closeParen])) :
    ∃ items e', (∀ list, ofArgs source list items = .ok [e']) ∧ e'.unplaced = e.unplaced ∧
      Gives arguments (t.before tokens) items t := by
  obtain ⟨as, bs, rfl, has, hbs⟩ := hs.append
  obtain ⟨r, rfl, hr, -⟩ := hbs.single
  have hclose : r.kind = .closeParen := Token.kind_of_word hr
  obtain ⟨n, e', hn, he, hk, hne, hread⟩ := readArg t [] h has (by rw [hclose]; rfl)
  refine ⟨[n, .leaf .closeParen r], e', fun list => ?_, he, ?_⟩
  · rw [ofArgs_last source list hk, hn]
    rfl
  · exact .lastArgument (t := t.before [r]) hne hread hclose

/-- The arguments of a call are read from their words, up to the closing parenthesis. -/
def Expr.ArgsReadable (source : String) (args : List Expr) : Prop :=
  ∀ (tokens : List Token) (t : Stream), Stand source tokens (Expr.argWords args) →
    ∃ items args', (∀ list, ofArgs source list items = .ok args') ∧
      Expr.unplacedAll args' = Expr.unplacedAll args ∧ Gives arguments (t.before tokens) items t

-- One lemma for each form of an expression. Its operands are taken to be readable.
namespace Expr.Readable

variable {source : String} {span : Span} {e left right : Expr}

theorem noneLit : (Expr.noneLit span).Readable source := by
  intro power tokens t hs _ _ _
  obtain ⟨x, rfl, hx, -⟩ := hs.single
  have hvalue : ofExpr source (.leaf .none x) = .ok (.noneLit x.span) := rfl
  exact .leaf (by rw [Token.kind_of_word hx]; rfl) hvalue rfl

theorem boolLit {value : Bool} : (Expr.boolLit span value).Readable source := by
  intro power tokens t hs _ _ _
  obtain ⟨x, rfl, hx, hspelled⟩ := hs.single
  have hvalue : ofExpr source (.leaf .boolean x) = .ok (.boolLit x.span value) := by
    cases value <;>
      rw [Node.leaf, ofExpr, Token.text_of_word hx hspelled rfl (by decide)] <;> rfl
  exact .leaf (by rw [Token.kind_of_word hx]; cases value <;> rfl) hvalue rfl

theorem intLit {value : Int32} : (Expr.intLit span value).Readable source := by
  intro power tokens t hs _ _ _
  obtain ⟨x, rfl, hx, hspelled⟩ := hs.single
  have htext := Token.text_of_word hx hspelled rfl (by decide)
  have hvalue : ofExpr source (.leaf .number x) = .ok (.intLit x.span value) := by
    unfold Node.leaf ofExpr
    dsimp only
    rw [htext, Text.int32?_decimal]
  exact .leaf (by rw [Token.kind_of_word hx]; rfl) hvalue rfl

theorem var {name : String} : (Expr.var span name).Readable source := by
  intro power tokens t hs _ _ _
  obtain ⟨x, rfl, hx, hspelled⟩ := hs.single
  have htext := Token.text_of_word hx hspelled rfl (by decide)
  have hvalue : ofExpr source (.leaf .variableName x) = .ok (.var x.span name) := by
    rw [← htext]
    rfl
  exact .leaf (by rw [Token.kind_of_word hx]; rfl) hvalue rfl

/-- The operand of a prefix operator stands in parentheses if it is looser than the operator. -/
theorem unary {op : UnaryOp} (h : e.Readable source) :
    (Expr.unary span op e).Readable source := by
  intro power tokens t hs _ _ ht
  obtain ⟨x, rest, rfl, hx, hspelled, hrest⟩ := hs.cons
  have hoperand : e.ReadAs source op.power rest t := by
    refine .operand hrest h (by cases op <;> decide) ?_ ?_
    · exact fun hb => UnaryOp.power_lt (Nat.le_of_not_lt (of_decide_eq_false hb))
    · intro hb
      have := Nat.le_of_not_lt (of_decide_eq_false hb)
      exact Nat.le_trans ht (Nat.add_le_add_right this 2)
  have hstop : ¬op.power < Power.ofKind t.kind := by
    refine Nat.not_lt.mpr ?_
    rw [op.power_level]
    exact ht
  obtain ⟨n, e', hn, he, hread⟩ := hoperand.read hstop
  have hlower := ofExpr_unary source (.leaf .unaryOp x) n
  rw [unaryOp_word hx hspelled, hn] at hlower
  refine ⟨_, _, hlower, ?_, fun _ _ hr => .expr ?_ hr⟩
  · change Expr.unary _ op e'.unplaced = _
    rw [he]
    rfl
  · refine .prefixed (s := t.before (x :: rest)) ?_ hread
    rw [Stream.kind_before, Token.kind_of_word hx]
    cases op
    · exact .inr ⟨rfl, rfl⟩
    · exact .inl ⟨rfl, rfl⟩

/-- The left operand is read up to the operator, which its parentheses leave to be read next, and the
right one up to what follows. -/
theorem binary {op : BinaryOp} (hleft : left.Readable source) (hright : right.Readable source) :
    (Expr.binary span op left right).Readable source := by
  intro power tokens t hs hc hp ht
  obtain ⟨as, rest, rfl, has, hrest⟩ := hs.append
  obtain ⟨x, bs, rfl, hx, hspelled, hbs⟩ := hrest.cons
  have hpower := op.power_level
  have hxkind : x.kind = op.kind := Token.kind_of_word hx
  obtain ⟨node, hnode, hlogic⟩ := op.operatorKind?_kind
  have hlevel : power.level < op.level + 2 := hp rfl
  have hl : left.ReadAs source power as (t.before (x :: bs)) := by
    refine .operand has hleft hc ?_ ?_
    · intro hb _
      have := Nat.le_of_not_lt (of_decide_eq_false hb)
      omega
    · intro hb
      have := Nat.le_of_not_lt (of_decide_eq_false hb)
      rw [Stream.kind_before, hxkind, hpower]
      omega
  have hr : right.ReadAs source (.ofKind op.kind) bs t := by
    refine .operand hbs hright (by cases op <;> decide) ?_ ?_
    · intro hb _
      have := Nat.lt_of_not_le (of_decide_eq_false hb)
      omega
    · intro hb
      have := Nat.lt_of_not_le (of_decide_eq_false hb)
      change _ ≤ op.level + 2 at ht
      omega
  have hstop : ¬Power.ofKind op.kind < Power.ofKind t.kind := by
    refine Nat.not_lt.mpr ?_
    rw [hpower]
    exact ht
  obtain ⟨l, l', hl, hel, hreadl⟩ := hl
  obtain ⟨r, r', hr, her, hreadr⟩ := hr.read hstop
  have hlower := ofExpr_binary source l (.leaf node x) r
  rw [hl, binaryOp_word hx hspelled hlogic, hr] at hlower
  refine ⟨_, _, hlower, ?_, fun n u hn => ?_⟩
  · change Expr.binary _ op l'.unplaced r'.unplaced = _
    rw [hel, her]
    rfl
  · rw [Stream.before_append]
    have hnode' : operatorKind? (t.before (x :: bs)).kind = some node := by
      rw [Stream.kind_before, hxkind, hnode]
    refine hreadl n u (.binary hnode' ?_ ?_ hn)
    · rw [Stream.kind_before, hxkind]
      change power.level < (Power.ofKind op.kind).level
      omega
    · rw [Stream.kind_before, hxkind]
      exact hreadr

/-- A call is read with its arguments, which no operator outside can reach. -/
theorem call {callee : String} {args : List Expr} (hname : callee ≠ "print")
    (h : ArgsReadable source args) : (Expr.call span callee args).Readable source := by
  intro power tokens t hs hc _ _
  obtain ⟨x, rest, rfl, hx, hspelled, hrest⟩ := hs.cons
  obtain ⟨l, as, rfl, hl, -, has⟩ := hrest.cons
  obtain ⟨items, args', hi, hu, hg⟩ := h as t has
  refine .call hx hspelled (Token.kind_of_word hl) hc hi hg (fun span => ?_) rfl
  refine ⟨.call span callee args', ?_, ?_⟩
  · rw [callOf, builtinArity?, if_neg hname]
  · change Expr.call _ callee (unplacedAll args') = _
    rw [hu]
    rfl

theorem print (h : e.Readable source) : (Expr.print span e).Readable source := by
  intro power tokens t hs hc _ _
  obtain ⟨x, rest, rfl, hx, hspelled, hrest⟩ := hs.cons
  obtain ⟨l, as, rfl, hl, -, has⟩ := hrest.cons
  obtain ⟨items, arg', hi, hu, hg⟩ := readLast (t := t) h has
  refine .call hx hspelled (Token.kind_of_word hl) hc hi hg (fun span => ?_) rfl
  refine ⟨.print span arg', rfl, ?_⟩
  change Expr.print _ arg'.unplaced = _
  rw [hu]
  rfl

end Expr.Readable

mutual

/-- The words of an expression are read back as the expression wherever the operator to the left is
not too tight for it and the one to the right is not tighter. -/
theorem Expr.read (source : String) (e : Expr) (h : e.isPrintable = true) : e.Readable source := by
  cases e with
  | noneLit => exact .noneLit
  | boolLit => exact .boolLit
  | intLit => exact .intLit
  | var => exact .var
  | unary _ _ operand => exact .unary (operand.read source h)
  | binary _ _ left right =>
    rw [isPrintable, Bool.and_eq_true] at h
    exact .binary (left.read source h.1) (right.read source h.2)
  | call _ _ args =>
    simp only [isPrintable, Bool.and_eq_true, bne_iff_ne] at h
    exact .call h.1.2 (readArgs source args h.2)
  | print _ arg => exact .print (arg.read source h)

theorem Expr.readArgs (source : String) (args : List Expr)
    (h : Expr.areArgsPrintable args = true) : Expr.ArgsReadable source args := by
  intro tokens t hs
  match args with
  | [] =>
    obtain ⟨r, rfl, hr, -⟩ := hs.single
    refine ⟨[.leaf .closeParen r], [], fun _ => rfl, rfl, ?_⟩
    exact .noArgument (s := t.before [r]) (Token.kind_of_word hr)
  | [last] =>
    rw [areArgsPrintable, Bool.and_eq_true] at h
    obtain ⟨items, e', hi, hu, hg⟩ := readLast (t := t) (last.read source h.1) hs
    refine ⟨items, [e'], hi, ?_, hg⟩
    rw [unplacedAll, unplacedAll, hu, unplacedAll, unplacedAll]
  | e :: e' :: es =>
    rw [areArgsPrintable, Bool.and_eq_true] at h
    obtain ⟨as, rest, rfl, has, hrest⟩ :=
      Stand.append (show Stand source tokens (e.words ++ _) from hs)
    obtain ⟨c, bs, rfl, hc, -, hbs⟩ := hrest.cons
    have hcomma : c.kind = .comma := Token.kind_of_word hc
    obtain ⟨items, args', hi, hu, hg⟩ := readArgs source (e' :: es) h.2 bs t hbs
    obtain ⟨n, a, hn, ha, hk, hne, hread⟩ :=
      readArg t bs (e.read source h.1) has (by rw [hcomma]; rfl)
    refine ⟨n :: .leaf .comma c :: items, a :: args', fun list => ?_, ?_, ?_⟩
    · rw [ofArgs_more source list hk, hn, hi]
      rfl
    · rw [unplacedAll, ha, hu]
      rfl
    · exact .moreArguments (t := t.before (c :: bs)) hne hread hcomma hg

end

/-- A value and the mark behind it. -/
theorem Expr.readValue {source : String} {e : Expr} {as : List Token} {m : Token} (t : Stream)
    (rest : List Token) (h : e.isPrintable = true) (has : Stand source as e.words)
    (hm : Power.ofKind m.kind = .none) :
    ∃ n e', ofExpr source n = .ok e' ∧ e'.unplaced = e.unplaced ∧
      Gives (Tree.expr · .none) (t.before (as ++ m :: rest)) n (t.before (m :: rest)) := by
  obtain ⟨n, e', hn, he, -, -, hread⟩ := readArg t rest (e.read source h) has hm
  exact ⟨n, e', hn, he, hread⟩

end StackScript
