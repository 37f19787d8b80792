import StackScript.Proofs.Operands

namespace StackScript

open Token StackScript.Tree Program
open Token.Word (fixed)

/-- A type behind its mark. -/
theorem Ty.read {source : String} {type : Ty} {x : Token} (m : Node) (h : type.isValue = true)
    (hx : x.word = type.word) (hs : x.Spelled source) :
    ∃ kind, typeKind? x.kind = some kind ∧
      ofTypeDef source (.branch .typeDef [m, .leaf kind x]) = .ok type := by
  have known {kind : Node.Kind} {text : String} (ht : x.span.text source = text)
      (ha : Ty.ofAnnotation? text = some type) :
      ofTypeDef source (.branch .typeDef [m, .leaf kind x]) = .ok type := by
    have htext : (Node.leaf kind x).text source = text := ht
    rw [ofTypeDef_branch, htext, ha]
  cases type with
  | void => cases h
  | int | bool =>
    exact ⟨.variableName, by rw [Token.kind_of_word hx]; rfl,
      known (Token.text_of_word hx hs rfl (by decide)) rfl⟩
  | none =>
    exact ⟨.none, by rw [Token.kind_of_word hx]; rfl,
      known (Token.text_of_word hx hs rfl (by decide)) rfl⟩

theorem Param.readOne {source : String} {p : Param} {as : List Token} (t : Stream) (m : Token)
    (rest : List Token) (h : p.isPrintable = true) (has : Stand source as p.words) :
    ∃ name bs typed, as = name :: bs ∧ name.kind = .identifier ∧
      name.span.text source = p.name ∧ ofTypeDef source typed = .ok p.type ∧
      Gives (fun _ => Tree.typeAfter .colon .colon) (t.before (bs ++ m :: rest)) typed
        (t.before (m :: rest)) := by
  rw [isPrintable, Bool.and_eq_true] at h
  obtain ⟨name, as, rfl, hname, hspelled, has⟩ := has.cons
  obtain ⟨c, as, rfl, hc, -, has⟩ := has.cons
  obtain ⟨x, rfl, hx, hxs⟩ := has.single
  obtain ⟨kind, hkind, htype⟩ := Ty.read (.leaf .colon c) h.2 hx hxs
  refine ⟨name, _, _, rfl, Token.kind_of_word hname,
    Token.text_of_word hname hspelled rfl (by decide), htype, ?_⟩
  exact .typeAfter (s := t.before (c :: x :: m :: rest)) (Token.kind_of_word hc) hkind

/-- The parameters of a definition are read from their words, up to the closing parenthesis. -/
theorem Param.readAll (source : String) (ps : List Param) (h : ps.all Param.isPrintable = true)
    (tokens : List Token) (t : Stream) (hs : Stand source tokens (Param.allWords ps)) :
    ∃ items ps', (∀ list, ofParams source list items = .ok ps') ∧
      ps'.map Param.unplaced = ps.map Param.unplaced ∧
      Gives parameters (t.before tokens) items t := by
  match ps with
  | [] =>
    obtain ⟨r, rfl, hr, -⟩ := hs.single
    refine ⟨[.leaf .closeParen r], [], fun _ => rfl, rfl, ?_⟩
    exact .noParameter (s := t.before [r]) (Token.kind_of_word hr)
  | [last] =>
    rw [List.all_cons, Bool.and_eq_true] at h
    obtain ⟨as, bs, rfl, has, hbs⟩ :=
      Stand.append (show Stand source tokens (last.words ++ _) from hs)
    obtain ⟨r, rfl, hr, -⟩ := hbs.single
    obtain ⟨name, as, typed, rfl, hk, htext, htype, hread⟩ :=
      readOne t r [] h.1 has
    have hlower (list : Span) := ofParams_last source list name r typed
    rw [htype, htext] at hlower
    refine ⟨_, _, hlower, rfl, ?_⟩
    exact .lastParameter (s := t.before (name :: (as ++ [r]))) (t := t.before [r]) hk hread
      (Token.kind_of_word hr)
  | p :: p' :: ps =>
    rw [List.all_cons, Bool.and_eq_true] at h
    obtain ⟨as, rest, rfl, has, hrest⟩ :=
      Stand.append (show Stand source tokens (p.words ++ _) from hs)
    obtain ⟨c, bs, rfl, hc, -, hbs⟩ := hrest.cons
    obtain ⟨items, ps', hi, hu, hg⟩ := readAll source (p' :: ps) h.2 bs t hbs
    obtain ⟨name, as, typed, rfl, hk, htext, htype, hread⟩ :=
      readOne t c bs h.1 has
    have hlower (list : Span) := ofParams_more source list name c typed items
    simp only [htype, htext, hi] at hlower
    refine ⟨_, _, hlower, ?_, ?_⟩
    · rw [List.map_cons, hu]
      rfl
    · exact .moreParameters (s := t.before (name :: (as ++ c :: bs))) (t := t.before (c :: bs)) hk
        hread (Token.kind_of_word hc) hg

def Token.Kind.opensStmt (kind : Kind) : Bool := kind.inExpr || Gives.startsStatement kind

theorem Stmt.words_head (s : Stmt) : ∃ w, s.words.head? = some w ∧ w.kind.opensStmt = true := by
  cases s with
  | expr _ value =>
    obtain ⟨w, hw, -⟩ := value.words_head
    refine ⟨w, ?_, ?_⟩
    · rw [words, List.head?_append, hw]
      rfl
    · rw [Kind.opensStmt, value.words_inExpr w (List.mem_of_head? hw)]
      rfl
  | _ => exact ⟨_, rfl, rfl⟩

def Stmt.ReadAs (source : String) (s : Stmt) (tokens : List Token) (t : Stream) : Prop :=
  ∃ n s', ofStmt source n = .ok s' ∧ s'.unplaced = s.unplaced ∧ Gives stmt (t.before tokens) n t

def Token.Kind.EndsArms (kind : Kind) : Prop := kind ≠ .kwElif ∧ kind ≠ .kwElse

theorem Token.Kind.endsArms_of_opensStmt {kind : Kind} (h : kind.opensStmt = true) :
    kind.EndsArms := by
  refine ⟨?_, ?_⟩ <;> rintro rfl <;> cases h

/-- A statement starts with a token that can start one. -/
theorem Stmt.opens {source : String} {s : Stmt} {as : List Token}
    (h : Stand source as s.words) : ∃ x bs, as = x :: bs ∧ x.kind.opensStmt = true := by
  obtain ⟨w, hw, hopens⟩ := s.words_head
  obtain ⟨ws, hws⟩ := List.head?_eq_some_iff.mp hw
  rw [hws] at h
  obtain ⟨x, bs, rfl, rfl, -⟩ := h.cons
  exact ⟨x, bs, rfl, hopens⟩

/-- No arm of a condition follows before other statements, nor at the end of a block. -/
theorem Stmt.endsArms_before {source : String} {ss : List Stmt} {tokens : List Token} {t : Stream}
    (h : Stand source tokens (Stmt.allWords ss)) (ht : t.kind.EndsArms) :
    (t.before tokens).kind.EndsArms := by
  cases ss with
  | nil =>
    rw [Stand.nil h]
    exact ht
  | cons s ss =>
    obtain ⟨as, bs, rfl, has, -⟩ := Stand.append (show Stand source tokens (s.words ++ _) from h)
    obtain ⟨x, as, rfl, hx⟩ := opens has
    exact Kind.endsArms_of_opensStmt hx

/-- A value with the line end behind it. -/
theorem Expr.readLine {source : String} {tokens : List Token} {e : Expr} (t : Stream)
    (h : e.isPrintable = true) (hs : Stand source tokens (e.words ++ [.newline])) :
    ∃ as nl n e', tokens = as ++ [nl] ∧ Stand source as e.words ∧ nl.kind = .newline ∧
      ofExpr source n = .ok e' ∧ e'.unplaced = e.unplaced ∧
      Gives (Tree.expr · .none) (t.before (as ++ [nl])) n (t.before [nl]) := by
  obtain ⟨as, bs, rfl, has, hbs⟩ := hs.append
  obtain ⟨nl, rfl, hnl, -⟩ := hbs.single
  have hkind : nl.kind = .newline := Token.kind_of_word hnl
  obtain ⟨n, e', hn, he, hread⟩ := readValue t [] h has (by rw [hkind]; rfl)
  exact ⟨as, nl, n, e', rfl, has, hkind, hn, he, hread⟩

/-- The statements are read from their words up to the dedent that ends their block. -/
def Stmt.BlockReadable (source : String) (ss : List Stmt) : Prop :=
  ∀ (tokens : List Token) (t : Stream) (d : Token), Stand source tokens (Stmt.allWords ss) →
    d.kind = .dedent → ∃ ns ss', ofStmts source ns = .ok ss' ∧
      Stmt.unplacedAll ss' = Stmt.unplacedAll ss ∧ Gives block (t.before (tokens ++ [d])) ns t

/-- A body is read up to the dedent that ends it. -/
theorem Stmt.BlockReadable.body {source : String} {ss : List Stmt} {tokens : List Token}
    (h : Stmt.BlockReadable source ss) (t : Stream)
    (hs : Stand source tokens (Token.Word.body (Stmt.allWords ss))) :
    ∃ c bs n ss', tokens = c :: bs ∧ c.kind = .colon ∧ n.kind = .body ∧
      ofBody source n = .ok ss' ∧ Stmt.unplacedAll ss' = Stmt.unplacedAll ss ∧
      Gives Tree.body (t.before tokens) n t := by
  obtain ⟨c, rest, rfl, hc, -, hrest⟩ := hs.cons
  obtain ⟨nl, rest, rfl, hnl, -, hrest⟩ := hrest.cons
  obtain ⟨i, rest, rfl, hi, -, hrest⟩ := hrest.cons
  obtain ⟨as, bs, rfl, has, hbs⟩ := hrest.append
  obtain ⟨d, rfl, hd, -⟩ := hbs.single
  obtain ⟨ns, ss', hns, hu, hg⟩ := h as t d has (Token.kind_of_word hd)
  refine ⟨c, _, .branch .body (.leaf .colon c :: ns), ss', rfl, Token.kind_of_word hc, rfl, ?_, hu,
    ?_⟩
  · rw [ofBody_branch, hns]
  · exact .indented (s := t.before (c :: nl :: i :: (as ++ [d]))) (Token.kind_of_word hc)
      (Token.kind_of_word hnl) (Token.kind_of_word hi) hg

/-- A condition and the body that depends on it. -/
theorem Stmt.BlockReadable.arm {source : String} {cond : Expr} {ss : List Stmt}
    {tokens : List Token} (hb : Stmt.BlockReadable source ss) (t : Stream)
    (h : cond.isPrintable = true)
    (hs : Stand source tokens (cond.words ++ Token.Word.body (Stmt.allWords ss))) :
    ∃ n e' b ss' u, ofExpr source n = .ok e' ∧ e'.unplaced = cond.unplaced ∧
      ofBody source b = .ok ss' ∧ Stmt.unplacedAll ss' = Stmt.unplacedAll ss ∧
      Gives (Tree.expr · .none) (t.before tokens) n u ∧ Gives Tree.body u b t := by
  obtain ⟨as, bs, rfl, has, hbs⟩ := hs.append
  obtain ⟨c, bs, b, ss', rfl, hc, -, hbody, hss, hgb⟩ := hb.body t hbs
  obtain ⟨n, e', hn, he, hge⟩ := Expr.readValue t bs h has (by rw [hc]; rfl)
  exact ⟨n, e', b, ss', _, hn, he, hbody, hss, hge, hgb⟩

/-- What may follow a condition: an `else` with these statements, or nothing if there are none. -/
inductive Stmt.Rest (source : String) : List Stmt → List Node → Prop where
  | none : Rest source [] []
  | some {no no' : List Stmt} {l : Token} {body : Node} : ofBody source body = .ok no' →
    Stmt.unplacedAll no' = Stmt.unplacedAll no → Rest source no [.leaf .kwElse l, body]

namespace Stmt.Rest

variable {source : String} {cond yes cond' yes' : Node} {e e' : Expr}
  {b b' no : List Stmt} {arms : List Node}

theorem ifElse (word : Token) (h : Rest source no arms) (hc : ofExpr source cond = .ok e)
    (hy : ofBody source yes = .ok b) : ∃ no',
      ofStmt source (.branch .ifStatement (.leaf .kwIf word :: cond :: yes :: arms)) =
        .ok (.ifElse (Node.branch .ifStatement (.leaf .kwIf word :: cond :: yes :: arms)).span
          e b no') ∧
      Stmt.unplacedAll no' = Stmt.unplacedAll no := by
  cases h with
  | none =>
    refine ⟨[], ?_, rfl⟩
    rw [ofStmt_if, hc, hy]
    rfl
  | some hb hu =>
    refine ⟨_, ?_, hu⟩
    rw [ofStmt_ifElse, hc, hy, hb]
    rfl

theorem ifElif (word next : Token) (h : Rest source no arms) (hc : ofExpr source cond = .ok e)
    (hy : ofBody source yes = .ok b) (hc' : ofExpr source cond' = .ok e')
    (hy' : ofBody source yes' = .ok b') : ∃ no',
      ofStmt source (.branch .ifStatement
        (.leaf .kwIf word :: cond :: yes :: .leaf .kwElif next :: cond' :: yes' :: arms)) =
        .ok (.ifElif (Node.branch .ifStatement
          (.leaf .kwIf word :: cond :: yes :: .leaf .kwElif next :: cond' :: yes' :: arms)).span
          e b e' b' no') ∧
      Stmt.unplacedAll no' = Stmt.unplacedAll no := by
  cases h with
  | none =>
    refine ⟨[], ?_, rfl⟩
    rw [ofStmt_ifElif, hc, hy, hc', hy']
    rfl
  | some hb hu =>
    refine ⟨_, ?_, hu⟩
    rw [ofStmt_ifElifElse, hc, hy, hc', hy', hb]
    rfl

end Stmt.Rest

theorem Stand.inExpr {source : String} {e : Expr} {as : List Token}
    (h : Stand source as e.words) : ∀ x ∈ as, x.kind.inExpr = true := by
  intro x hx
  exact e.words_inExpr x.word (h.words ▸ List.mem_map_of_mem hx)

/-- An expression does not start as another statement does. -/
theorem Stand.startsExpression {source : String} {e : Expr} {as : List Token} {t : Stream}
    {nl : Token} (h : Stand source as e.words) (hnl : nl.kind = .newline) :
    (t.before (as ++ [nl])).kind.inExpr = true ∧
      (t.before (as ++ [nl])).nextKind ≠ .colon ∧
      (t.before (as ++ [nl])).nextKind ≠ .assignment := by
  have hin := h.inExpr
  cases as with
  | nil => exact absurd h.words.symm e.words_ne_nil
  | cons x as =>
    refine ⟨hin x List.mem_cons_self, ?_⟩
    cases as with
    | nil =>
      change nl.kind ≠ _ ∧ nl.kind ≠ _
      rw [hnl]
      decide
    | cons y as =>
      have hy := hin y (List.mem_cons_of_mem x List.mem_cons_self)
      change y.kind ≠ _ ∧ y.kind ≠ _
      refine ⟨?_, ?_⟩ <;> intro hk <;> rw [hk] at hy <;> cases hy

/-- What may follow the arms of a condition is read as its `else`, or as nothing. -/
theorem Stmt.BlockReadable.otherwise {source : String} {no : List Stmt}
    (h : Stmt.BlockReadable source no) {tokens : List Token} (t : Stream)
    (hs : Stand source tokens (Stmt.elseWords no)) (ht : t.kind.EndsArms) :
    ∃ arms, Stmt.Rest source no arms ∧ Gives laterArms (t.before tokens) arms t := by
  cases no with
  | nil =>
    rw [Stand.nil hs]
    exact ⟨[], .none, .noArm ht⟩
  | cons s ss =>
    obtain ⟨w, rest, rfl, hw, -, hrest⟩ := Stand.cons hs
    obtain ⟨c, bs, b, ss', rfl, -, -, hb, hu, hgb⟩ := h.body t hrest
    exact ⟨_, .some (l := w) hb hu,
      .elseArm (s := t.before (w :: c :: bs)) (Token.kind_of_word hw) hgb⟩

-- One lemma for each form of a statement. What stands in its blocks is taken to be readable.
namespace Stmt.ReadAs

variable {source : String} {tokens : List Token} {t : Stream} {span : Span} {name : String}
  {value cond cond' : Expr} {yes yes' no ss : List Stmt}

theorem assign (h : value.isPrintable = true)
    (hs : Stand source tokens (Stmt.assign span name value).words) :
    (Stmt.assign span name value).ReadAs source tokens t := by
  obtain ⟨x, rest, rfl, hx, hspelled, hrest⟩ := hs.cons
  obtain ⟨op, rest, rfl, hop, -, hrest⟩ := hrest.cons
  obtain ⟨as, nl, n, e', rfl, -, hnl, hn, he, hread⟩ := Expr.readLine t h hrest
  have hopk : op.kind = .assignment := Token.kind_of_word hop
  have hlower := ofStmt_assign source (.leaf .variableName x) (.leaf .assignOp op) n rfl
  have htext : (Node.leaf .variableName x).text source = name :=
    Token.text_of_word hx hspelled rfl (by decide)
  rw [hn, htext] at hlower
  refine ⟨_, _, hlower, ?_, ?_⟩
  · change Stmt.assign _ name e'.unplaced = _
    rw [he]
    rfl
  · have huntyped : Gives (fun _ => typeIf .colon .colon) (t.before (op :: (as ++ [nl]))) []
        (t.before (op :: (as ++ [nl]))) :=
      .untyped (by rw [Stream.kind_before, hopk]; decide)
    have hall := Gives.assigned (s := t.before (x :: op :: (as ++ [nl]))) (u := t.before [nl])
      (Token.kind_of_word hx) (.inr hopk) huntyped hopk hread hnl
    exact hall

theorem init {type : Ty} (htype : type.isValue = true) (h : value.isPrintable = true)
    (hs : Stand source tokens (Stmt.init span name type value).words) :
    (Stmt.init span name type value).ReadAs source tokens t := by
  obtain ⟨x, rest, rfl, hx, hspelled, hrest⟩ := hs.cons
  obtain ⟨c, rest, rfl, hc, -, hrest⟩ := hrest.cons
  obtain ⟨y, rest, rfl, hy, hyspelled, hrest⟩ := hrest.cons
  obtain ⟨op, rest, rfl, hop, -, hrest⟩ := hrest.cons
  obtain ⟨as, nl, n, e', rfl, -, hnl, hn, he, hread⟩ := Expr.readLine t h hrest
  obtain ⟨kind, hkind, htype⟩ := Ty.read (.leaf .colon c) htype hy hyspelled
  have hlower := ofStmt_init source (.leaf .variableName x)
    (.branch .typeDef [.leaf .colon c, .leaf kind y]) (.leaf .assignOp op) n rfl
  have htext : (Node.leaf .variableName x).text source = name :=
    Token.text_of_word hx hspelled rfl (by decide)
  rw [htype, hn, htext] at hlower
  refine ⟨_, _, hlower, ?_, ?_⟩
  · change Stmt.init _ name type e'.unplaced = _
    rw [he]
    rfl
  · have htyped : Gives (fun _ => typeIf .colon .colon) (t.before (c :: y :: op :: (as ++ [nl])))
        [.branch .typeDef [.leaf .colon c, .leaf kind y]] (t.before (op :: (as ++ [nl]))) :=
      .typed (s := t.before (c :: y :: op :: (as ++ [nl]))) (Token.kind_of_word hc) hkind
    have hall := Gives.assigned (s := t.before (x :: c :: y :: op :: (as ++ [nl])))
      (u := t.before [nl]) (Token.kind_of_word hx) (.inl (Token.kind_of_word hc)) htyped
      (Token.kind_of_word hop) hread hnl
    exact hall

/-- A definition is read with its parameters, its result and its body. -/
theorem define {params : List Param} {result : Ty} (hparams : params.all Param.isPrintable = true)
    (hresult : result.isValue = true) (hss : BlockReadable source ss)
    (hs : Stand source tokens (Stmt.define span name params result ss).words) :
    (Stmt.define span name params result ss).ReadAs source tokens t := by
  obtain ⟨w, rest, rfl, hw, -, hrest⟩ := hs.cons
  obtain ⟨x, rest, rfl, hx, hspelled, hrest⟩ := hrest.cons
  obtain ⟨l, rest, rfl, hl, -, hrest⟩ := hrest.cons
  obtain ⟨as, rest, rfl, has, hrest⟩ := hrest.append
  obtain ⟨a, rest, rfl, ha, -, hrest⟩ := hrest.cons
  obtain ⟨y, rest, rfl, hy, hyspelled, hrest⟩ := hrest.cons
  obtain ⟨c, bs, b, ss', rfl, -, -, hb, hu, hgb⟩ := hss.body t hrest
  obtain ⟨items, ps', hi, hps, hgp⟩ :=
    Param.readAll source params hparams as (t.before (a :: y :: c :: bs)) has
  rw [← Stream.before_append] at hgp
  obtain ⟨kind, hkind, htype⟩ := Ty.read (.leaf .arrow a) hresult hy hyspelled
  have hlower := ofStmt_defineTyped source (.leaf .kwDef w) (.leaf .variableName x)
    (.branch .paramList (.leaf .openParen l :: items))
    (.branch .typeDef [.leaf .arrow a, .leaf kind y]) b rfl rfl
  have htext : (Node.leaf .variableName x).text source = name :=
    Token.text_of_word hx hspelled rfl (by decide)
  have hitems : ofParams source (Node.branch .paramList (.leaf .openParen l :: items)).span
      (Node.branch .paramList (.leaf .openParen l :: items)).children.tail = .ok ps' := hi _
  rw [hitems, htype, hb, htext] at hlower
  refine ⟨_, _, hlower, ?_, ?_⟩
  · change Stmt.define _ name (ps'.map Param.unplaced) result (unplacedAll ss') = _
    rw [hps, hu]
    rfl
  · have htyped : Gives (fun _ => typeIf .arrow .arrow) (t.before (a :: y :: c :: bs))
        [.branch .typeDef [.leaf .arrow a, .leaf kind y]] (t.before (c :: bs)) :=
      .typed (s := t.before (a :: y :: c :: bs)) (Token.kind_of_word ha) hkind
    have hall := Gives.defined (s := t.before (w :: x :: l :: (as ++ a :: y :: c :: bs)))
      (Token.kind_of_word hw) (Token.kind_of_word hx) (Token.kind_of_word hl) hgp htyped hgb
    exact hall

theorem ifElse (hcond : cond.isPrintable = true) (hyes : BlockReadable source yes)
    (hno : BlockReadable source no)
    (hs : Stand source tokens (Stmt.ifElse span cond yes no).words) (ht : t.kind.EndsArms) :
    (Stmt.ifElse span cond yes no).ReadAs source tokens t := by
  obtain ⟨w, rest, rfl, hw, -, hrest⟩ := hs.cons
  obtain ⟨as, bs, rfl, has, hbs⟩ := hrest.append
  obtain ⟨arms, harms, hga⟩ := hno.otherwise t hbs ht
  obtain ⟨n, e', b, yes', u, hn, he, hb, hu, hge, hgb⟩ := hyes.arm (t.before bs) hcond has
  rw [← Stream.before_append] at hge
  obtain ⟨no', hlower, hno'⟩ := harms.ifElse w hn hb
  refine ⟨_, _, hlower, ?_, ?_⟩
  · change Stmt.ifElse _ e'.unplaced (unplacedAll yes') (unplacedAll no') = _
    rw [he, hu, hno']
    rfl
  · exact .chosen (s := t.before (w :: (as ++ bs))) (Token.kind_of_word hw) hge hgb hga

theorem ifElif (hcond : cond.isPrintable = true) (hyes : BlockReadable source yes)
    (hcond' : cond'.isPrintable = true) (hyes' : BlockReadable source yes')
    (hno : BlockReadable source no)
    (hs : Stand source tokens (Stmt.ifElif span cond yes cond' yes' no).words)
    (ht : t.kind.EndsArms) :
    (Stmt.ifElif span cond yes cond' yes' no).ReadAs source tokens t := by
  obtain ⟨w, rest, rfl, hw, -, hrest⟩ := hs.cons
  obtain ⟨as, rest, rfl, has, hrest⟩ := hrest.append
  obtain ⟨w', rest, rfl, hw', -, hrest⟩ := hrest.cons
  obtain ⟨as', bs, rfl, has', hbs⟩ := hrest.append
  obtain ⟨arms, harms, hga⟩ := hno.otherwise t hbs ht
  obtain ⟨n', e₂, b', ss₂, u', hn', he₂, hb', hu₂, hge', hgb'⟩ :=
    hyes'.arm (t.before bs) hcond' has'
  obtain ⟨n, e₁, b, ss₁, u, hn, he₁, hb, hu₁, hge, hgb⟩ :=
    hyes.arm (t.before (w' :: (as' ++ bs))) hcond has
  rw [← Stream.before_append] at hge hge'
  obtain ⟨no', hlower, hno'⟩ := harms.ifElif w w' hn hb hn' hb'
  refine ⟨_, _, hlower, ?_, ?_⟩
  · change Stmt.ifElif _ e₁.unplaced (unplacedAll ss₁) e₂.unplaced (unplacedAll ss₂)
      (unplacedAll no') = _
    rw [he₁, hu₁, he₂, hu₂, hno']
    rfl
  · exact .chosen (s := t.before (w :: (as ++ w' :: (as' ++ bs)))) (Token.kind_of_word hw) hge hgb
      (.elifArm (s := t.before (w' :: (as' ++ bs))) (Token.kind_of_word hw') hge' hgb' hga)

theorem whileDo (hcond : cond.isPrintable = true) (hss : BlockReadable source ss)
    (hs : Stand source tokens (Stmt.whileDo span cond ss).words) :
    (Stmt.whileDo span cond ss).ReadAs source tokens t := by
  obtain ⟨w, rest, rfl, hw, -, hrest⟩ := hs.cons
  obtain ⟨n, e', b, ss', u, hn, he, hb, hu, hge, hgb⟩ := hss.arm t hcond hrest
  have hlower := ofStmt_while source (.leaf .kwWhile w) n b
  rw [hn, hb] at hlower
  refine ⟨_, _, hlower, ?_, ?_⟩
  · change Stmt.whileDo _ e'.unplaced (unplacedAll ss') = _
    rw [he, hu]
    rfl
  · exact .repeated (s := t.before (w :: rest)) (Token.kind_of_word hw) hge hgb

theorem pass (hs : Stand source tokens (Stmt.pass span).words) :
    (Stmt.pass span).ReadAs source tokens t := by
  obtain ⟨w, rest, rfl, hw, -, hrest⟩ := hs.cons
  obtain ⟨nl, rfl, hnl, -⟩ := hrest.single
  refine ⟨.branch .passStatement [.leaf .kwPass w], _, rfl, rfl, ?_⟩
  exact .passed (s := t.before [w, nl]) (Token.kind_of_word hw) (Token.kind_of_word hnl)

theorem ret (h : value.isPrintable = true)
    (hs : Stand source tokens (Stmt.ret span value).words) :
    (Stmt.ret span value).ReadAs source tokens t := by
  obtain ⟨w, rest, rfl, hw, -, hrest⟩ := hs.cons
  obtain ⟨as, nl, n, e', rfl, has, hnl, hn, he, hread⟩ := Expr.readLine t h hrest
  have hstart := (has.startsExpression (t := t) hnl).1
  have hlower := ofStmt_returnValue source (.leaf .kwReturn w) n
  rw [hn] at hlower
  refine ⟨_, _, hlower, ?_, ?_⟩
  · change Stmt.ret _ e'.unplaced = _
    rw [he]
    rfl
  · refine .returnedValue (s := t.before (w :: (as ++ [nl]))) (t := t.before [nl])
      (Token.kind_of_word hw) ?_ hread hnl
    intro hk
    rw [Stream.advance_before] at hk
    rw [hk] at hstart
    cases hstart

theorem expr (h : value.isPrintable = true)
    (hs : Stand source tokens (Stmt.expr span value).words) :
    (Stmt.expr span value).ReadAs source tokens t := by
  obtain ⟨as, nl, n, e', rfl, has, hnl, hn, he, hread⟩ := Expr.readLine t h hs
  obtain ⟨hstart, hnext⟩ := has.startsExpression (t := t) hnl
  have hlower := ofStmt_expr source n
  rw [hn] at hlower
  refine ⟨_, _, hlower, ?_, ?_⟩
  · change Stmt.expr _ e'.unplaced = _
    rw [he]
    rfl
  · refine .expression (t := t.before [nl]) ?_ (fun _ => hnext) hread hnl
    generalize (t.before (as ++ [nl])).kind = k at hstart
    cases k <;> first | rfl | cases hstart

end Stmt.ReadAs

mutual

/-- A statement is read by its first word, wherever no arm of a condition follows. -/
theorem Stmt.read (source : String) (s : Stmt) (h : s.isPrintable = true) (tokens : List Token)
    (t : Stream) (hs : Stand source tokens s.words) (ht : t.kind.EndsArms) :
    s.ReadAs source tokens t := by
  cases s with
  | assign =>
    rw [isPrintable, Bool.and_eq_true] at h
    exact .assign h.2 hs
  | init =>
    simp only [isPrintable, Bool.and_eq_true] at h
    exact .init h.1.2 h.2 hs
  | define _ _ params result ss =>
    simp only [isPrintable, Bool.and_eq_true] at h
    obtain ⟨⟨⟨⟨-, hparams⟩, hresult⟩, -⟩, hss⟩ := h
    exact .define hparams hresult (readBlock source ss hss) hs
  | ifElse _ cond yes no =>
    simp only [isPrintable, Bool.and_eq_true] at h
    obtain ⟨⟨⟨hcond, -⟩, hyes⟩, hno⟩ := h
    exact .ifElse hcond (readBlock source yes hyes) (readBlock source no hno) hs ht
  | ifElif _ cond yes cond' yes' no =>
    simp only [isPrintable, Bool.and_eq_true] at h
    obtain ⟨⟨⟨⟨⟨⟨hcond, -⟩, hyes⟩, hcond'⟩, -⟩, hyes'⟩, hno⟩ := h
    exact .ifElif hcond (readBlock source yes hyes) hcond' (readBlock source yes' hyes')
      (readBlock source no hno) hs ht
  | whileDo _ cond ss =>
    simp only [isPrintable, Bool.and_eq_true] at h
    obtain ⟨⟨hcond, -⟩, hss⟩ := h
    exact .whileDo hcond (readBlock source ss hss) hs
  | pass => exact .pass hs
  | ret => exact .ret h hs
  | expr => exact .expr h hs
termination_by sizeOf s

theorem Stmt.readBlock (source : String) (ss : List Stmt) (h : Stmt.areAllPrintable ss = true) :
    Stmt.BlockReadable source ss := by
  intro tokens t d hs hd
  match ss with
  | [] =>
    rw [hs.nil]
    exact ⟨[], [], rfl, rfl, .endBlock (s := t.before [d]) hd⟩
  | s :: ss =>
    rw [areAllPrintable, Bool.and_eq_true] at h
    obtain ⟨as, bs, rfl, has, hbs⟩ := Stand.append (show Stand source tokens (s.words ++ _) from hs)
    obtain ⟨ns, ss', hns, hu, hg⟩ := readBlock source ss h.2 bs t d hbs hd
    have hnext := Stmt.endsArms_before (t := t.before [d]) hbs
      (by rw [Stream.kind_before, hd]; exact ⟨by decide, by decide⟩)
    rw [← Stream.before_append] at hnext
    obtain ⟨n, s', hn, hs', hgs⟩ := s.read source h.1 as (t.before (bs ++ [d])) has hnext
    obtain ⟨x, as, rfl, hx⟩ := Stmt.opens has
    refine ⟨n :: ns, s' :: ss', ?_, ?_, ?_⟩
    · rw [ofStmts_cons, hn, hns]
      rfl
    · rw [unplacedAll, hs', hu, unplacedAll]
    · rw [List.append_assoc, Stream.before_append]
      refine .moreBlock (Stream.more_before _ _ _ ?_) ?_ hgs hg
      · exact fun hk => by rw [hk] at hx; cases hx
      · exact fun hk => by rw [Stream.kind_before] at hk; rw [hk] at hx; cases hx
termination_by sizeOf ss

end

/-- The statements of a program are read up to the end of its text. -/
theorem Stmt.readScript (source : String) (ss : List Stmt) (h : Stmt.areAllPrintable ss = true)
    (tokens : List Token) (t : Stream) (hs : Stand source tokens (Stmt.allWords ss))
    (ht : t.kind = .eof) : ∃ ns ss', ofStmts source ns = .ok ss' ∧
      Stmt.unplacedAll ss' = Stmt.unplacedAll ss ∧ Gives script (t.before tokens) ns t := by
  induction ss generalizing tokens with
  | nil =>
    rw [Stand.nil hs]
    refine ⟨[], [], rfl, rfl, .endScript (s := t) ?_⟩
    rw [Stream.more, ht]
    simp
  | cons s ss ih =>
    rw [areAllPrintable, Bool.and_eq_true] at h
    obtain ⟨as, bs, rfl, has, hbs⟩ := Stand.append (show Stand source tokens (s.words ++ _) from hs)
    obtain ⟨ns, ss', hns, hu, hg⟩ := ih h.2 bs hbs
    have hnext := endsArms_before (t := t) hbs (by rw [ht]; exact ⟨by decide, by decide⟩)
    obtain ⟨n, s', hn, hs', hgs⟩ := s.read source h.1 as (t.before bs) has hnext
    obtain ⟨x, as, rfl, hx⟩ := opens has
    refine ⟨n :: ns, s' :: ss', ?_, ?_, ?_⟩
    · rw [ofStmts_cons, hn, hns]
      rfl
    · rw [unplacedAll, hs', hu, unplacedAll]
    · rw [Stream.before_append]
      refine .moreScript (Stream.more_before _ _ _ ?_) hgs hg
      exact fun hk => by rw [hk] at hx; cases hx

/-- The text of a program is parsed as the program, up to the places of its parts. -/
theorem Program.parse_render (p : Program) (width : Nat) (file : String)
    (hw : 0 < width) (hp : p.isPrintable = true) :
    ∃ q, Program.parse (p.render width) file = .ok q ∧ q.unplaced = p.unplaced := by
  obtain ⟨tokens, hscan, hwords⟩ := Program.scan_render hw hp file
  have hstand : Stand (p.render width) tokens (Stmt.allWords p.body ++ [⟨.eof, "EOF"⟩]) :=
    ⟨hwords, Token.scan_spelled hscan⟩
  obtain ⟨as, bs, rfl, has, hbs⟩ := hstand.append
  obtain ⟨mark, rfl, hmark, -⟩ := hbs.single
  have hkind : mark.kind = .eof := Token.kind_of_word hmark
  have hstream : streamOf (p.render width) file = .ok (Stream.before ⟨[mark], mark⟩ as) := by
    rw [streamOf, hscan]
    change Except.ok (Stream.mk (as ++ [mark]) ((as ++ [mark]).getLastD _)) = _
    rw [List.getLastD_eq_getLast?, List.getLast?_append_of_ne_nil _ (List.cons_ne_nil _ _)]
    rfl
  obtain ⟨ns, ss', hns, hu, hg⟩ :=
    Stmt.readScript (p.render width) p.body hp as ⟨[mark], mark⟩ has hkind
  obtain ⟨tree, htree, hscript, hchildren⟩ := hg.parse (by
    change awaitsOperand mark.kind = false
    rw [hkind]
    rfl)
  refine ⟨⟨ss'⟩, ?_, ?_⟩
  · have hlower : ofTree tree (p.render width) = .ok ⟨ss'⟩ := by
      rw [ofTree, if_pos hscript, hchildren, hns]
      rfl
    have hof : (ofStream (Stream.before ⟨[mark], mark⟩ as)).1 = .ok tree := by
      rw [ofStream, htree]
    rw [Program.parse, hstream]
    change (ofStream _).1 >>= _ = _
    rw [hof]
    exact hlower
  · rw [unplaced, hu]
    rfl

/-- A definition with two kinds of condition in it, and operators that need parentheses. -/
def Program.sample : Program :=
  ⟨[.define .nowhere "f" [⟨"a", .int, .nowhere⟩, ⟨"b", .bool, .nowhere⟩] .int
      [.ifElif .nowhere (.unary .nowhere .not (.var .nowhere "b"))
        [.whileDo .nowhere (.boolLit .nowhere true) [.pass .nowhere]]
        (.binary .nowhere .is (.unary .nowhere .not (.var .nowhere "b")) (.noneLit .nowhere))
        [.assign .nowhere "a" (.binary .nowhere .sub (.var .nowhere "a")
          (.binary .nowhere .sub (.intLit .nowhere 2)
            (.unary .nowhere .neg (.unary .nowhere .neg (.intLit .nowhere 1)))))]
        [],
      .ret .nowhere (.call .nowhere "f" [.var .nowhere "a", .boolLit .nowhere false])],
    .expr .nowhere (.print .nowhere (.binary .nowhere .mul
      (.binary .nowhere .add (.intLit .nowhere 1) (.intLit .nowhere 2)) (.intLit .nowhere 3)))]⟩

theorem Program.parse_render_sample :
    Program.sample.isPrintable = true ∧
      ∃ q, Program.parse (Program.sample.render 4) "f" = .ok q ∧
        q.unplaced = Program.sample.unplaced :=
  have h : Program.sample.isPrintable = true := by decide +kernel
  ⟨h, parse_render Program.sample 4 "f" (by decide) h⟩

end StackScript
