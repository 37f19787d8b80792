import StackScript.Proofs.Parsed

namespace StackScript

namespace Node

def argumentCount (list : List Node) : Nat :=
  list.countP fun n => n.kind != .openParen && n.kind != .closeParen && n.kind != .comma

/-- The node stands for nothing that a program has, and what is said about it. -/
inductive Refused (source : String) : Node → Diagnostic → Prop where
  | string {span : Span} {children : List Node} :
    Refused source (.mk .string span children) (unsupported "expr" span source)
  /-- The operators `and` and `or`. -/
  | logic {span : Span} {children : List Node} :
    Refused source (.mk .logicOp span children) (unsupported "expr" span source)
  | secondElif {span : Span} {children rest : List Node} {first second : Node} :
    children.filter (fun n => n.kind = .kwElif) = first :: second :: rest →
    Refused source (.mk .ifStatement span children) (unsupported "stmt" second.span source)
  | callee {span : Span} {callee : Node} {rest : List Node} : callee.kind ≠ .variableName →
    Refused source (.mk .callExpression span (callee :: rest))
      (unsupported "expr" callee.span source)
  | typeName {span : Span} {mark name : Node} {rest : List Node} :
    name.text source ∉ ["int", "bool", "None"] →
    Refused source (.mk .typeDef span (mark :: name :: rest))
      ⟨.unknownType (name.text source), name.span.first⟩
  | number {span : Span} {children : List Node} :
    2147483647 < Text.digitsValue (span.text source).toList →
    Refused source (.mk .number span children) ⟨.numberParse (span.text source), span.first⟩
  | printing {span : Span} {callee list : Node} {rest : List Node} :
    callee.kind = .variableName → callee.text source = "print" → argumentCount list.children ≠ 1 →
    Refused source (.mk .callExpression span (callee :: list :: rest))
      ⟨.unexpectedArguments 1 (argumentCount list.children), span.first⟩

def Kind.refusable : Kind → Bool
  | .string | .logicOp | .ifStatement | .callExpression | .typeDef | .number => true
  | _ => false

theorem Refused.refusable {source : String} {n : Node} {d : Diagnostic} (h : Refused source n d) :
    n.kind.refusable = true := by
  cases h <;> rfl

theorem not_refused {source : String} {n : Node} (h : n.kind.refusable = false) (d : Diagnostic) :
    ¬ Refused source n d := by
  intro hd
  rw [hd.refusable] at h
  cases h

end Node

namespace Program

open Node StackScript.Tree

/-- The reading fails if and only if one of the nodes is refused, and then it says so of one. -/
structure Judged {α : Type} (source : String) (ns : List Node) (r : Except Diagnostic α) :
    Prop where
  sound : ∀ d, r = .error d → ∃ n ∈ ns, Refused source n d
  complete : ∀ n ∈ ns, ∀ d, Refused source n d → ∃ e, r = .error e

namespace Judged

variable {α β : Type} {source : String} {ns ms : List Node} {n : Node} {r : Except Diagnostic α}

theorem pure {a : α} : Judged source [] (.ok a : Except Diagnostic α) :=
  ⟨by simp, by simp⟩

theorem error {d : Diagnostic} (hn : n ∈ ns) (h : Refused source n d) :
    Judged source ns (.error d : Except Diagnostic α) := by
  refine ⟨fun e he => ?_, fun _ _ _ _ => ⟨d, rfl⟩⟩
  cases he
  exact ⟨n, hn, h⟩

/-- Reading one part after the other fails if a node of either is refused; the first part decides
what is said. -/
theorem bind {f : α → Except Diagnostic β} (hr : Judged source ns r)
    (hf : ∀ a, r = .ok a → Judged source ms (f a)) : Judged source (ns ++ ms) (r >>= f) := by
  cases r with
  | error d =>
    obtain ⟨n, hn, h⟩ := hr.sound d rfl
    exact error (List.mem_append_left ms hn) h
  | ok a =>
    have hf := hf a rfl
    refine ⟨fun d hd => ?_, fun n hn d hd => ?_⟩
    · obtain ⟨n, hn, h⟩ := hf.sound d hd
      exact ⟨n, List.mem_append_right ns hn, h⟩
    · rcases List.mem_append.mp hn with hn | hn
      · obtain ⟨e, he⟩ := hr.complete n hn d hd
        cases he
      · exact hf.complete n hn d hd

theorem map {f : α → β} (hr : Judged source ns r) :
    Judged source ns (r >>= fun a => (Pure.pure (f a) : Except Diagnostic β)) := by
  have h := hr.bind (f := fun a => (Pure.pure (f a) : Except Diagnostic β))
    (fun _ _ => pure)
  rwa [List.append_nil] at h

/-- A node that is not refused makes no difference. -/
theorem cons (hn : ∀ d, ¬ Refused source n d) (hr : Judged source ns r) :
    Judged source (n :: ns) r := by
  refine ⟨fun d hd => ?_, fun m hm d hd => ?_⟩
  · obtain ⟨m, hm, h⟩ := hr.sound d hd
    exact ⟨m, List.mem_cons_of_mem n hm, h⟩
  · rcases List.mem_cons.mp hm with rfl | hm
    · exact absurd hd (hn d)
    · exact hr.complete m hm d hd

/-- The order of the nodes does not matter; a node is often judged after those below it. -/
theorem last (h : Judged source (ns ++ [n]) r) : Judged source (n :: ns) r := by
  have hm (m : Node) : m ∈ n :: ns ↔ m ∈ ns ++ [n] := by simp [or_comm]
  refine ⟨fun d hd => ?_, fun m hm' d hd => h.complete m ((hm m).mp hm') d hd⟩
  obtain ⟨m, hm', hd⟩ := h.sound d hd
  exact ⟨m, (hm m).mpr hm', hd⟩

end Judged

/-- A string of digits is a number unless it is too large. -/
theorem int32?_digits {text : String} (hne : text.toList ≠ [])
    (hd : text.toList.all Char.isDigit = true) :
    Text.int32? text = none ↔ 2147483647 < Text.digitsValue text.toList := by
  have hdigits : Text.digits? text.toList = some (Text.digitsValue text.toList) := if_pos ⟨hne, hd⟩
  have hunsigned {c : Char} {cs : List Char} (hc : c.isDigit = false) : text.toList ≠ c :: cs := by
    intro h
    rw [h, List.all_cons, hc] at hd
    cases hd
  unfold Text.int32?
  split
  · exact absurd ‹_› (hunsigned rfl)
  · exact absurd ‹_› (hunsigned rfl)
  · rw [hdigits, Option.map_some, Option.bind_some]
    split
    · rename_i hfits
      have hle : Text.digitsValue text.toList ≤ 2147483647 := Int.ofNat_le.mp hfits.2
      exact ⟨fun h => absurd h (Option.some_ne_none _), fun h => absurd h (Nat.not_lt.mpr hle)⟩
    · rename_i hlarge
      refine ⟨fun _ => Nat.lt_of_not_le fun hle => hlarge ⟨?_, Int.ofNat_le.mpr hle⟩, fun _ => rfl⟩
      have := Int.natCast_nonneg (Text.digitsValue text.toList)
      exact Int.le_trans (by decide) this

section Judging

variable {source : String}

/-- Of the operands, a string is refused, and a number that is too large. -/
theorem judged_leaf {t : Token} {kind : Node.Kind} (hk : operandKind? t.kind = some kind)
    (ht : t.Spelled source) : Judged source [leaf kind t] (ofExpr source (leaf kind t)) := by
  unfold operandKind? at hk
  split at hk <;> cases hk
  · rename_i hnum
    obtain ⟨hne, hd⟩ := ht.digits hnum
    have hrange := int32?_digits hne hd
    unfold leaf ofExpr
    dsimp only
    split
    · rename_i v hv
      refine .cons (fun d hd => ?_) .pure
      cases hd with
      | number hlarge =>
        rw [hrange.mpr hlarge] at hv
        cases hv
    · rename_i hv
      exact .error (List.mem_singleton_self _) (.number (hrange.mp hv))
  · unfold leaf ofExpr
    exact .cons (not_refused rfl) .pure
  · unfold leaf ofExpr
    exact .error (List.mem_singleton_self _) .string
  · unfold leaf ofExpr
    exact .cons (not_refused rfl) .pure
  · unfold leaf ofExpr
    exact .cons (not_refused rfl) .pure
  · unfold leaf ofExpr
    exact .cons (not_refused rfl) .pure

theorem judged_unaryOp {op : Token} (hop : op.kind = .kwNot ∨ op.kind = .dash)
    (ht : op.Spelled source) : Judged source [] (unaryOp source (leaf .unaryOp op)) := by
  have hsymbol : ∃ o, UnaryOp.ofSymbol? ((leaf .unaryOp op).text source) = some o := by
    change ∃ o, UnaryOp.ofSymbol? (op.span.text source) = some o
    rcases hop with hop | hop
    · rw [ht.text_eq (by rw [hop]; rfl)]
      exact ⟨.not, rfl⟩
    · rw [ht.text_eq (by rw [hop]; rfl)]
      exact ⟨.neg, rfl⟩
  obtain ⟨o, ho⟩ := hsymbol
  rw [unaryOp, ho]
  exact .pure

theorem judged_binaryOp {op : Token} {kind : Node.Kind} (hk : operatorKind? op.kind = some kind)
    (ht : op.Spelled source) : Judged source [leaf kind op] (binaryOp source (leaf kind op)) := by
  have known (kind : Node.Kind) (word : String) (o : BinaryOp) (hw : op.kind.spelling? = some word)
      (ho : BinaryOp.ofSymbol? word = some o) (hk : kind.refusable = false) :
      Judged source [leaf kind op] (binaryOp source (leaf kind op)) := by
    have hl : kind ≠ .logicOp := by
      rintro rfl
      cases hk
    have hs : BinaryOp.ofSymbol? ((leaf kind op).text source) = some o := by
      rw [← ho, ← ht.text_eq hw]
      rfl
    rw [binaryOp, kind_leaf, if_neg hl, hs]
    exact .cons (not_refused hk) .pure
  unfold operatorKind? at hk
  split at hk <;> cases hk
  all_goals first
    | exact .error (List.mem_singleton_self _) .logic
    | rename_i hop
      exact known _ _ _ (by rw [hop]; rfl) rfl rfl

/-- A print takes one argument. -/
theorem judged_callOf {callee list : Node} {rest : List Node} {span : Span} {args : List Expr}
    (hk : callee.kind = .variableName) (hlen : args.length = argumentCount list.children) :
    Judged source [.mk .callExpression span (callee :: list :: rest)]
      (callOf span (callee.text source) args) := by
  have fits (h : callee.text source = "print" → args.length = 1) (d : Diagnostic) :
      ¬ Refused source (.mk .callExpression span (callee :: list :: rest)) d := by
    intro hd
    cases hd with
    | callee hk' => exact hk' hk
    | printing _ hprint hcount => exact hcount (hlen ▸ h hprint)
  unfold callOf builtinArity?
  by_cases hprint : callee.text source = "print"
  · rw [if_pos hprint]
    dsimp only
    split
    · exact .cons (fits fun _ => rfl) .pure
    · rename_i hargs
      have hcount : argumentCount list.children ≠ 1 := by
        intro h
        obtain ⟨arg, rfl⟩ := List.length_eq_one_iff.mp (hlen.trans h)
        exact hargs arg rfl
      rw [hlen]
      exact .error (List.mem_singleton_self _) (.printing hk hprint hcount)
  · rw [if_neg hprint]
    exact .cons (fits fun h => absurd h hprint) .pure

/-- Only a name can be called. -/
theorem judged_call {callee : Node} {l : Token} {items : List Node}
    (hleaf : callee.kind = .variableName → callee.nodes = [callee])
    (hi : ∀ list, Judged source (nodesAll items) (ofArgs source list items) ∧
      ∀ args, ofArgs source list items = .ok args → args.length = argumentCount items) :
    Judged source
      (branch .callExpression [callee, branch .argList (leaf .openParen l :: items)]).nodes
      (ofExpr source
        (branch .callExpression [callee, branch .argList (leaf .openParen l :: items)])) := by
  rw [ofExpr_call]
  split
  · rename_i hk
    simp only [nodes_branch, nodesAll_cons, nodesAll_nil, hleaf hk, nodes_leaf, List.append_nil,
      List.singleton_append]
    refine .last (.cons (not_refused (by rw [hk]; rfl)) ?_)
    refine .cons (not_refused rfl) (.cons (not_refused rfl) ?_)
    exact (hi _).1.bind fun args hargs => judged_callOf hk ((hi _).2 args hargs)
  · rename_i hk
    exact .error (n := branch .callExpression _) List.mem_cons_self (.callee hk)

theorem ofAnnotation?_eq_none_iff (text : String) :
    Ty.ofAnnotation? text = none ↔ text ∉ ["int", "bool", "None"] := by
  unfold Ty.ofAnnotation?
  split <;> simp_all

/-- A type is one of the three words for types. -/
theorem judged_typeDef {node type : Node.Kind} {m t : Token} (hm : node.refusable = false)
    (ht : typeKind? t.kind = some type) :
    Judged source (branch .typeDef [leaf node m, leaf type t]).nodes
      (ofTypeDef source (branch .typeDef [leaf node m, leaf type t])) := by
  have htype : type.refusable = false := by
    unfold typeKind? at ht
    split at ht <;> cases ht <;> rfl
  rw [ofTypeDef_branch]
  refine .last (.cons (not_refused hm) (.cons (not_refused htype) ?_))
  cases h : Ty.ofAnnotation? ((leaf type t).text source) with
  | none =>
    exact .error (List.mem_singleton_self _) (.typeName ((ofAnnotation?_eq_none_iff _).mp h))
  | some result =>
    refine .cons (fun d hd => ?_) .pure
    cases hd with
    | typeName hname =>
      rw [(ofAnnotation?_eq_none_iff _).mpr hname] at h
      cases h

inductive ArmsJudged (source : String) : List Node → Prop where
  | none : ArmsJudged source []
  | elifArm {word : Token} {cond body : Node} {arms : List Node} :
    cond.kind ≠ .kwElif → Judged source cond.nodes (ofExpr source cond) → body.kind = .body →
    Judged source body.nodes (ofBody source body) → ArmsJudged source arms →
    ArmsJudged source (leaf .kwElif word :: cond :: body :: arms)
  | elseArm {word : Token} {body : Node} :
    body.kind = .body → Judged source body.nodes (ofBody source body) →
    ArmsJudged source [leaf .kwElse word, body]

theorem not_refused_if {span : Span} {children : List Node}
    (h : (children.filter fun n => n.kind = .kwElif).length ≤ 1) (d : Diagnostic) :
    ¬ Refused source (.mk .ifStatement span children) d := by
  intro hd
  cases hd with
  | secondElif hs =>
    rw [hs] at h
    simp at h

/-- A second `elif` is refused, whatever comes behind it. -/
theorem refused_if {word next last : Token} {cond yes cond' yes' : Node} {arms : List Node}
    (hck : cond.kind ≠ .kwElif) (hyk : yes.kind = .body) (hck' : cond'.kind ≠ .kwElif)
    (hyk' : yes'.kind = .body) :
    Refused source (branch .ifStatement (leaf .kwIf word :: cond :: yes :: leaf .kwElif next ::
      cond' :: yes' :: leaf .kwElif last :: arms)) (unsupported "stmt" last.span source) := by
  have hfilter : (leaf .kwIf word :: cond :: yes :: leaf .kwElif next :: cond' :: yes' ::
      leaf .kwElif last :: arms).filter (fun n => n.kind = .kwElif) =
      leaf .kwElif next :: leaf .kwElif last :: arms.filter fun n => n.kind = .kwElif := by
    simp [hck, hyk, hck', hyk']
  exact .secondElif hfilter

theorem judged_if {word : Token} {cond yes : Node} {arms : List Node} (hck : cond.kind ≠ .kwElif)
    (hc : Judged source cond.nodes (ofExpr source cond)) (hyk : yes.kind = .body)
    (hy : Judged source yes.nodes (ofBody source yes)) (ha : ArmsJudged source arms) :
    Judged source (branch .ifStatement (leaf .kwIf word :: cond :: yes :: arms)).nodes
      (ofStmt source (branch .ifStatement (leaf .kwIf word :: cond :: yes :: arms))) := by
  cases ha with
  | none =>
    rw [ofStmt_if]
    simp only [nodes_branch, nodesAll_cons, nodesAll_nil, nodes_leaf, List.append_nil,
      List.singleton_append]
    refine .cons (not_refused_if (by simp [hck, hyk])) (.cons (not_refused rfl) ?_)
    exact hc.bind fun _ _ => hy.map
  | elseArm hnk hn =>
    rw [ofStmt_ifElse]
    simp only [nodes_branch, nodesAll_cons, nodesAll_nil, nodes_leaf, List.append_nil,
      List.singleton_append]
    refine .cons (not_refused_if (by simp [hck, hyk, hnk])) (.cons (not_refused rfl) ?_)
    exact hc.bind fun _ _ => hy.bind fun _ _ => .cons (not_refused rfl) hn.map
  | @elifArm next cond' yes' _ hck' hc' hyk' hy' ha =>
    cases ha with
    | none =>
      rw [ofStmt_ifElif]
      simp only [nodes_branch, nodesAll_cons, nodesAll_nil, nodes_leaf, List.append_nil,
        List.singleton_append]
      refine .cons (not_refused_if (by simp [hck, hyk, hck', hyk'])) (.cons (not_refused rfl) ?_)
      exact hc.bind fun _ _ => hy.bind fun _ _ => .cons (not_refused rfl) <|
        hc'.bind fun _ _ => hy'.map
    | elseArm hnk hn =>
      rw [ofStmt_ifElifElse]
      simp only [nodes_branch, nodesAll_cons, nodesAll_nil, nodes_leaf, List.append_nil,
        List.singleton_append]
      refine .cons (not_refused_if (by simp [hck, hyk, hck', hyk', hnk]))
        (.cons (not_refused rfl) ?_)
      exact hc.bind fun _ _ => hy.bind fun _ _ => .cons (not_refused rfl) <|
        hc'.bind fun _ _ => hy'.bind fun _ _ => .cons (not_refused rfl) hn.map
    | @elifArm last cond₂ yes₂ arms =>
      have hself := @refused_if source word next last cond yes cond' yes'
        (cond₂ :: yes₂ :: arms) hck hyk hck' hyk'
      rw [ofStmt_ifElifElif]
      simp only [nodes_branch, nodesAll_cons, nodes_leaf, List.singleton_append]
      refine .last ?_
      simp only [List.append_assoc, List.cons_append]
      refine .cons (not_refused rfl) <| hc.bind fun _ _ => hy.bind fun _ _ =>
        .cons (not_refused rfl) <| hc'.bind fun _ _ => hy'.bind fun _ _ => ?_
      exact .error (by simp) hself

theorem judged_assignment {name op : Token} {as : List Token} {typed : List Node} {value : Node}
    (hb : Built (.typeIf .colon .colon) as typed)
    (ht : ∀ n ∈ typed, Judged source n.nodes (ofTypeDef source n))
    (hv : Judged source value.nodes (ofExpr source value)) :
    Judged source
      (branch .assignStatement
        (leaf .variableName name :: typed ++ [leaf .assignOp op, value])).nodes
      (ofStmt source
        (branch .assignStatement
          (leaf .variableName name :: typed ++ [leaf .assignOp op, value]))) := by
  rw [List.cons_append]
  cases hb with
  | untyped =>
    rw [List.nil_append, ofStmt_assign _ _ _ _ rfl]
    refine .cons (not_refused rfl) (.cons (not_refused rfl) (.cons (not_refused rfl) ?_))
    rw [nodesAll_cons, nodesAll_nil, List.append_nil]
    exact hv.map
  | typed =>
    rw [List.singleton_append, ofStmt_init _ _ _ _ _ rfl]
    refine .cons (not_refused rfl) (.cons (not_refused rfl) ?_)
    refine (List.forall_mem_singleton.mp ht).bind fun _ _ => .cons (not_refused rfl) ?_
    rw [nodesAll_cons, nodesAll_nil, List.append_nil]
    exact hv.map

theorem judged_definition {word name l : Token} {as : List Token} {items result : List Node}
    {body : Node} (hp : ∀ list, Judged source (nodesAll items) (ofParams source list items))
    (hr : Built (.typeIf .arrow .arrow) as result)
    (ht : ∀ n ∈ result, Judged source n.nodes (ofTypeDef source n)) (hbk : body.kind = .body)
    (hb : Judged source body.nodes (ofBody source body)) :
    Judged source
      (branch .functionDefinition (leaf .kwDef word :: leaf .variableName name ::
        branch .paramList (leaf .openParen l :: items) :: result ++ [body])).nodes
      (ofStmt source
        (branch .functionDefinition (leaf .kwDef word :: leaf .variableName name ::
          branch .paramList (leaf .openParen l :: items) :: result ++ [body]))) := by
  simp only [List.cons_append]
  cases hr with
  | untyped =>
    rw [List.nil_append, ofStmt_define _ _ _ _ _ rfl hbk]
    refine .cons (not_refused rfl) (.cons (not_refused rfl) (.cons (not_refused rfl) ?_))
    refine .cons (not_refused rfl) (.cons (not_refused rfl) ((hp _).bind fun _ _ => ?_))
    rw [nodesAll_cons, nodesAll_nil, List.append_nil]
    exact hb.map
  | typed =>
    rw [List.singleton_append, ofStmt_defineTyped _ _ _ _ _ _ rfl rfl]
    refine .cons (not_refused rfl) (.cons (not_refused rfl) (.cons (not_refused rfl) ?_))
    refine .cons (not_refused rfl) (.cons (not_refused rfl) ((hp _).bind fun _ _ => ?_))
    refine (List.forall_mem_singleton.mp ht).bind fun _ _ => ?_
    rw [nodesAll_cons, nodesAll_nil, List.append_nil]
    exact hb.map

/-- What a part of a tree is to the reading of programs. -/
def PartJudged (source : String) (p : Part) (ns : List Node) : Prop :=
  match p with
  | .expr => ∀ n ∈ ns, Judged source n.nodes (ofExpr source n)
  | .arguments => ∀ list, Judged source (nodesAll ns) (ofArgs source list ns) ∧
      ∀ args, ofArgs source list ns = .ok args → args.length = argumentCount ns
  | .typeIf _ mark => mark.refusable = false →
      ∀ n ∈ ns, n.kind = .typeDef ∧ Judged source n.nodes (ofTypeDef source n)
  | .parameters => ∀ list, Judged source (nodesAll ns) (ofParams source list ns)
  | .stmt => ∀ n ∈ ns, Judged source n.nodes (ofStmt source n)
  | .arms => ArmsJudged source ns
  | .body => ∀ n ∈ ns, n.kind = .body ∧ Judged source n.nodes (ofBody source n)
  | .stmts => Judged source (nodesAll ns) (ofStmts source ns)

/-- Reading goes by the places of the children and always finds them, whatever part has been
built. -/
theorem Built.judged {p : Part} {used : List Token} {ns : List Node} (h : Built p used ns)
    (hs : ∀ t ∈ used, t.Spelled source) : PartJudged source p ns := by
  induction h with
  | leaf hk =>
    refine List.forall_mem_singleton.mpr ?_
    exact judged_leaf hk (hs _ List.mem_cons_self)
  | prefixed hop _ ih =>
    refine List.forall_mem_singleton.mpr ?_
    have hn := List.forall_mem_singleton.mp (ih fun t ht => hs t (List.mem_cons_of_mem _ ht))
    rw [ofExpr_unary]
    simp only [nodes_branch, nodesAll_cons, nodesAll_nil, nodes_leaf, List.append_nil,
      List.singleton_append]
    refine .cons (not_refused rfl) (.cons (not_refused rfl) ?_)
    exact (judged_unaryOp hop (hs _ List.mem_cons_self)).bind fun _ _ => hn.map
  | grouped _ _ _ ih =>
    refine List.forall_mem_singleton.mpr ?_
    have hn := List.forall_mem_singleton.mp (ih fun t ht => hs t (by simp [ht]))
    rw [ofExpr_grouped]
    simp only [nodes_branch, nodesAll_cons, nodesAll_nil, nodes_leaf, List.append_nil,
      List.singleton_append]
    refine .cons (not_refused rfl) (.cons (not_refused rfl) ?_)
    exact hn.bind fun _ _ => .cons (not_refused rfl) .pure
  | binary _ hop _ ihl ihr =>
    refine List.forall_mem_singleton.mpr ?_
    have hl := List.forall_mem_singleton.mp (ihl fun t ht => hs t (by simp [ht]))
    have hr := List.forall_mem_singleton.mp (ihr fun t ht => hs t (by simp [ht]))
    rw [ofExpr_binary]
    simp only [nodes_branch, nodesAll_cons, nodesAll_nil, nodes_leaf, List.append_nil]
    refine .cons (not_refused rfl) (hl.bind fun _ _ => ?_)
    exact (judged_binaryOp hop (hs _ (by simp))).bind fun _ _ => hr.map
  | call hc _ _ _ ihi =>
    refine List.forall_mem_singleton.mpr ?_
    exact judged_call (Built.expr_kind hc).2.2.2.2 (ihi fun t ht => hs t (by simp [ht]))
  | noArgument =>
    intro list
    refine ⟨.cons (not_refused rfl) .pure, fun args hargs => ?_⟩
    cases hargs
    rfl
  | lastArgument hn _ ih =>
    intro list
    obtain ⟨hclose, hcomma, hopen, -⟩ := Built.expr_kind hn
    have hn := List.forall_mem_singleton.mp (ih fun t ht => hs t (by simp [ht]))
    rw [ofArgs_last _ _ hclose]
    refine ⟨?_, fun args hargs => ?_⟩
    · exact hn.bind fun _ _ => .cons (not_refused rfl) .pure
    · obtain ⟨e, -, hargs⟩ := bind_eq_ok.mp hargs
      cases hargs
      simp [argumentCount, hclose, hcomma, hopen]
  | moreArguments hn _ _ ihn ihi =>
    intro list
    obtain ⟨hclose, hcomma, hopen, -⟩ := Built.expr_kind hn
    have hn := List.forall_mem_singleton.mp (ihn fun t ht => hs t (by simp [ht]))
    obtain ⟨hi, hlen⟩ := ihi (fun t ht => hs t (by simp [ht])) list
    rw [ofArgs_more _ _ hclose]
    refine ⟨?_, fun args hargs => ?_⟩
    · exact hn.bind fun _ _ => .cons (not_refused rfl) hi.map
    · obtain ⟨e, -, hargs⟩ := bind_eq_ok.mp hargs
      obtain ⟨es, hes, hargs⟩ := bind_eq_ok.mp hargs
      cases hargs
      simp only [List.length_cons, hlen es hes]
      simp [argumentCount, hclose, hcomma, hopen]
  | untyped =>
    rintro - n ⟨⟩
  | typed hm ht =>
    intro hmark
    exact List.forall_mem_singleton.mpr ⟨rfl, judged_typeDef hmark ht⟩
  | noParameter => exact fun list => .cons (not_refused rfl) .pure
  | lastParameter _ _ _ ih =>
    intro list
    have ht := (List.forall_mem_singleton.mp (ih (fun t ht => hs t (by simp [ht])) rfl)).2
    rw [ofParams_last]
    refine .cons (not_refused rfl) (ht.bind fun _ _ => ?_)
    exact .cons (not_refused rfl) .pure
  | moreParameters _ _ _ _ iht ihi =>
    intro list
    have ht := (List.forall_mem_singleton.mp (iht (fun t ht => hs t (by simp [ht])) rfl)).2
    have hi := ihi (fun t ht => hs t (by simp [ht])) list
    rw [ofParams_more]
    refine .cons (not_refused rfl) (ht.bind fun _ _ => ?_)
    exact .cons (not_refused rfl) hi.map
  | assigned _ ht _ _ _ iht ihv =>
    have hv := List.forall_mem_singleton.mp (ihv fun t ht => hs t (by simp [ht]))
    refine List.forall_mem_singleton.mpr (judged_assignment ht ?_ hv)
    exact fun n hn => (iht (fun t ht => hs t (by simp [ht])) rfl n hn).2
  | returned =>
    refine List.forall_mem_singleton.mpr ?_
    exact .cons (not_refused rfl) (.cons (not_refused rfl) .pure)
  | returnedValue _ _ _ ih =>
    refine List.forall_mem_singleton.mpr ?_
    have hv := List.forall_mem_singleton.mp (ih fun t ht => hs t (by simp [ht]))
    rw [ofStmt_returnValue]
    simp only [nodes_branch, nodesAll_cons, nodesAll_nil, nodes_leaf, List.append_nil,
      List.singleton_append]
    exact .cons (not_refused rfl) (.cons (not_refused rfl) hv.map)
  | passed =>
    refine List.forall_mem_singleton.mpr ?_
    exact .cons (not_refused rfl) (.cons (not_refused rfl) .pure)
  | expression _ _ ih =>
    refine List.forall_mem_singleton.mpr ?_
    have hv := List.forall_mem_singleton.mp (ih fun t ht => hs t (by simp [ht]))
    rw [ofStmt_expr]
    simp only [nodes_branch, nodesAll_cons, nodesAll_nil, List.append_nil]
    exact .cons (not_refused rfl) hv.map
  | defined _ _ _ _ hr _ ihp iht ihb =>
    obtain ⟨hbk, hb⟩ := List.forall_mem_singleton.mp (ihb fun t ht => hs t (by simp [ht]))
    refine List.forall_mem_singleton.mpr (judged_definition ?_ hr ?_ hbk hb)
    · exact ihp fun t ht => hs t (by simp [ht])
    · exact fun n hn => (iht (fun t ht => hs t (by simp [ht])) rfl n hn).2
  | chosen _ hc _ _ ihc ihb iha =>
    refine List.forall_mem_singleton.mpr ?_
    have hcond := List.forall_mem_singleton.mp (ihc fun t ht => hs t (by simp [ht]))
    have hbody := List.forall_mem_singleton.mp (ihb fun t ht => hs t (by simp [ht]))
    have harms := iha fun t ht => hs t (by simp [ht])
    exact judged_if (Built.expr_kind hc).2.2.2.1 hcond hbody.1 hbody.2 harms
  | repeated _ _ _ ihc ihb =>
    refine List.forall_mem_singleton.mpr ?_
    have hcond := List.forall_mem_singleton.mp (ihc fun t ht => hs t (by simp [ht]))
    have hbody := List.forall_mem_singleton.mp (ihb fun t ht => hs t (by simp [ht]))
    rw [ofStmt_while]
    simp only [nodes_branch, nodesAll_cons, nodesAll_nil, nodes_leaf, List.append_nil,
      List.singleton_append]
    refine .cons (not_refused rfl) (.cons (not_refused rfl) ?_)
    exact hcond.bind fun _ _ => hbody.2.map
  | noArm => exact .none
  | elifArm _ hc _ _ ihc ihb iha =>
    have hcond := List.forall_mem_singleton.mp (ihc fun t ht => hs t (by simp [ht]))
    have hbody := List.forall_mem_singleton.mp (ihb fun t ht => hs t (by simp [ht]))
    have harms := iha fun t ht => hs t (by simp [ht])
    exact .elifArm (Built.expr_kind hc).2.2.2.1 hcond hbody.1 hbody.2 harms
  | elseArm _ _ ihb =>
    have hbody := List.forall_mem_singleton.mp (ihb fun t ht => hs t (by simp [ht]))
    exact .elseArm hbody.1 hbody.2
  | inline _ _ _ ih =>
    refine List.forall_mem_singleton.mpr ⟨rfl, ?_⟩
    have hn := List.forall_mem_singleton.mp (ih fun t ht => hs t (by simp [ht]))
    rw [ofBody_branch, ofStmts_cons]
    refine .cons (not_refused rfl) (.cons (not_refused rfl) ?_)
    exact hn.bind fun _ _ => .pure
  | indented _ _ _ _ _ ih =>
    refine List.forall_mem_singleton.mpr ⟨rfl, ?_⟩
    rw [ofBody_branch]
    refine .cons (not_refused rfl) (.cons (not_refused rfl) ?_)
    exact ih fun t ht => hs t (by simp [ht])
  | noStmt => exact .pure
  | moreStmts _ _ ihn ihs =>
    have hn := List.forall_mem_singleton.mp (ihn fun t ht => hs t (by simp [ht]))
    have hns := ihs fun t ht => hs t (by simp [ht])
    change Judged source _ (ofStmts source (_ :: _))
    rw [ofStmts_cons]
    exact hn.bind fun _ _ => hns.map

end Judging

theorem judged_ofTree {source : String} {s t : Stream} {tree : Node} (h : Tree.parse s = .ok tree t)
    (hs : ∀ x, x ∈ s.rest ∨ x = s.last → x.Spelled source) :
    Judged source tree.nodes (ofTree tree source) := by
  obtain ⟨used, ns, htakes, hbuilt, -, hkind, hchildren⟩ := parse_built h
  have hns : Judged source (nodesAll ns) (ofStmts source ns) :=
    Built.judged hbuilt fun x hx => hs x (htakes.mem x hx)
  cases tree with
  | mk kind span children =>
    obtain rfl : kind = .script := hkind
    obtain rfl : children = ns := hchildren
    rw [ofTree, Node.kind, if_pos rfl]
    exact .cons (not_refused rfl) hns.map

/-- A text that has a tree is a program unless one of the tree's nodes is refused; the complaint is
always about such a node. -/
theorem ofTree_refuses {source file : String} {s rest : Stream} {tree : Node}
    (hs : streamOf source file = .ok s) (ht : ofStream s = (.ok tree, rest)) :
    ((∃ d, ofTree tree source = .error d) ↔ ∃ n ∈ tree.nodes, ∃ d, Refused source n d) ∧
      ∀ d, ofTree tree source = .error d → ∃ n ∈ tree.nodes, Refused source n d := by
  have hparse : Tree.parse s = .ok tree rest := by
    unfold ofStream at ht
    split at ht <;> cases ht
    assumption
  have hjudged := judged_ofTree hparse (spelled_of_streamOf hs)
  refine ⟨⟨?_, ?_⟩, hjudged.sound⟩
  · rintro ⟨d, hd⟩
    obtain ⟨n, hn, hrefused⟩ := hjudged.sound d hd
    exact ⟨n, hn, d, hrefused⟩
  · rintro ⟨n, hn, d, hrefused⟩
    exact hjudged.complete n hn d hrefused

def treeOf? (source file : String) : Option Node :=
  (streamOf source file).toOption.bind fun s => (ofStream s).1.toOption

theorem exists_of_treeOf? {source file : String} {test : Node → Bool}
    (h : (treeOf? source file).any test = true) : ∃ s tree rest,
      streamOf source file = .ok s ∧ ofStream s = (.ok tree, rest) ∧ test tree = true := by
  unfold treeOf? at h
  cases hs : streamOf source file with
  | error d =>
    rw [hs] at h
    cases h
  | ok s =>
    rw [hs] at h
    cases ht : ofStream s with
    | mk result rest =>
      cases result with
      | error d =>
        simp [Except.toOption, ht] at h
      | ok tree =>
        simp [Except.toOption, ht] at h
        exact ⟨s, tree, rest, rfl, ht, h⟩

/-- A tree with a second `elif`, and a string behind it that is never reached. -/
theorem ofTree_refuses_second_elif : ∃ s tree rest d,
    streamOf "if a:\n  pass\nelif b: pass\nelif c: x = \"u\" + 2" "f" = .ok s ∧
      ofStream s = (.ok tree, rest) ∧ tree.nodes.length = 25 ∧
      ofTree tree "if a:\n  pass\nelif b: pass\nelif c: x = \"u\" + 2" = .error d ∧
      ∃ n ∈ tree.nodes, Refused "if a:\n  pass\nelif b: pass\nelif c: x = \"u\" + 2" n d := by
  generalize htext : "if a:\n  pass\nelif b: pass\nelif c: x = \"u\" + 2" = text
  have htest : (treeOf? text "f").any (fun tree =>
      tree.nodes.length = 25 && (ofTree tree text).toOption.isNone) = true := by
    subst htext
    decide +kernel
  obtain ⟨s, tree, rest, hs, ht, htree⟩ := exists_of_treeOf? htest
  rw [Bool.and_eq_true, decide_eq_true_eq] at htree
  cases hd : ofTree tree text with
  | ok p =>
    rw [hd] at htree
    cases htree.2
  | error d =>
    exact ⟨s, tree, rest, d, hs, ht, htree.1, hd, (ofTree_refuses hs ht).2 d hd⟩

end Program

end StackScript
