import StackScript.Proofs.Rendering
import StackScript.Proofs.Scopes
import StackScript.Proofs.Shapes
import StackScript.Proofs.Spelling

namespace StackScript

theorem isBare_of_isWordChar {c : Char} (h : Token.isWordChar c = true) : Form.isBare c = true := by
  have hne (e : Char) (he : Token.isWordChar e = false) : c ≠ e := by
    rintro rfl
    rw [h] at he
    cases he
  have hsix : c ≠ ' ' ∧ c ≠ '\t' ∧ c ≠ '\n' ∧ c ≠ '\r' ∧ c ≠ '(' ∧ c ≠ ')' ∧ c ≠ '"' ∧ c ≠ ';' := by
    refine ⟨?_, ?_, ?_, ?_, ?_, ?_, ?_, ?_⟩ <;> exact hne _ (by decide)
  simp [Form.isBare, Form.isBlank, hsix]

def Ensures {α : Type} (P : α → Prop) (r : Except Diagnostic α) : Prop := ∀ a, r = .ok a → P a

namespace Ensures

variable {α β : Type} {P : α → Prop} {Q : β → Prop} {r : Except Diagnostic α}

theorem ok {a : α} (h : P a) : Ensures P (.ok a) := by
  intro b hb
  cases hb
  exact h

theorem error {d : Diagnostic} : Ensures P (.error d) := by
  intro b hb
  cases hb

theorem any : Ensures (fun _ => True) r := fun _ _ => trivial

theorem bind {f : α → Except Diagnostic β} (hr : Ensures P r) (hf : ∀ a, P a → Ensures Q (f a)) :
    Ensures Q (r >>= f) := by
  intro b hb
  obtain ⟨a, ha, hb⟩ := bind_eq_ok.mp hb
  exact hf a (hr a ha) b hb

end Ensures

namespace Expr

mutual

def Named (P : String → Prop) : Expr → Prop
  | .noneLit _ | .boolLit .. | .intLit .. => True
  | .var _ name => P name
  | .unary _ _ operand => Named P operand
  | .binary _ _ left right => Named P left ∧ Named P right
  | .call _ callee args => P callee ∧ NamedAll P args
  | .print _ arg => Named P arg

def NamedAll (P : String → Prop) : List Expr → Prop
  | [] => True
  | e :: es => Named P e ∧ NamedAll P es

end

mutual

def Spanned (S : Span → Prop) : Expr → Prop
  | .noneLit span | .boolLit span _ | .intLit span _ | .var span _ => S span
  | .unary span _ operand => S span ∧ Spanned S operand
  | .binary span _ left right => S span ∧ Spanned S left ∧ Spanned S right
  | .call span _ args => S span ∧ SpannedAll S args
  | .print span arg => S span ∧ Spanned S arg

def SpannedAll (S : Span → Prop) : List Expr → Prop
  | [] => True
  | e :: es => Spanned S e ∧ SpannedAll S es

end

/-- An expression with names like `N` and spans like `S`. -/
structure Drawn (N : String → Prop) (S : Span → Prop) (e : Expr) : Prop where
  named : e.Named N
  spanned : e.Spanned S

structure DrawnAll (N : String → Prop) (S : Span → Prop) (es : List Expr) : Prop where
  named : NamedAll N es
  spanned : SpannedAll S es

section

variable {N : String → Prop} {S : Span → Prop} {e : Expr} {es : List Expr}

theorem DrawnAll.nil : DrawnAll N S [] := ⟨trivial, trivial⟩

theorem DrawnAll.cons (he : e.Drawn N S) (hes : DrawnAll N S es) : DrawnAll N S (e :: es) :=
  ⟨⟨he.named, hes.named⟩, he.spanned, hes.spanned⟩

/-- Another span of the same kind may be put in place of the first. -/
theorem Drawn.withSpan {span : Span} (he : e.Drawn N S) (h : S span) :
    (e.withSpan span).Drawn N S := by
  obtain ⟨hnamed, hspanned⟩ := he
  cases e with
  | noneLit | boolLit | intLit | var => exact ⟨hnamed, h⟩
  | unary | binary | call | print => exact ⟨hnamed, h, hspanned.2⟩

end

end Expr

namespace Stmt

mutual

def Named (P : String → Prop) : Stmt → Prop
  | .pass _ => True
  | .init _ name _ value | .assign _ name value => P name ∧ value.Named P
  | .expr _ value | .ret _ value => value.Named P
  | .ifElse _ cond yes no => cond.Named P ∧ NamedAll P yes ∧ NamedAll P no
  | .ifElif _ cond yes cond' yes' no =>
    cond.Named P ∧ NamedAll P yes ∧ cond'.Named P ∧ NamedAll P yes' ∧ NamedAll P no
  | .whileDo _ cond body => cond.Named P ∧ NamedAll P body
  | .define _ name params _ body => P name ∧ (∀ p ∈ params, P p.name) ∧ NamedAll P body

def NamedAll (P : String → Prop) : List Stmt → Prop
  | [] => True
  | s :: ss => Named P s ∧ NamedAll P ss

end

mutual

def Spanned (S : Span → Prop) : Stmt → Prop
  | .pass span => S span
  | .init span _ _ value | .assign span _ value | .expr span value | .ret span value =>
    S span ∧ value.Spanned S
  | .define span _ params _ body => S span ∧ (∀ p ∈ params, S p.span) ∧ SpannedAll S body
  | .ifElse span cond yes no => S span ∧ cond.Spanned S ∧ SpannedAll S yes ∧ SpannedAll S no
  | .ifElif span cond yes cond' yes' no =>
    S span ∧ cond.Spanned S ∧ SpannedAll S yes ∧ cond'.Spanned S ∧ SpannedAll S yes' ∧
      SpannedAll S no
  | .whileDo span cond body => S span ∧ cond.Spanned S ∧ SpannedAll S body

def SpannedAll (S : Span → Prop) : List Stmt → Prop
  | [] => True
  | s :: ss => Spanned S s ∧ SpannedAll S ss

end

/-- If the statement declares something, it is of a type that has values. -/
def Valued : Stmt → Prop
  | .init _ _ type _ => type ≠ .void
  | .define _ _ _ result _ => result ≠ .void
  | _ => True

structure Drawn (N : String → Prop) (S : Span → Prop) (s : Stmt) : Prop where
  named : s.Named N
  spanned : s.Spanned S
  valued : s.Valued

structure DrawnAll (N : String → Prop) (S : Span → Prop) (ss : List Stmt) : Prop where
  named : NamedAll N ss
  spanned : SpannedAll S ss
  valued : ∀ s ∈ ss, s.Valued

section

variable {N : String → Prop} {S : Span → Prop} {span : Span} {cond cond' : Expr}
  {yes yes' no ss : List Stmt}

theorem DrawnAll.nil : DrawnAll N S [] := ⟨trivial, trivial, by simp⟩

theorem DrawnAll.cons {s : Stmt} (hs : s.Drawn N S) (hss : DrawnAll N S ss) :
    DrawnAll N S (s :: ss) where
  named := ⟨hs.named, hss.named⟩
  spanned := ⟨hs.spanned, hss.spanned⟩
  valued := List.forall_mem_cons.mpr ⟨hs.valued, hss.valued⟩

theorem Drawn.ifElse (h : S span) (hc : cond.Drawn N S) (hy : DrawnAll N S yes)
    (hn : DrawnAll N S no) : (Stmt.ifElse span cond yes no).Drawn N S where
  named := ⟨hc.named, hy.named, hn.named⟩
  spanned := ⟨h, hc.spanned, hy.spanned, hn.spanned⟩
  valued := trivial

theorem Drawn.ifElif (h : S span) (hc : cond.Drawn N S) (hy : DrawnAll N S yes)
    (hc' : cond'.Drawn N S) (hy' : DrawnAll N S yes') (hn : DrawnAll N S no) :
    (Stmt.ifElif span cond yes cond' yes' no).Drawn N S where
  named := ⟨hc.named, hy.named, hc'.named, hy'.named, hn.named⟩
  spanned := ⟨h, hc.spanned, hy.spanned, hc'.spanned, hy'.spanned, hn.spanned⟩
  valued := trivial

theorem Drawn.define {name : String} {params : List Param} {result : Ty} (h : S span)
    (hname : N name) (hp : ∀ p ∈ params, N p.name ∧ S p.span) (hr : result ≠ .void)
    (hb : DrawnAll N S ss) : (Stmt.define span name params result ss).Drawn N S where
  named := ⟨hname, fun p hm => (hp p hm).1, hb.named⟩
  spanned := ⟨h, fun p hm => (hp p hm).2, hb.spanned⟩
  valued := hr

end

end Stmt

def Program.Named (P : String → Prop) (p : Program) : Prop := Stmt.NamedAll P p.body

namespace Node

mutual

def Held (P : Node → Prop) : Node → Prop
  | mk kind span children => P (mk kind span children) ∧ HeldAll P children

def HeldAll (P : Node → Prop) : List Node → Prop
  | [] => True
  | n :: ns => Held P n ∧ HeldAll P ns

end

theorem Held.self {P : Node → Prop} {n : Node} (h : n.Held P) : P n := by
  cases n
  exact h.1

theorem heldAll_append {P : Node → Prop} {ms ns : List Node} :
    HeldAll P (ms ++ ns) ↔ HeldAll P ms ∧ HeldAll P ns := by
  induction ms with
  | nil => simp [HeldAll]
  | cons m ms ih => simp [HeldAll, ih, and_assoc]

mutual

theorem held_of_nodes {P : Node → Prop} (n : Node) (h : ∀ m ∈ n.nodes, P m) : n.Held P := by
  cases n with
  | mk kind span children =>
    obtain ⟨hself, hchildren⟩ := List.forall_mem_cons.mp h
    exact ⟨hself, heldAll_of_nodes children hchildren⟩
termination_by structural n

theorem heldAll_of_nodes {P : Node → Prop} (ns : List Node) (h : ∀ m ∈ nodesAll ns, P m) :
    HeldAll P ns := by
  cases ns with
  | nil => trivial
  | cons n ns =>
    obtain ⟨hn, hns⟩ := List.forall_mem_append.mp h
    exact ⟨held_of_nodes n hn, heldAll_of_nodes ns hns⟩
termination_by structural ns

end

/-- The span of the node is like `S`, and its text like `N` if it stands for a name. -/
structure Offers (source : String) (N : String → Prop) (S : Span → Prop) (n : Node) : Prop where
  name : n.kind = .variableName → N (n.text source)
  span : S n.span

end Node

theorem Tree.parse_of_ofStream {s rest : Tree.Stream} {tree : Node}
    (h : Tree.ofStream s = (.ok tree, rest)) : Tree.parse s = .ok tree rest := by
  unfold Tree.ofStream at h
  split at h <;> cases h
  assumption

namespace Program

open Node StackScript.Tree

section Drawing

variable {source : String} {N : String → Prop} {S : Span → Prop}

theorem ofTypeDef_ne_void (n : Node) : Ensures (· ≠ .void) (ofTypeDef source n) := by
  unfold ofTypeDef
  split
  · split
    · rename_i type htype
      unfold Ty.ofAnnotation? at htype
      split at htype <;> cases htype <;> exact .ok Ty.noConfusion
    · exact .error
  · exact .error

/-- A name comes from an identifier, whose text it is. -/
theorem leaf_drawn {t : Token} {kind : Node.Kind} (hk : operandKind? t.kind = some kind)
    (h : (leaf kind t).Offers source N S) :
    Ensures (Expr.Drawn N S) (ofExpr source (leaf kind t)) := by
  unfold operandKind? at hk
  split at hk <;> cases hk
  · unfold leaf ofExpr
    dsimp only
    split
    · exact .ok ⟨trivial, h.span⟩
    · exact .error
  · exact .ok ⟨h.name rfl, h.span⟩
  · exact .error
  · exact .ok ⟨trivial, h.span⟩
  · exact .ok ⟨trivial, h.span⟩
  · exact .ok ⟨trivial, h.span⟩

/-- A call and a print draw from their arguments. -/
theorem callOf_drawn {span : Span} {callee : String} {args : List Expr} (h : S span)
    (hc : N callee) (ha : Expr.DrawnAll N S args) :
    Ensures (Expr.Drawn N S) (callOf span callee args) := by
  unfold callOf
  split
  · exact .ok ⟨⟨hc, ha.named⟩, h, ha.spanned⟩
  · split
    · exact .ok ⟨ha.named.1, h, ha.spanned.1⟩
    · exact .error

inductive ArmsDrawn (source : String) (N : String → Prop) (S : Span → Prop) : List Node → Prop where
  | none : ArmsDrawn source N S []
  | elifArm {word : Token} {cond body : Node} {arms : List Node} :
    Ensures (Expr.Drawn N S) (ofExpr source cond) →
    Ensures (Stmt.DrawnAll N S) (ofBody source body) → ArmsDrawn source N S arms →
    ArmsDrawn source N S (leaf .kwElif word :: cond :: body :: arms)
  | elseArm {word : Token} {body : Node} : Ensures (Stmt.DrawnAll N S) (ofBody source body) →
    ArmsDrawn source N S [leaf .kwElse word, body]

/-- A condition draws from its arms what they draw from their parts. -/
theorem if_drawn {word : Token} {cond yes : Node} {arms : List Node}
    (hspan : S (branch .ifStatement (leaf .kwIf word :: cond :: yes :: arms)).span)
    (hc : Ensures (Expr.Drawn N S) (ofExpr source cond))
    (hy : Ensures (Stmt.DrawnAll N S) (ofBody source yes)) (ha : ArmsDrawn source N S arms) :
    Ensures (Stmt.Drawn N S)
      (ofStmt source (branch .ifStatement (leaf .kwIf word :: cond :: yes :: arms))) := by
  cases ha with
  | none =>
    rw [ofStmt_if]
    exact hc.bind fun _ hc => hy.bind fun _ hy => .ok (.ifElse hspan hc hy .nil)
  | elseArm hn =>
    rw [ofStmt_ifElse]
    refine hc.bind fun _ hc => hy.bind fun _ hy => hn.bind fun _ hn => ?_
    exact .ok (.ifElse hspan hc hy hn)
  | elifArm hc' hy' ha =>
    cases ha with
    | none =>
      rw [ofStmt_ifElif]
      refine hc.bind fun _ hc => hy.bind fun _ hy => hc'.bind fun _ hc' => hy'.bind fun _ hy' => ?_
      exact .ok (.ifElif hspan hc hy hc' hy' .nil)
    | elseArm hn =>
      rw [ofStmt_ifElifElse]
      refine hc.bind fun _ hc => hy.bind fun _ hy => hc'.bind fun _ hc' => hy'.bind fun _ hy' => ?_
      exact hn.bind fun _ hn => .ok (.ifElif hspan hc hy hc' hy' hn)
    | elifArm =>
      rw [ofStmt_ifElifElif]
      exact hc.bind fun _ _ => hy.bind fun _ _ => hc'.bind fun _ _ => hy'.bind fun _ _ => .error

theorem assignment_drawn {name op : Token} {as : List Token} {typed : List Node} {value : Node}
    (hb : Built (.typeIf .colon .colon) as typed) (hname : N (name.span.text source))
    (hspan : S (branch .assignStatement
      (leaf .variableName name :: typed ++ [leaf .assignOp op, value])).span)
    (hv : Ensures (Expr.Drawn N S) (ofExpr source value)) :
    Ensures (Stmt.Drawn N S) (ofStmt source (branch .assignStatement
      (leaf .variableName name :: typed ++ [leaf .assignOp op, value]))) := by
  rw [List.cons_append] at hspan ⊢
  cases hb with
  | untyped =>
    rw [List.nil_append, ofStmt_assign _ _ _ _ rfl]
    exact hv.bind fun _ he => .ok ⟨⟨hname, he.named⟩, ⟨hspan, he.spanned⟩, trivial⟩
  | typed =>
    rw [List.singleton_append, ofStmt_init _ _ _ _ _ rfl]
    refine (ofTypeDef_ne_void _).bind fun _ htype => hv.bind fun _ he => ?_
    exact .ok ⟨⟨hname, he.named⟩, ⟨hspan, he.spanned⟩, htype⟩

/-- A definition that states no result has one all the same, of the type of `None`. -/
theorem definition_drawn {word name l : Token} {as : List Token} {items result : List Node}
    {body : Node} (hr : Built (.typeIf .arrow .arrow) as result) (hbk : body.kind = .body)
    (hname : N (name.span.text source))
    (hspan : S (branch .functionDefinition (leaf .kwDef word :: leaf .variableName name ::
      branch .paramList (leaf .openParen l :: items) :: result ++ [body])).span)
    (hp : ∀ list, Ensures (fun ps => ∀ p ∈ ps, N p.name ∧ S p.span) (ofParams source list items))
    (hb : Ensures (Stmt.DrawnAll N S) (ofBody source body)) :
    Ensures (Stmt.Drawn N S) (ofStmt source (branch .functionDefinition
      (leaf .kwDef word :: leaf .variableName name ::
        branch .paramList (leaf .openParen l :: items) :: result ++ [body]))) := by
  simp only [List.cons_append] at hspan ⊢
  cases hr with
  | untyped =>
    rw [List.nil_append, ofStmt_define _ _ _ _ _ rfl hbk]
    refine (hp _).bind fun _ hp => hb.bind fun _ hb => ?_
    exact .ok (.define hspan hname hp Ty.noConfusion hb)
  | typed =>
    rw [List.singleton_append, ofStmt_defineTyped _ _ _ _ _ _ rfl rfl]
    refine (hp _).bind fun _ hp => (ofTypeDef_ne_void _).bind fun _ htype => hb.bind fun _ hb => ?_
    exact .ok (.define hspan hname hp htype hb)

/-- What reading draws from a part of a tree. -/
def PartDrawn (source : String) (N : String → Prop) (S : Span → Prop) (p : Part)
    (ns : List Node) : Prop :=
  match p with
  | .expr => ∀ n ∈ ns, Ensures (Expr.Drawn N S) (ofExpr source n)
  | .arguments => ∀ list, Ensures (Expr.DrawnAll N S) (ofArgs source list ns)
  | .typeIf _ _ => True
  | .parameters =>
    ∀ list, Ensures (fun ps => ∀ p ∈ ps, N p.name ∧ S p.span) (ofParams source list ns)
  | .stmt => ∀ n ∈ ns, Ensures (Stmt.Drawn N S) (ofStmt source n)
  | .arms => ArmsDrawn source N S ns
  | .body => ∀ n ∈ ns, n.kind = .body ∧ Ensures (Stmt.DrawnAll N S) (ofBody source n)
  | .stmts => Ensures (Stmt.DrawnAll N S) (ofStmts source ns)

/-- Every part of a tree that has been built draws on its own nodes only. -/
theorem Built.drawn {p : Part} {used : List Token} {ns : List Node} (h : Built p used ns)
    (hS : ∀ a b, S a → S b → S (a.upTo b)) (hn : HeldAll (Offers source N S) ns) :
    PartDrawn source N S p ns := by
  induction h with
  | leaf hk => exact List.forall_mem_singleton.mpr (leaf_drawn hk hn.1.1)
  | prefixed _ _ ih =>
    obtain ⟨⟨hself, -, hn⟩, -⟩ := hn
    have hoperand := List.forall_mem_singleton.mp (ih hn)
    refine List.forall_mem_singleton.mpr ?_
    rw [ofExpr_unary]
    exact .bind .any fun _ _ => hoperand.bind fun _ he => .ok ⟨he.named, hself.span, he.spanned⟩
  | grouped _ _ _ ih =>
    obtain ⟨⟨hself, -, hn, -⟩, -⟩ := hn
    have hinner := List.forall_mem_singleton.mp (ih ⟨hn, trivial⟩)
    refine List.forall_mem_singleton.mpr ?_
    rw [ofExpr_grouped]
    exact hinner.bind fun _ he => .ok (he.withSpan hself.span)
  | binary _ _ _ ihl ihr =>
    obtain ⟨⟨hself, hl, -, hr⟩, -⟩ := hn
    have hleft := List.forall_mem_singleton.mp (ihl ⟨hl, trivial⟩)
    have hright := List.forall_mem_singleton.mp (ihr hr)
    refine List.forall_mem_singleton.mpr ?_
    rw [ofExpr_binary]
    refine hleft.bind fun _ hl => .bind .any fun _ _ => hright.bind fun _ hr => ?_
    exact .ok ⟨⟨hl.named, hr.named⟩, hself.span, hl.spanned, hr.spanned⟩
  | call _ _ _ _ ih =>
    obtain ⟨⟨hself, hcallee, ⟨-, -, hitems⟩, -⟩, -⟩ := hn
    refine List.forall_mem_singleton.mpr ?_
    rw [ofExpr_call]
    split
    · rename_i hk
      exact (ih hitems _).bind fun _ ha => callOf_drawn hself.span (hcallee.self.name hk) ha
    · exact .error
  | noArgument => exact fun list => .ok .nil
  | lastArgument hb _ ih =>
    intro list
    have harg := List.forall_mem_singleton.mp (ih ⟨hn.1, trivial⟩)
    rw [ofArgs_last _ _ hb.expr_kind.1]
    exact harg.bind fun _ he => .ok (.cons he .nil)
  | moreArguments hb _ _ ihn ihi =>
    intro list
    have harg := List.forall_mem_singleton.mp (ihn ⟨hn.1, trivial⟩)
    rw [ofArgs_more _ _ hb.expr_kind.1]
    exact harg.bind fun _ he => (ihi hn.2.2 list).bind fun _ hes => .ok (.cons he hes)
  | untyped | typed => trivial
  | noParameter => exact fun list => .ok fun p hp => by cases hp
  | lastParameter =>
    intro list
    obtain ⟨⟨hname, -⟩, htyped, -⟩ := hn
    rw [ofParams_last]
    refine .bind .any fun _ _ => .ok (List.forall_mem_singleton.mpr ⟨hname.name rfl, ?_⟩)
    exact hS _ _ hname.span htyped.self.span
  | moreParameters _ _ _ _ _ ih =>
    intro list
    obtain ⟨⟨hname, -⟩, htyped, -, hitems⟩ := hn
    rw [ofParams_more]
    refine .bind .any fun _ _ => (ih hitems list).bind fun _ hps => ?_
    refine .ok (List.forall_mem_cons.mpr ⟨⟨hname.name rfl, ?_⟩, hps⟩)
    exact hS _ _ hname.span htyped.self.span
  | assigned _ hb _ _ _ _ ih =>
    obtain ⟨⟨hself, ⟨hname, -⟩, hrest⟩, -⟩ := hn
    obtain ⟨-, -, hv⟩ := heldAll_append.mp hrest
    have hvalue := List.forall_mem_singleton.mp (ih hv)
    exact List.forall_mem_singleton.mpr (assignment_drawn hb (hname.name rfl) hself.span hvalue)
  | returned =>
    obtain ⟨⟨hself, ⟨hword, -⟩, -⟩, -⟩ := hn
    exact List.forall_mem_singleton.mpr (.ok ⟨trivial, ⟨hself.span, hword.span⟩, trivial⟩)
  | returnedValue _ _ _ ih =>
    obtain ⟨⟨hself, -, hv⟩, -⟩ := hn
    have hvalue := List.forall_mem_singleton.mp (ih hv)
    refine List.forall_mem_singleton.mpr ?_
    rw [ofStmt_returnValue]
    exact hvalue.bind fun _ he => .ok ⟨he.named, ⟨hself.span, he.spanned⟩, trivial⟩
  | passed => exact List.forall_mem_singleton.mpr (.ok ⟨trivial, hn.1.1.span, trivial⟩)
  | expression _ _ ih =>
    obtain ⟨⟨hself, hv⟩, -⟩ := hn
    have hvalue := List.forall_mem_singleton.mp (ih hv)
    refine List.forall_mem_singleton.mpr ?_
    rw [ofStmt_expr]
    exact hvalue.bind fun _ he => .ok ⟨he.named, ⟨hself.span, he.spanned⟩, trivial⟩
  | defined _ _ _ _ hr _ ihp _ ihb =>
    obtain ⟨⟨hself, -, ⟨hname, -⟩, ⟨-, -, hitems⟩, hrest⟩, -⟩ := hn
    have hbody := List.forall_mem_singleton.mp (ihb (heldAll_append.mp hrest).2)
    refine List.forall_mem_singleton.mpr ?_
    exact definition_drawn hr hbody.1 (hname.name rfl) hself.span (ihp hitems) hbody.2
  | chosen _ _ _ _ ihc ihb iha =>
    obtain ⟨⟨hself, -, hc, hb, ha⟩, -⟩ := hn
    have hcond := List.forall_mem_singleton.mp (ihc ⟨hc, trivial⟩)
    have hbody := List.forall_mem_singleton.mp (ihb ⟨hb, trivial⟩)
    exact List.forall_mem_singleton.mpr (if_drawn hself.span hcond hbody.2 (iha ha))
  | repeated _ _ _ ihc ihb =>
    obtain ⟨⟨hself, -, hc, hb⟩, -⟩ := hn
    have hcond := List.forall_mem_singleton.mp (ihc ⟨hc, trivial⟩)
    have hbody := List.forall_mem_singleton.mp (ihb hb)
    refine List.forall_mem_singleton.mpr ?_
    rw [ofStmt_while]
    refine hcond.bind fun _ hc => hbody.2.bind fun _ hb => ?_
    exact .ok ⟨⟨hc.named, hb.named⟩, ⟨hself.span, hc.spanned, hb.spanned⟩, trivial⟩
  | noArm => exact .none
  | elifArm _ _ _ _ ihc ihb iha =>
    obtain ⟨-, hc, hb, ha⟩ := hn
    have hcond := List.forall_mem_singleton.mp (ihc ⟨hc, trivial⟩)
    have hbody := List.forall_mem_singleton.mp (ihb ⟨hb, trivial⟩)
    exact .elifArm hcond hbody.2 (iha ha)
  | elseArm _ _ ihb => exact .elseArm (List.forall_mem_singleton.mp (ihb hn.2)).2
  | inline _ _ _ ih =>
    have hstmt := List.forall_mem_singleton.mp (ih hn.1.2.2)
    refine List.forall_mem_singleton.mpr ⟨rfl, ?_⟩
    rw [ofBody_branch, ofStmts_cons]
    exact hstmt.bind fun _ hs => .ok (.cons hs .nil)
  | indented _ _ _ _ _ ih => exact List.forall_mem_singleton.mpr ⟨rfl, ih hn.1.2.2⟩
  | noStmt => exact .ok .nil
  | moreStmts _ _ ihn ihs =>
    have hstmt := List.forall_mem_singleton.mp (ihn ⟨hn.1, trivial⟩)
    have hstmts : Ensures (Stmt.DrawnAll N S) (ofStmts source _) := ihs hn.2
    change Ensures _ (ofStmts source (_ :: _))
    rw [ofStmts_cons]
    exact hstmt.bind fun _ hs => hstmts.bind fun _ hss => .ok (.cons hs hss)

end Drawing

/-- What stands for a name in a tree is an identifier. -/
theorem Built.names {source : String} {N : String → Prop} {p : Part} {used : List Token}
    {ns : List Node} (h : Built p used ns)
    (hp : ∀ mark node, p = .typeIf mark node → node ≠ .variableName)
    (hN : ∀ t ∈ used, t.kind = .identifier → N (t.span.text source)) :
    ∀ n ∈ nodesAll ns, n.kind = .variableName → N (n.text source) := by
  induction h with
  | leaf hk =>
    unfold operandKind? at hk
    split at hk <;> cases hk <;> simp_all
  | typed _ ht =>
    unfold typeKind? at ht
    split at ht <;> cases ht <;> simp_all [or_imp, forall_and]
  | binary _ hop =>
    unfold operatorKind? at hop
    split at hop <;> cases hop <;> simp_all [or_imp, forall_and]
  | _ => simp_all [or_imp, forall_and]

/-- A program takes its names from identifiers, its spans are those of nodes or reach from one to
another, and the types that its declarations state have values. -/
theorem ofTree_drawn {source : String} {N : String → Prop} {S : Span → Prop} {s t : Stream}
    {tree : Node} (h : Tree.parse s = .ok tree t)
    (hN : ∀ x, x ∈ s.rest ∨ x = s.last → x.kind = .identifier → N (x.span.text source))
    (hS : ∀ a b, S a → S b → S (a.upTo b)) (hn : ∀ n ∈ nodesAll tree.children, S n.span) :
    Ensures (fun p => Stmt.DrawnAll N S p.body) (ofTree tree source) := by
  obtain ⟨used, ns, htakes, hbuilt, -, hkind, rfl⟩ := parse_built h
  have hnames := Built.names hbuilt (by simp) fun x hx => hN x (htakes.mem x hx)
  have hoffers : HeldAll (Offers source N S) tree.children :=
    heldAll_of_nodes _ fun n hm => ⟨hnames n hm, hn n hm⟩
  have hstmts : Ensures (Stmt.DrawnAll N S) (ofStmts source tree.children) :=
    Built.drawn hbuilt hS hoffers
  rw [ofTree, if_pos hkind]
  exact hstmts.bind fun _ hss => .ok hss

theorem spelled_of_streamOf {source file : String} {s : Stream}
    (h : streamOf source file = .ok s) (x : Token) (hx : x ∈ s.rest ∨ x = s.last) :
    x.Spelled source := by
  obtain ⟨tokens, htokens, hs⟩ := bind_eq_ok.mp h
  cases hs
  have hspelled := Token.scan_spelled htokens
  rcases hx with hx | rfl
  · exact hspelled x hx
  · cases hlast : tokens.getLast? with
    | none => exact .of_layout (by rw [List.getLastD_eq_getLast?, hlast]; rfl)
    | some last =>
      rw [List.getLastD_eq_getLast?, hlast]
      exact hspelled last (List.mem_of_getLast? hlast)

/-- What is drawn from the text of a program: bare names, and the spans of nodes. -/
theorem parse_drawn {source file : String} {S : Span → Prop}
    (hS : ∀ a b, S a → S b → S (a.upTo b))
    (hn : ∀ s tree rest, streamOf source file = .ok s → Tree.parse s = .ok tree rest →
      ∀ n ∈ nodesAll tree.children, S n.span) :
    Ensures (fun p => Stmt.DrawnAll Bare S p.body) (parse source file) := by
  intro p h
  obtain ⟨s, hs, h⟩ := bind_eq_ok.mp h
  obtain ⟨tree, htree, h⟩ := bind_eq_ok.mp h
  have hparse := parse_of_ofStream (Prod.ext htree rfl)
  refine ofTree_drawn hparse (fun x hx hk c hc => ?_) hS (hn s tree _ hs hparse) p h
  exact isBare_of_isWordChar ((spelled_of_streamOf hs x hx).word hk c hc)

structure Proper (p : Program) : Prop where
  named : p.Named Bare
  valued : ∀ s ∈ p.body, s.Valued

/-- A parsed program is proper. -/
theorem parse_proper {source file : String} {p : Program} (h : parse source file = .ok p) :
    p.Proper := by
  have hdrawn := parse_drawn (S := fun _ => True) (by simp) (by simp) p h
  exact ⟨hdrawn.named, hdrawn.valued⟩

/-- The names of a parsed program are bare. -/
theorem parse_named {source file : String} {p : Program} (h : parse source file = .ok p) :
    p.Named Bare :=
  (parse_proper h).named

end Program

end StackScript
