import StackScript.Tree.OfTokens

namespace StackScript.Tree

namespace Stream

/-- Reading on from `s` shows these tokens and gets to `t`. -/
def Takes (s : Stream) : List Token → Stream → Prop
  | [], t => t = s
  | token :: used, t => s.current = token ∧ s.advance.Takes used t

theorem takes_append {s u : Stream} {a b : List Token} :
    s.Takes (a ++ b) u ↔ ∃ t, s.Takes a t ∧ t.Takes b u := by
  induction a generalizing s with
  | nil => simp [Takes]
  | cons token a ih => simp [Takes, ih, and_assoc]

theorem Takes.append {s t u : Stream} {a b : List Token} (h : s.Takes a t) (h' : t.Takes b u) :
    s.Takes (a ++ b) u := takes_append.mpr ⟨t, h, h'⟩

theorem takes_one (s : Stream) : s.Takes [s.current] s.advance := ⟨rfl, rfl⟩

theorem Takes.head {s t : Stream} {used : List Token} (h : s.Takes used t) :
    ∀ token ∈ used.head?, s.current = token := by
  cases used with
  | nil => simp
  | cons first used =>
    rintro token ⟨⟩
    exact h.1

theorem Takes.last {s t : Stream} {used : List Token} (h : s.Takes used t) : t.last = s.last := by
  induction used generalizing s with
  | nil => rw [h]
  | cons token used ih => rw [ih h.2]; rfl

/-- The tokens a reader takes are those of the stream; the last one can come again. -/
theorem Takes.mem {s t : Stream} {used : List Token} (h : s.Takes used t) :
    ∀ x ∈ used, x ∈ s.rest ∨ x = s.last := by
  induction used generalizing s with
  | nil => simp
  | cons token used ih =>
    intro x hx
    rcases List.mem_cons.mp hx with rfl | hx
    · rw [← h.1]
      unfold current
      cases hr : s.rest with
      | nil => exact .inr rfl
      | cons first rest => exact .inl List.mem_cons_self
    · exact (ih h.2 x hx).imp_left List.mem_of_mem_tail

/-- The rest gets shorter by what is taken, until only the last token is shown again. -/
theorem Takes.length {s t : Stream} {used : List Token} (h : s.Takes used t) :
    t.rest.length = s.rest.length - used.length := by
  induction used generalizing s with
  | nil => rw [h]; rfl
  | cons token used ih =>
    rw [ih h.2]
    simp only [advance, List.length_tail, List.length_cons]
    omega

end Stream

def typeKind? : Token.Kind → Option Node.Kind
  | .identifier => some .variableName
  | .kwNone => some .none
  | _ => none

/-- The first words of the statements that need a line of their own. -/
def opensBlock (kind : Token.Kind) : Bool :=
  match kind with
  | .kwIf | .kwWhile | .kwDef => true
  | _ => false

inductive Part where
  | expr
  /-- What follows the opening parenthesis of a call. -/
  | arguments
  /-- A type behind its mark, or nothing. -/
  | typeIf (mark : Token.Kind) (node : Node.Kind)
  /-- What follows the opening parenthesis of a definition. -/
  | parameters
  | stmt
  /-- The arms of a condition after the first. -/
  | arms
  | body
  | stmts

/-- Which tokens a part of a tree stands for and which nodes come out, without binding powers and
without steps. -/
inductive Built : Part → List Token → List Node → Prop where
  | leaf {t : Token} {node : Node.Kind} :
    operandKind? t.kind = some node → Built .expr [t] [.leaf node t]
  | prefixed {op : Token} {as : List Token} {n : Node} :
    op.kind = .kwNot ∨ op.kind = .dash → Built .expr as [n] →
    Built .expr (op :: as) [.branch .unaryExpression [.leaf .unaryOp op, n]]
  | grouped {l r : Token} {as : List Token} {n : Node} :
    l.kind = .openParen → Built .expr as [n] → r.kind = .closeParen →
    Built .expr (l :: (as ++ [r]))
      [.branch .parenthesizedExpression [.leaf .openParen l, n, .leaf .closeParen r]]
  | binary {as bs : List Token} {left right : Node} {op : Token} {node : Node.Kind} :
    Built .expr as [left] → operatorKind? op.kind = some node → Built .expr bs [right] →
    Built .expr (as ++ op :: bs) [.branch .binaryExpression [left, .leaf node op, right]]
  | call {as bs : List Token} {callee : Node} {l : Token} {items : List Node} :
    Built .expr as [callee] → l.kind = .openParen → Built .arguments bs items →
    Built .expr (as ++ l :: bs)
      [.branch .callExpression [callee, .branch .argList (.leaf .openParen l :: items)]]
  | noArgument {r : Token} :
    r.kind = .closeParen → Built .arguments [r] [.leaf .closeParen r]
  | lastArgument {as : List Token} {n : Node} {r : Token} :
    Built .expr as [n] → r.kind = .closeParen →
    Built .arguments (as ++ [r]) [n, .leaf .closeParen r]
  | moreArguments {as bs : List Token} {n : Node} {c : Token} {items : List Node} :
    Built .expr as [n] → c.kind = .comma → Built .arguments bs items →
    Built .arguments (as ++ c :: bs) (n :: .leaf .comma c :: items)
  | untyped {mark : Token.Kind} {node : Node.Kind} : Built (.typeIf mark node) [] []
  | typed {mark : Token.Kind} {node type : Node.Kind} {m t : Token} :
    m.kind = mark → typeKind? t.kind = some type →
    Built (.typeIf mark node) [m, t] [.branch .typeDef [.leaf node m, .leaf type t]]
  | noParameter {r : Token} :
    r.kind = .closeParen → Built .parameters [r] [.leaf .closeParen r]
  | lastParameter {name r : Token} {as : List Token} {typed : Node} :
    name.kind = .identifier → Built (.typeIf .colon .colon) as [typed] → r.kind = .closeParen →
    Built .parameters (name :: (as ++ [r]))
      [.leaf .variableName name, typed, .leaf .closeParen r]
  | moreParameters {name c : Token} {as bs : List Token} {typed : Node} {items : List Node} :
    name.kind = .identifier → Built (.typeIf .colon .colon) as [typed] → c.kind = .comma →
    Built .parameters bs items →
    Built .parameters (name :: (as ++ c :: bs))
      (.leaf .variableName name :: typed :: .leaf .comma c :: items)
  | assigned {name op nl : Token} {as bs : List Token} {typed : List Node} {value : Node} :
    name.kind = .identifier → Built (.typeIf .colon .colon) as typed → op.kind = .assignment →
    Built .expr bs [value] → nl.kind = .newline →
    Built .stmt (name :: (as ++ op :: (bs ++ [nl])))
      [.branch .assignStatement
        (.leaf .variableName name :: typed ++ [.leaf .assignOp op, value])]
  | returned {word nl : Token} :
    word.kind = .kwReturn → nl.kind = .newline →
    Built .stmt [word, nl] [.branch .returnStatement [.leaf .kwReturn word]]
  | returnedValue {word nl : Token} {as : List Token} {value : Node} :
    word.kind = .kwReturn → Built .expr as [value] → nl.kind = .newline →
    Built .stmt (word :: (as ++ [nl]))
      [.branch .returnStatement [.leaf .kwReturn word, value]]
  | passed {word nl : Token} :
    word.kind = .kwPass → nl.kind = .newline →
    Built .stmt [word, nl] [.branch .passStatement [.leaf .kwPass word]]
  | expression {as : List Token} {value : Node} {nl : Token} :
    Built .expr as [value] → nl.kind = .newline →
    Built .stmt (as ++ [nl]) [.branch .expressionStatement [value]]
  | defined {word name l : Token} {as bs cs : List Token} {items result : List Node}
      {body : Node} :
    word.kind = .kwDef → name.kind = .identifier → l.kind = .openParen →
    Built .parameters as items → Built (.typeIf .arrow .arrow) bs result → Built .body cs [body] →
    Built .stmt (word :: name :: l :: (as ++ (bs ++ cs)))
      [.branch .functionDefinition
        (.leaf .kwDef word :: .leaf .variableName name ::
          .branch .paramList (.leaf .openParen l :: items) :: result ++ [body])]
  | chosen {word : Token} {as bs cs : List Token} {cond body : Node} {arms : List Node} :
    word.kind = .kwIf → Built .expr as [cond] → Built .body bs [body] → Built .arms cs arms →
    Built .stmt (word :: (as ++ (bs ++ cs)))
      [.branch .ifStatement (.leaf .kwIf word :: cond :: body :: arms)]
  | repeated {word : Token} {as bs : List Token} {cond body : Node} :
    word.kind = .kwWhile → Built .expr as [cond] → Built .body bs [body] →
    Built .stmt (word :: (as ++ bs))
      [.branch .whileStatement [.leaf .kwWhile word, cond, body]]
  | noArm : Built .arms [] []
  | elifArm {word : Token} {as bs cs : List Token} {cond body : Node} {arms : List Node} :
    word.kind = .kwElif → Built .expr as [cond] → Built .body bs [body] → Built .arms cs arms →
    Built .arms (word :: (as ++ (bs ++ cs))) (.leaf .kwElif word :: cond :: body :: arms)
  | elseArm {word : Token} {as : List Token} {body : Node} :
    word.kind = .kwElse → Built .body as [body] →
    Built .arms (word :: as) [.leaf .kwElse word, body]
  | inline {colon : Token} {as : List Token} {n : Node} :
    colon.kind = .colon → (∀ t ∈ as.head?, opensBlock t.kind = false) → Built .stmt as [n] →
    Built .body (colon :: as) [.branch .body [.leaf .colon colon, n]]
  | indented {colon nl indent dedent : Token} {as : List Token} {ns : List Node} :
    colon.kind = .colon → nl.kind = .newline → indent.kind = .indent → Built .stmts as ns →
    dedent.kind = .dedent →
    Built .body (colon :: nl :: indent :: (as ++ [dedent]))
      [.branch .body (.leaf .colon colon :: ns)]
  | noStmt : Built .stmts [] []
  | moreStmts {as bs : List Token} {n : Node} {ns : List Node} :
    Built .stmt as [n] → Built .stmts bs ns → Built .stmts (as ++ bs) (n :: ns)

/-- No expression and no statement is empty. -/
theorem Built.ne_nil {p : Part} {used : List Token} {ns : List Node} (h : Built p used ns)
    (hp : p = .expr ∨ p = .stmt) : used ≠ [] := by
  cases h <;> simp_all

/-- What the reader takes from here, if it succeeds: a value and its tokens. -/
def Reads {α : Type} (s : Stream) (r : Reader α) (P : α → List Token → Prop) : Prop :=
  ∀ a t, r s = .ok a t → ∃ used, s.Takes used t ∧ P a used

namespace Reads

variable {α β : Type} {s : Stream} {P : α → List Token → Prop} {Q : β → List Token → Prop}

theorem pure {a : α} (h : P a []) : Reads s (Pure.pure a) P := by
  intro b t hb
  cases hb
  exact ⟨[], rfl, h⟩

/-- What two readers take one after the other is taken from the front of the stream. -/
theorem bind {r : Reader α} {f : α → Reader β} (hr : Reads s r P)
    (hf : ∀ a used t, P a used → s.Takes used t → Reads t (f a) fun b more => Q b (used ++ more)) :
    Reads s (r >>= f) Q := by
  intro b u h
  change Reader.bind r f s = .ok b u at h
  unfold Reader.bind at h
  cases ha : r s with
  | ok a t =>
    rw [ha] at h
    obtain ⟨used, ht, hp⟩ := hr a t ha
    obtain ⟨more, hu, hq⟩ := hf a used t hp ht b u h
    exact ⟨used ++ more, ht.append hu, hq⟩
  | failed d t => simp [ha] at h
  | endless => simp [ha] at h

theorem weaken {r : Reader α} {P' : α → List Token → Prop} (hr : Reads s r P)
    (h : ∀ a used t, s.Takes used t → P a used → P' a used) : Reads s r P' := by
  intro a t ha
  obtain ⟨used, ht, hp⟩ := hr a t ha
  exact ⟨used, ht, h a used t ht hp⟩

/-- Looking at a token takes nothing. -/
theorem kind {f : Token.Kind → Reader β} (h : Reads s (f s.kind) Q) :
    Reads s (Reader.kind >>= f) Q := h

theorem nextKind {f : Token.Kind → Reader β} (h : Reads s (f s.nextKind) Q) :
    Reads s (Reader.nextKind >>= f) Q := h

theorem more {f : Bool → Reader β} (h : Reads s (f s.more) Q) : Reads s (Reader.more >>= f) Q := h

theorem endless : Reads s Reader.endless P := by
  intro a t h
  cases h

theorem fail {why : Stream → Diagnostic} : Reads s (Reader.fail why) P := by
  intro a t h
  cases h

/-- The token is known from looking at it before. -/
theorem take {k : Token.Kind} (hk : s.kind = k) :
    Reads s Reader.take fun t used => t.kind = k ∧ used = [t] := by
  intro a t ha
  cases ha
  exact ⟨[s.current], s.takes_one, hk, rfl⟩

theorem expect (k : Token.Kind) :
    Reads s (Reader.expect k) fun t used => t.kind = k ∧ used = [t] := by
  intro a t ha
  unfold Reader.expect at ha
  split at ha
  · rename_i hk
    cases ha
    exact ⟨[s.current], s.takes_one, hk, rfl⟩
  · cases ha

theorem takeLeaf (node : Node.Kind) {k : Token.Kind} (hk : s.kind = k) :
    Reads s (Reader.takeLeaf node) fun n used =>
      ∃ t : Token, t.kind = k ∧ used = [t] ∧ n = .leaf node t := by
  refine (take hk).bind ?_
  rintro t used u ⟨hk, rfl⟩ -
  exact pure ⟨t, hk, rfl, rfl⟩

theorem expectLeaf (k : Token.Kind) (node : Node.Kind) :
    Reads s (Reader.expectLeaf k node) fun n used =>
      ∃ t : Token, t.kind = k ∧ used = [t] ∧ n = .leaf node t := by
  refine (expect k).bind ?_
  rintro t used u ⟨hk, rfl⟩ -
  exact pure ⟨t, hk, rfl, rfl⟩

end Reads

structure ExprsBuilt (steps : Nat) : Prop where
  expr : ∀ {s : Stream} (power : Power),
    Reads s (expr steps power) fun n used => Built .expr used [n]
  operand : ∀ {s : Stream}, Reads s (operand steps) fun n used => Built .expr used [n]
  prefixed : ∀ {s : Stream} (power : Power), s.kind = .kwNot ∨ s.kind = .dash →
    Reads s (prefixed steps power) fun n used => Built .expr used [n]
  climb : ∀ {s : Stream} (power : Power) {left : Node} {as : List Token}, Built .expr as [left] →
    Reads s (climb steps power left) fun n used => Built .expr (as ++ used) [n]
  arguments : ∀ {s : Stream}, Reads s (arguments steps) fun ns used => Built .arguments used ns

theorem operand_succ_built {steps : Nat} (ih : ExprsBuilt steps) {s : Stream} :
    Reads s (operand (steps + 1)) fun n used => Built .expr used [n] := by
  unfold operand
  refine Reads.kind ?_
  split
  · rename_i hk
    exact ih.prefixed .negation (.inl hk)
  · rename_i hk
    exact ih.prefixed .unary (.inr hk)
  · rename_i hk
    refine (Reads.takeLeaf .openParen hk).bind ?_
    rintro - - t ⟨l, hl, rfl, rfl⟩ -
    refine (ih.expr .none).bind fun inner as t hi _ => ?_
    refine (Reads.expectLeaf .closeParen .closeParen).bind ?_
    rintro - - t ⟨r, hr, rfl, rfl⟩ -
    exact Reads.pure (.grouped hl hi hr)
  · split
    · rename_i node hnode
      refine (Reads.takeLeaf node rfl).weaken ?_
      rintro - - t - ⟨leaf, hleaf, rfl, rfl⟩
      exact .leaf (hleaf ▸ hnode)
    · exact Reads.fail

theorem prefixed_succ_built {steps : Nat} (ih : ExprsBuilt steps) {s : Stream} (power : Power)
    (hk : s.kind = .kwNot ∨ s.kind = .dash) :
    Reads s (prefixed (steps + 1) power) fun n used => Built .expr used [n] := by
  unfold prefixed
  refine (Reads.takeLeaf .unaryOp rfl).bind ?_
  rintro - - t ⟨op, hop, rfl, rfl⟩ -
  refine (ih.expr power).bind fun inner as t hi _ => ?_
  rw [← hop] at hk
  exact Reads.pure (by simpa using Built.prefixed hk hi)

/-- Climbing puts what it reads behind the left operand, whatever the powers are. -/
theorem climb_succ_built {steps : Nat} (ih : ExprsBuilt steps) {s : Stream} (power : Power)
    {left : Node} {as : List Token} (hl : Built .expr as [left]) :
    Reads s (climb (steps + 1) power left) fun n used => Built .expr (as ++ used) [n] := by
  unfold climb
  refine Reads.kind ?_
  split
  · split
    · rename_i hk
      refine (Reads.takeLeaf .openParen hk).bind ?_
      rintro - - t ⟨l, hopen, rfl, rfl⟩ -
      refine ih.arguments.bind fun items bs t hitems _ => ?_
      refine (ih.climb power (.call hl hopen hitems)).weaken fun n used _ _ hn => ?_
      simpa using hn
    · rename_i node hnode _
      refine (Reads.takeLeaf node rfl).bind ?_
      rintro - - t ⟨op, hop, rfl, rfl⟩ -
      refine (ih.expr _).bind fun right bs t hr _ => ?_
      refine (ih.climb power (.binary hl (hop ▸ hnode) hr)).weaken fun n used _ _ hn => ?_
      simpa using hn
    · exact Reads.fail
  · exact Reads.pure (by simpa using hl)

theorem arguments_succ_built {steps : Nat} (ih : ExprsBuilt steps) {s : Stream} :
    Reads s (arguments (steps + 1)) fun ns used => Built .arguments used ns := by
  unfold arguments
  refine Reads.kind ?_
  split
  · rename_i hk
    refine (Reads.takeLeaf .closeParen hk).bind ?_
    rintro - - t ⟨r, hr, rfl, rfl⟩ -
    exact Reads.pure (.noArgument hr)
  · refine (ih.expr .none).bind fun argument as t ha _ => ?_
    refine Reads.kind ?_
    split
    · rename_i hk
      refine (Reads.takeLeaf .comma hk).bind ?_
      rintro - - t ⟨c, hc, rfl, rfl⟩ -
      refine ih.arguments.bind fun items bs t hitems _ => ?_
      exact Reads.pure (by simpa using Built.moreArguments ha hc hitems)
    · refine (Reads.expectLeaf .closeParen .closeParen).bind ?_
      rintro - - t ⟨r, hr, rfl, rfl⟩ -
      exact Reads.pure (by simpa using Built.lastArgument ha hr)

/-- Expressions are built by all their readers, by induction on the steps. -/
theorem exprsBuilt (steps : Nat) : ExprsBuilt steps := by
  induction steps with
  | zero =>
    refine ⟨fun _ => ?_, ?_, fun _ _ => ?_, fun _ _ _ _ => ?_, ?_⟩ <;> exact Reads.endless
  | succ steps ih =>
    refine ⟨fun power => ?_, operand_succ_built ih, prefixed_succ_built ih, climb_succ_built ih,
      arguments_succ_built ih⟩
    exact ih.operand.bind fun left as t hl _ => ih.climb power hl

theorem expr_built (steps : Nat) {s : Stream} (power : Power) :
    Reads s (expr steps power) fun n used => Built .expr used [n] := (exprsBuilt steps).expr power

theorem typeName_built {s : Stream} :
    Reads s typeName fun n used =>
      ∃ t type, used = [t] ∧ typeKind? t.kind = some type ∧ n = .leaf type t := by
  unfold typeName
  refine Reads.kind ?_
  split
  · rename_i hk
    refine (Reads.takeLeaf .variableName hk).weaken ?_
    rintro - - u - ⟨t, ht, rfl, rfl⟩
    exact ⟨t, .variableName, rfl, by rw [ht]; rfl, rfl⟩
  · rename_i hk
    refine (Reads.takeLeaf .none hk).weaken ?_
    rintro - - u - ⟨t, ht, rfl, rfl⟩
    exact ⟨t, .none, rfl, by rw [ht]; rfl, rfl⟩
  · exact Reads.fail

theorem typeAfter_built {s : Stream} (mark : Token.Kind) (node : Node.Kind) :
    Reads s (typeAfter mark node) fun n used => Built (.typeIf mark node) used [n] := by
  refine (Reads.expectLeaf mark node).bind ?_
  rintro - - t ⟨m, hm, rfl, rfl⟩ -
  refine typeName_built.bind ?_
  rintro - - t ⟨type, kind, rfl, htype, rfl⟩ -
  exact Reads.pure (.typed hm htype)

/-- Without its mark, a type is left out. -/
theorem typeIf_built {s : Stream} (mark : Token.Kind) (node : Node.Kind) :
    Reads s (typeIf mark node) fun ns used => Built (.typeIf mark node) used ns := by
  unfold typeIf
  refine Reads.kind ?_
  split
  · exact (typeAfter_built mark node).bind fun type used t ht _ => Reads.pure (by simpa using ht)
  · exact Reads.pure .untyped

theorem parameters_built (steps : Nat) {s : Stream} :
    Reads s (parameters steps) fun ns used => Built .parameters used ns := by
  induction steps generalizing s with
  | zero => exact Reads.endless
  | succ steps ih =>
    unfold parameters
    refine Reads.kind ?_
    split
    · rename_i hk
      refine (Reads.takeLeaf .closeParen hk).bind ?_
      rintro - - t ⟨r, hr, rfl, rfl⟩ -
      exact Reads.pure (.noParameter hr)
    · refine (Reads.expectLeaf .identifier .variableName).bind ?_
      rintro - - t ⟨name, hname, rfl, rfl⟩ -
      refine (typeAfter_built .colon .colon).bind fun typed as t htyped _ => ?_
      refine Reads.kind ?_
      split
      · rename_i hk
        refine (Reads.takeLeaf .comma hk).bind ?_
        rintro - - t ⟨c, hc, rfl, rfl⟩ -
        refine ih.bind fun items bs t hitems _ => ?_
        exact Reads.pure (by simpa using Built.moreParameters hname htyped hc hitems)
      · refine (Reads.expectLeaf .closeParen .closeParen).bind ?_
        rintro - - t ⟨r, hr, rfl, rfl⟩ -
        exact Reads.pure (by simpa using Built.lastParameter hname htyped hr)

theorem assignment_built (steps : Nat) {s : Stream} :
    Reads s (assignment steps) fun n used => Built .stmt used [n] := by
  refine (Reads.expectLeaf .identifier .variableName).bind ?_
  rintro - - t ⟨name, hname, rfl, rfl⟩ -
  refine (typeIf_built .colon .colon).bind fun typed as t htyped _ => ?_
  refine (Reads.expectLeaf .assignment .assignOp).bind ?_
  rintro - - t ⟨op, hop, rfl, rfl⟩ -
  refine (expr_built steps .none).bind fun value bs t hvalue _ => ?_
  refine (Reads.expect .newline).bind ?_
  rintro nl - t ⟨hnl, rfl⟩ -
  exact Reads.pure (by simpa using Built.assigned hname htyped hop hvalue hnl)

theorem returning_built (steps : Nat) {s : Stream} (hk : s.kind = .kwReturn) :
    Reads s (returning steps) fun n used => Built .stmt used [n] := by
  refine (Reads.takeLeaf .kwReturn hk).bind ?_
  rintro - - t ⟨word, hword, rfl, rfl⟩ -
  refine Reads.kind ?_
  split
  · rename_i hnl
    refine (Reads.take hnl).bind ?_
    rintro nl - t ⟨hnl, rfl⟩ -
    exact Reads.pure (.returned hword hnl)
  · refine (expr_built steps .none).bind fun value as t hvalue _ => ?_
    refine (Reads.expect .newline).bind ?_
    rintro nl - t ⟨hnl, rfl⟩ -
    exact Reads.pure (by simpa using Built.returnedValue hword hvalue hnl)

theorem passing_built {s : Stream} (hk : s.kind = .kwPass) :
    Reads s passing fun n used => Built .stmt used [n] := by
  refine (Reads.takeLeaf .kwPass hk).bind ?_
  rintro - - t ⟨word, hword, rfl, rfl⟩ -
  refine (Reads.expect .newline).bind ?_
  rintro nl - t ⟨hnl, rfl⟩ -
  exact Reads.pure (.passed hword hnl)

theorem expression_built (steps : Nat) {s : Stream} :
    Reads s (expression steps) fun n used => Built .stmt used [n] := by
  refine (expr_built steps .none).bind fun value as t hvalue _ => ?_
  refine (Reads.expect .newline).bind ?_
  rintro nl - t ⟨hnl, rfl⟩ -
  exact Reads.pure (by simpa using Built.expression hvalue hnl)

structure StmtsBuilt (steps : Nat) : Prop where
  stmt : ∀ {s : Stream}, Reads s (stmt steps) fun n used => Built .stmt used [n]
  laterArms : ∀ {s : Stream}, Reads s (laterArms steps) fun ns used => Built .arms used ns
  definition : ∀ {s : Stream}, s.kind = .kwDef →
    Reads s (definition steps) fun n used => Built .stmt used [n]
  body : ∀ {s : Stream}, Reads s (body steps) fun n used => Built .body used [n]
  /-- A block ends in its dedent. -/
  block : ∀ {s : Stream}, Reads s (block steps) fun ns used =>
    ∃ as dedent, used = as ++ [dedent] ∧ dedent.kind = .dedent ∧ Built .stmts as ns

/-- The first word of a statement, or the second, decides which reader builds it. -/
theorem stmt_succ_built {steps : Nat} (ih : StmtsBuilt steps) {s : Stream} :
    Reads s (stmt (steps + 1)) fun n used => Built .stmt used [n] := by
  unfold stmt
  refine Reads.kind ?_
  split
  · rename_i hk
    exact ih.definition hk
  · rename_i hk
    refine (Reads.takeLeaf .kwIf hk).bind ?_
    rintro - - t ⟨word, hword, rfl, rfl⟩ -
    refine (expr_built steps .none).bind fun cond as t hcond _ => ?_
    refine ih.body.bind fun body bs t hbody _ => ?_
    refine ih.laterArms.bind fun arms cs t harms _ => ?_
    exact Reads.pure (by simpa using Built.chosen hword hcond hbody harms)
  · rename_i hk
    refine (Reads.takeLeaf .kwWhile hk).bind ?_
    rintro - - t ⟨word, hword, rfl, rfl⟩ -
    refine (expr_built steps .none).bind fun cond as t hcond _ => ?_
    refine ih.body.bind fun body bs t hbody _ => ?_
    exact Reads.pure (by simpa using Built.repeated hword hcond hbody)
  · rename_i hk
    exact returning_built steps hk
  · rename_i hk
    exact passing_built hk
  · refine Reads.nextKind ?_
    split
    · exact assignment_built steps
    · exact assignment_built steps
    · exact expression_built steps
  · exact expression_built steps

theorem laterArms_succ_built {steps : Nat} (ih : StmtsBuilt steps) {s : Stream} :
    Reads s (laterArms (steps + 1)) fun ns used => Built .arms used ns := by
  unfold laterArms
  refine Reads.kind ?_
  split
  · rename_i hk
    refine (Reads.takeLeaf .kwElif hk).bind ?_
    rintro - - t ⟨word, hword, rfl, rfl⟩ -
    refine (expr_built steps .none).bind fun cond as t hcond _ => ?_
    refine ih.body.bind fun body bs t hbody _ => ?_
    refine ih.laterArms.bind fun arms cs t harms _ => ?_
    exact Reads.pure (by simpa using Built.elifArm hword hcond hbody harms)
  · rename_i hk
    refine (Reads.takeLeaf .kwElse hk).bind ?_
    rintro - - t ⟨word, hword, rfl, rfl⟩ -
    refine ih.body.bind fun body as t hbody _ => ?_
    exact Reads.pure (by simpa using Built.elseArm hword hbody)
  · exact Reads.pure .noArm

theorem definition_succ_built {steps : Nat} (ih : StmtsBuilt steps) {s : Stream}
    (hk : s.kind = .kwDef) :
    Reads s (definition (steps + 1)) fun n used => Built .stmt used [n] := by
  unfold definition
  refine (Reads.takeLeaf .kwDef hk).bind ?_
  rintro - - t ⟨word, hword, rfl, rfl⟩ -
  refine (Reads.expectLeaf .identifier .variableName).bind ?_
  rintro - - t ⟨name, hname, rfl, rfl⟩ -
  refine (Reads.expectLeaf .openParen .openParen).bind ?_
  rintro - - t ⟨l, hl, rfl, rfl⟩ -
  refine (parameters_built steps).bind fun items as t hitems _ => ?_
  refine (typeIf_built .arrow .arrow).bind fun result bs t hresult _ => ?_
  refine ih.body.bind fun body cs t hbody _ => ?_
  exact Reads.pure (by simpa using Built.defined hword hname hl hitems hresult hbody)

/-- A body on the line of its colon is one statement. -/
theorem inline_built {steps : Nat} (ih : StmtsBuilt steps) {s : Stream} {colon : Token}
    (hcolon : colon.kind = .colon) (hk : opensBlock s.kind = false) :
    Reads s (do return .branch .body [.leaf .colon colon, ← stmt steps]) fun n used =>
      Built .body (colon :: used) [n] := by
  refine ih.stmt.bind fun n as t hn htakes => Reads.pure ?_
  rw [List.append_nil]
  refine .inline hcolon (fun token htoken => ?_) hn
  rw [← htakes.head token htoken]
  exact hk

theorem body_succ_built {steps : Nat} (ih : StmtsBuilt steps) {s : Stream} :
    Reads s (body (steps + 1)) fun n used => Built .body used [n] := by
  unfold body
  refine (Reads.expectLeaf .colon .colon).bind ?_
  rintro - - t ⟨colon, hcolon, rfl, rfl⟩ -
  refine Reads.kind ?_
  split
  · rename_i hk
    refine (Reads.take hk).bind ?_
    rintro nl - t ⟨hnl, rfl⟩ -
    refine Reads.kind ?_
    split
    · rename_i hk
      refine (Reads.take hk).bind ?_
      rintro indent - t ⟨hindent, rfl⟩ -
      refine ih.block.bind ?_
      rintro stmts - t ⟨as, dedent, rfl, hdedent, hstmts⟩ -
      exact Reads.pure (by simpa using Built.indented hcolon hnl hindent hstmts hdedent)
    · exact Reads.fail
  · exact Reads.fail
  · exact Reads.fail
  · exact Reads.fail
  · rename_i hif hwhile hdef
    refine inline_built ih hcolon ?_
    unfold opensBlock
    split <;> first | contradiction | rfl

/-- A block is read up to the dedent that closes it. -/
theorem block_succ_built {steps : Nat} (ih : StmtsBuilt steps) {s : Stream} :
    Reads s (block (steps + 1)) fun ns used =>
      ∃ as dedent, used = as ++ [dedent] ∧ dedent.kind = .dedent ∧ Built .stmts as ns := by
  unfold block
  refine Reads.more (Reads.kind ?_)
  split
  · refine ih.stmt.bind fun first as t hfirst _ => ?_
    refine ih.block.bind ?_
    rintro rest - t ⟨bs, dedent, rfl, hdedent, hrest⟩ -
    exact Reads.pure ⟨as ++ bs, dedent, by simp, hdedent, .moreStmts hfirst hrest⟩
  · refine (Reads.expect .dedent).bind ?_
    rintro dedent - t ⟨hdedent, rfl⟩ -
    exact Reads.pure ⟨[], dedent, rfl, hdedent, .noStmt⟩

/-- Statements are built by all their readers, at whatever depth of blocks. -/
theorem stmtsBuilt (steps : Nat) : StmtsBuilt steps := by
  induction steps with
  | zero => refine ⟨?_, ?_, fun _ => ?_, ?_, ?_⟩ <;> exact Reads.endless
  | succ steps ih =>
    exact ⟨stmt_succ_built ih, laterArms_succ_built ih, definition_succ_built ih,
      body_succ_built ih, block_succ_built ih⟩

/-- A script is read up to where no token is left but the end. -/
theorem script_built (steps : Nat) {s t : Stream} {ns : List Node}
    (h : script steps s = .ok ns t) :
    ∃ used, s.Takes used t ∧ Built .stmts used ns ∧ t.more = false := by
  induction steps generalizing s ns with
  | zero => cases h
  | succ steps ih =>
    unfold script at h
    change (if s.more = true then _ else _ : Reader (List Node)) s = .ok ns t at h
    split at h
    · change Reader.bind (stmt steps) _ s = .ok ns t at h
      unfold Reader.bind at h
      cases hf : stmt steps s with
      | ok first u =>
        rw [hf] at h
        change Reader.bind (script steps) _ u = .ok ns t at h
        unfold Reader.bind at h
        cases hr : script steps u with
        | ok rest v =>
          rw [hr] at h
          cases h
          obtain ⟨as, ha, hfirst⟩ := (stmtsBuilt steps).stmt first u hf
          obtain ⟨bs, hb, hrest, hmore⟩ := ih hr
          exact ⟨as ++ bs, ha.append hb, .moreStmts hfirst hrest, hmore⟩
        | failed d v => simp [hr] at h
        | endless => simp [hr] at h
      | failed d u => simp [hf] at h
      | endless => simp [hf] at h
    · rename_i hmore
      cases h
      exact ⟨[], rfl, .noStmt, by simpa using hmore⟩

/-- The tree of a stream: its statements, and their tokens from the front of the stream. -/
theorem parse_built {s t : Stream} {tree : Node} (h : parse s = .ok tree t) :
    ∃ used ns, s.Takes used t ∧ Built .stmts used ns ∧ t.more = false ∧
      tree.kind = .script ∧ tree.children = ns := by
  unfold parse at h
  change Reader.bind (script _) root s = .ok tree t at h
  unfold Reader.bind at h
  cases hs : script (enoughSteps s.rest.length) s with
  | ok ns u =>
    rw [hs] at h
    obtain ⟨used, htakes, hbuilt, hmore⟩ := script_built _ hs
    cases ns with
    | nil =>
      cases h
      exact ⟨used, [], htakes, hbuilt, hmore, rfl, rfl⟩
    | cons n ns =>
      cases h
      exact ⟨used, n :: ns, htakes, hbuilt, hmore, rfl, rfl⟩
  | failed d u => simp [hs] at h
  | endless => simp [hs] at h

end StackScript.Tree
