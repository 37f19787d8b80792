import StackScript.Proofs.Phrases

namespace StackScript.Tree

/-- `r'` replies as `r` does wherever `r` replies at all. -/
def Refines {α : Type} (r r' : Reader α) : Prop := ∀ s, r s = .endless ∨ r' s = r s

namespace Refines

variable {α β : Type} {r r' : Reader α} {f f' : α → Reader β}

theorem refl (r : Reader α) : Refines r r := fun _ => .inr rfl

theorem endless (r : Reader α) : Refines Reader.endless r := fun _ => .inl rfl

theorem trans {r'' : Reader α} (h : Refines r r') (h' : Refines r' r'') : Refines r r'' := by
  intro s
  rcases h s with hs | hs
  · exact .inl hs
  · rcases h' s with hs' | hs'
    · exact .inl (hs ▸ hs')
    · exact .inr (hs'.trans hs)

theorem bind (h : Refines r r') (hf : ∀ a, Refines (f a) (f' a)) :
    Refines (r >>= f) (r' >>= f') := by
  intro s
  change Reader.bind r f s = .endless ∨ Reader.bind r' f' s = Reader.bind r f s
  unfold Reader.bind
  rcases h s with hs | hs
  · exact .inl (by rw [hs])
  · rw [hs]
    cases r s with
    | ok a t => exact hf a t
    | failed d t => exact .inr rfl
    | endless => exact .inl rfl

theorem ok {s t : Stream} {a : α} (h : Refines r r') (hs : r s = .ok a t) : r' s = .ok a t := by
  rcases h s with h | h
  · rw [hs] at h
    cases h
  · rw [h, hs]

end Refines

structure ExprsRefine (steps : Nat) : Prop where
  expr : ∀ power, Refines (expr steps power) (expr (steps + 1) power)
  operand : Refines (operand steps) (operand (steps + 1))
  prefixed : ∀ power, Refines (prefixed steps power) (prefixed (steps + 1) power)
  climb : ∀ power left, Refines (climb steps power left) (climb (steps + 1) power left)
  arguments : Refines (arguments steps) (arguments (steps + 1))

/-- More steps never change a reading that has come to a reply. -/
theorem exprsRefine (steps : Nat) : ExprsRefine steps := by
  induction steps with
  | zero =>
    exact ⟨fun _ => .endless _, .endless _, fun _ => .endless _, fun _ _ => .endless _, .endless _⟩
  | succ steps ih =>
    refine ⟨fun power => ?_, ?_, fun power => ?_, fun power left => ?_, ?_⟩
    · unfold expr
      exact ih.operand.bind fun left => ih.climb power left
    · unfold operand
      refine (Refines.refl _).bind fun kind => ?_
      split
      · exact ih.prefixed .negation
      · exact ih.prefixed .unary
      · refine (Refines.refl _).bind fun opening => ?_
        exact (ih.expr .none).bind fun inner => .refl _
      · exact .refl _
    · unfold prefixed
      refine (Refines.refl _).bind fun operator => ?_
      exact (ih.expr power).bind fun inner => .refl _
    · unfold climb
      refine (Refines.refl _).bind fun kind => ?_
      split
      · split
        · refine (Refines.refl _).bind fun opening => ?_
          exact ih.arguments.bind fun items => ih.climb power _
        · refine (Refines.refl _).bind fun operator => ?_
          exact (ih.expr _).bind fun right => ih.climb power _
        · exact .refl _
      · exact .refl _
    · unfold arguments
      refine (Refines.refl _).bind fun kind => ?_
      split
      · exact .refl _
      · refine (ih.expr .none).bind fun argument => ?_
        refine (Refines.refl _).bind fun kind => ?_
        split
        · refine (Refines.refl _).bind fun comma => ?_
          exact ih.arguments.bind fun items => .refl _
        · exact .refl _

theorem parameters_refines (steps : Nat) : Refines (parameters steps) (parameters (steps + 1)) := by
  induction steps with
  | zero => exact .endless _
  | succ steps ih =>
    unfold parameters
    refine (Refines.refl _).bind fun kind => ?_
    split
    · exact .refl _
    · refine (Refines.refl _).bind fun name => (Refines.refl _).bind fun typed => ?_
      refine (Refines.refl _).bind fun kind => ?_
      split
      · refine (Refines.refl _).bind fun comma => ?_
        exact ih.bind fun items => .refl _
      · exact .refl _

theorem assignment_refines (steps : Nat) : Refines (assignment steps) (assignment (steps + 1)) := by
  unfold assignment
  refine (Refines.refl _).bind fun name => (Refines.refl _).bind fun typed => ?_
  refine (Refines.refl _).bind fun operator => ?_
  exact ((exprsRefine steps).expr .none).bind fun value => .refl _

theorem returning_refines (steps : Nat) : Refines (returning steps) (returning (steps + 1)) := by
  unfold returning
  refine (Refines.refl _).bind fun keyword => (Refines.refl _).bind fun kind => ?_
  split
  · exact .refl _
  · exact ((exprsRefine steps).expr .none).bind fun value => .refl _

theorem expression_refines (steps : Nat) : Refines (expression steps) (expression (steps + 1)) :=
  ((exprsRefine steps).expr .none).bind fun _ => .refl _

structure StmtsRefine (steps : Nat) : Prop where
  stmt : Refines (stmt steps) (stmt (steps + 1))
  laterArms : Refines (laterArms steps) (laterArms (steps + 1))
  definition : Refines (definition steps) (definition (steps + 1))
  body : Refines (body steps) (body (steps + 1))
  block : Refines (block steps) (block (steps + 1))

theorem stmt_succ_refines {steps : Nat} (ih : StmtsRefine steps) :
    Refines (stmt (steps + 1)) (stmt (steps + 2)) := by
  unfold stmt
  refine (Refines.refl _).bind fun kind => ?_
  split
  · exact ih.definition
  · refine (Refines.refl _).bind fun keyword => ?_
    refine ((exprsRefine steps).expr .none).bind fun condition => ?_
    exact ih.body.bind fun yes => ih.laterArms.bind fun arms => .refl _
  · refine (Refines.refl _).bind fun keyword => ?_
    refine ((exprsRefine steps).expr .none).bind fun condition => ?_
    exact ih.body.bind fun body => .refl _
  · exact returning_refines steps
  · exact .refl _
  · refine (Refines.refl _).bind fun next => ?_
    split
    · exact assignment_refines steps
    · exact assignment_refines steps
    · exact expression_refines steps
  · exact expression_refines steps

/-- More steps never change a reading of statements that has come to a reply. -/
theorem stmtsRefine (steps : Nat) : StmtsRefine steps := by
  induction steps with
  | zero => exact ⟨.endless _, .endless _, .endless _, .endless _, .endless _⟩
  | succ steps ih =>
    refine ⟨stmt_succ_refines ih, ?_, ?_, ?_, ?_⟩
    · unfold laterArms
      refine (Refines.refl _).bind fun kind => ?_
      split
      · refine (Refines.refl _).bind fun keyword => ?_
        refine ((exprsRefine steps).expr .none).bind fun condition => ?_
        exact ih.body.bind fun body => ih.laterArms.bind fun arms => .refl _
      · exact (Refines.refl _).bind fun keyword => ih.body.bind fun body => .refl _
      · exact .refl _
    · unfold definition
      refine (Refines.refl _).bind fun keyword => (Refines.refl _).bind fun name => ?_
      refine (Refines.refl _).bind fun opening => ?_
      refine (parameters_refines steps).bind fun items => (Refines.refl _).bind fun result => ?_
      exact ih.body.bind fun body => .refl _
    · unfold body
      refine (Refines.refl _).bind fun colon => (Refines.refl _).bind fun kind => ?_
      split
      · refine (Refines.refl _).bind fun _ => (Refines.refl _).bind fun kind => ?_
        split
        · exact (Refines.refl _).bind fun _ => ih.block.bind fun stmts => .refl _
        · exact .refl _
      · exact .refl _
      · exact .refl _
      · exact .refl _
      · exact ih.stmt.bind fun stmt => .refl _
    · unfold block
      refine (Refines.refl _).bind fun more => (Refines.refl _).bind fun kind => ?_
      split
      · exact ih.stmt.bind fun first => ih.block.bind fun rest => .refl _
      · exact .refl _

theorem script_refines (steps : Nat) : Refines (script steps) (script (steps + 1)) := by
  induction steps with
  | zero => exact .endless _
  | succ steps ih =>
    unfold script
    refine (Refines.refl _).bind fun more => ?_
    split
    · exact (stmtsRefine steps).stmt.bind fun first => ih.bind fun rest => .refl _
    · exact .refl _

/-- What one step more keeps, any number of steps more keep. -/
theorem Refines.of_le {α : Type} {r : Nat → Reader α} (h : ∀ steps, Refines (r steps) (r (steps + 1)))
    {a b : Nat} (hab : a ≤ b) : Refines (r a) (r b) := by
  induction hab with
  | refl => exact .refl _
  | step _ ih => exact ih.trans (h _)

/-- After such a token an operand is awaited, and it may itself start that operand. -/
def awaitsOperand (kind : Token.Kind) : Bool :=
  match kind with
  | .kwNot | .dash | .openParen => true
  | _ => false

def Ends {α : Type} (s : Stream) (r : Reader α) : Prop := r s ≠ .endless

namespace Ends

variable {α β : Type} {s : Stream} {r : Reader α} {f : α → Reader β}

theorem pure (a : α) : Ends s (Pure.pure a) := by
  intro h
  cases h

theorem fail (why : Stream → Diagnostic) : Ends s (Reader.fail why : Reader α) := by
  intro h
  cases h

theorem takeLeaf (node : Node.Kind) : Ends s (Reader.takeLeaf node) := by
  intro h
  cases h

theorem expect (k : Token.Kind) : Ends s (Reader.expect k) := by
  intro h
  unfold Reader.expect at h
  split at h <;> cases h

theorem kind {f : Token.Kind → Reader β} (h : Ends s (f s.kind)) :
    Ends s (Reader.kind >>= f) := h

theorem nextKind {f : Token.Kind → Reader β} (h : Ends s (f s.nextKind)) :
    Ends s (Reader.nextKind >>= f) := h

theorem more {f : Bool → Reader β} (h : Ends s (f s.more)) : Ends s (Reader.more >>= f) := h

/-- One reader after another comes to a reply if both do. -/
theorem bind_of (hr : Ends s r) (hf : ∀ a t, r s = .ok a t → Ends t (f a)) :
    Ends s (r >>= f) := by
  intro h
  change Reader.bind r f s = .endless at h
  unfold Reader.bind at h
  cases ha : r s with
  | ok a t =>
    rw [ha] at h
    exact hf a t ha h
  | failed d t => simp [ha] at h
  | endless => exact hr ha

/-- One reader after another that takes `k` tokens at least, if so many are left. -/
theorem bind {P : α → List Token → Prop} (k : Nat) (hr : Ends s r) (hp : Reads s r P)
    (hk : ∀ a used, P a used → k ≤ used.length)
    (hf : ∀ a t, t.last = s.last → t.rest.length ≤ s.rest.length - k → Ends t (f a)) :
    Ends s (r >>= f) := by
  refine hr.bind_of fun a t ha => ?_
  obtain ⟨used, ht, hused⟩ := hp a t ha
  have hlength := ht.length
  have := hk a used hused
  exact hf a t ht.last (by omega)

/-- Nothing is read after a failure. -/
theorem bind_failed (hr : ∃ why t, r s = .failed why t) : Ends s (r >>= f) := by
  obtain ⟨why, t, hr⟩ := hr
  intro h
  change Reader.bind r f s = .endless at h
  simp [Reader.bind, hr] at h

theorem then_pure {g : α → β} (hr : Ends s r) : Ends s (do return g (← r)) :=
  hr.bind_of fun _ _ _ => pure _

theorem expectLeaf (k : Token.Kind) (node : Node.Kind) : Ends s (Reader.expectLeaf k node) :=
  (expect k).then_pure

theorem take_bind {f : Token → Reader β}
    (hf : ∀ a t, t.last = s.last → t.rest.length ≤ s.rest.length - 1 → Ends t (f a)) :
    Ends s (Reader.take >>= f) :=
  hf s.current s.advance rfl (by simp [Stream.advance])

theorem takeLeaf_bind (node : Node.Kind) {f : Node → Reader β}
    (hf : ∀ a t, t.last = s.last → t.rest.length ≤ s.rest.length - 1 → Ends t (f a)) :
    Ends s (Reader.takeLeaf node >>= f) :=
  hf (.leaf node s.current) s.advance rfl (by simp [Stream.advance])

theorem expectLeaf_bind (k : Token.Kind) (node : Node.Kind) {f : Node → Reader β}
    (hf : ∀ a t, t.last = s.last → t.rest.length ≤ s.rest.length - 1 → Ends t (f a)) :
    Ends s (Reader.expectLeaf k node >>= f) := by
  refine (expectLeaf k node).bind 1 (Reads.expectLeaf k node) ?_ hf
  rintro - - ⟨t, -, rfl, -⟩
  exact Nat.le_refl 1

end Ends

theorem expectLeaf_failed {s : Stream} {k : Token.Kind} (hk : s.kind ≠ k) (node : Node.Kind) :
    Reader.expectLeaf k node s = .failed s.unexpected s := by
  change Reader.bind (Reader.expect k) _ s = _
  simp [Reader.bind, Reader.expect, hk]

/-- Past the end reading goes nowhere. -/
theorem Stream.advance_past_end {s : Stream} (hs : s.rest = []) : s.advance = s := by
  cases s
  cases hs
  rfl

theorem operandKind?_power {k : Token.Kind} {node : Node.Kind} (h : operandKind? k = some node) :
    Power.ofKind k = .primary ∧ k ≠ .openParen ∧ operatorKind? k = none := by
  cases k <;> cases h <;> exact ⟨rfl, by decide, rfl⟩

theorem Stream.kind_past_end {s : Stream} (hs : s.rest = []) : s.kind = s.last.kind := by
  simp [Stream.kind, Stream.current, hs]

theorem operand_leaf {s : Stream} {node : Node.Kind} (steps : Nat)
    (h : operandKind? s.kind = some node) :
    operand (steps + 1) s = .ok (.leaf node s.current) s.advance := by
  unfold operand
  change (match s.kind with | .kwNot => _ | .dash => _ | .openParen => _ | kind => _ :
    Reader Node) s = _
  generalize s.kind = k at h ⊢
  cases k <;> cases h <;> rfl

/-- What can neither be nor start an operand is a failure at once. -/
theorem operand_failed {s : Stream} (steps : Nat) (h : operandKind? s.kind = none)
    (ha : awaitsOperand s.kind = false) : operand (steps + 1) s = .failed s.unexpected s := by
  unfold operand
  change (match s.kind with | .kwNot => _ | .dash => _ | .openParen => _ | kind => _ :
    Reader Node) s = _
  generalize s.kind = k at h ha ⊢
  cases k <;> first | cases h <;> rfl | cases ha

theorem climb_stops {s : Stream} {power : Power} (steps : Nat) (left : Node)
    (h : ¬power < .ofKind s.kind) : climb (steps + 1) power left s = .ok left s := by
  unfold climb
  change (if power < .ofKind s.kind then _ else _ : Reader Node) s = _
  rw [if_neg h]
  rfl

/-- A token that starts an expression cannot follow one. -/
theorem climb_failed {s : Stream} {power : Power} (steps : Nat) (left : Node)
    (h : power < .ofKind s.kind) (hopen : s.kind ≠ .openParen)
    (hoperator : operatorKind? s.kind = none) :
    climb (steps + 1) power left s = .failed s.unexpected s := by
  unfold climb
  change (if power < .ofKind s.kind then _ else _ : Reader Node) s = _
  rw [if_pos h]
  generalize s.kind = k at hopen hoperator ⊢
  cases k <;> first | contradiction | (cases hoperator; rfl)

/-- Past the end there is no expression: a token that is an operand cannot follow itself. -/
theorem expr_past_end {s : Stream} (hs : s.rest = []) (ha : awaitsOperand s.last.kind = false)
    (steps : Nat) {power : Power} (hp : power < .primary) :
    ∃ why t, expr (steps + 2) power s = .failed why t := by
  change ∃ why t, Reader.bind (operand (steps + 1)) (climb (steps + 1) power) s = .failed why t
  unfold Reader.bind
  cases hnode : operandKind? s.kind with
  | none =>
    rw [← Stream.kind_past_end hs] at ha
    rw [operand_failed steps hnode ha]
    exact ⟨_, _, rfl⟩
  | some node =>
    obtain ⟨hpower, hopen, hoperator⟩ := operandKind?_power hnode
    refine ⟨s.advance.unexpected, s.advance, ?_⟩
    have hk : s.advance.kind = s.kind := by simp [Stream.kind, Stream.current, Stream.advance, hs]
    rw [operand_leaf steps hnode]
    refine climb_failed steps _ ?_ ?_ ?_
    · rw [hk, hpower]
      exact hp
    · rw [hk]
      exact hopen
    · rw [hk]
      exact hoperator

theorem operatorKind?_power {k : Token.Kind} {node : Node.Kind} (h : operatorKind? k = some node) :
    Power.ofKind k < .primary := by
  cases k <;> cases h <;> decide

/-- Where an operand is awaited, the end has not been reached. -/
theorem Stream.rest_ne_nil {s : Stream} (ha : awaitsOperand s.last.kind = false)
    (hk : awaitsOperand s.kind = true) : 0 < s.rest.length := by
  rw [List.length_pos_iff]
  intro hs
  rw [Stream.kind_past_end hs, ha] at hk
  cases hk

theorem expr_takes {n : Node} {used : List Token} (h : Built .expr used [n]) : 1 ≤ used.length :=
  List.length_pos_iff.mpr (h.ne_nil (.inl rfl))

/-- Steps in proportion to the tokens left are enough for an expression. -/
structure ExprsEnd (steps : Nat) : Prop where
  expr : ∀ {s : Stream} {power : Power}, awaitsOperand s.last.kind = false → power < .primary →
    4 * s.rest.length + 3 ≤ steps → Ends s (expr steps power)
  operand : ∀ {s : Stream}, awaitsOperand s.last.kind = false →
    4 * s.rest.length + 2 ≤ steps → Ends s (operand steps)
  prefixed : ∀ {s : Stream} {power : Power}, awaitsOperand s.last.kind = false → power < .primary →
    0 < s.rest.length → 4 * s.rest.length + 1 ≤ steps → Ends s (prefixed steps power)
  climb : ∀ {s : Stream} {power : Power} (left : Node), awaitsOperand s.last.kind = false →
    4 * s.rest.length + 3 ≤ steps → Ends s (climb steps power left)
  arguments : ∀ {s : Stream}, awaitsOperand s.last.kind = false →
    4 * s.rest.length + 4 ≤ steps → Ends s (arguments steps)

/-- A reader that calls itself has taken a token before. -/
theorem operand_succ_ends {steps : Nat} (ih : ExprsEnd steps) {s : Stream}
    (ha : awaitsOperand s.last.kind = false) (hn : 4 * s.rest.length + 2 ≤ steps + 1) :
    Ends s (operand (steps + 1)) := by
  unfold operand
  refine Ends.kind ?_
  split
  · rename_i hk
    exact ih.prefixed ha (by decide) (Stream.rest_ne_nil ha (by rw [hk]; rfl)) (by omega)
  · rename_i hk
    exact ih.prefixed ha (by decide) (Stream.rest_ne_nil ha (by rw [hk]; rfl)) (by omega)
  · rename_i hk
    have hpos := Stream.rest_ne_nil ha (by rw [hk]; rfl)
    refine Ends.takeLeaf_bind _ fun opening t hlast ht => ?_
    rw [← hlast] at ha
    have hexpr : Ends t (expr steps .none) := ih.expr ha (by decide) (by omega)
    refine hexpr.bind 1 (expr_built steps .none) (fun _ _ => expr_takes) fun inner u _ _ => ?_
    exact (Ends.expectLeaf _ _).then_pure
  · split
    · exact Ends.takeLeaf _
    · exact Ends.fail _

theorem climb_succ_ends {steps : Nat} (ih : ExprsEnd steps) {s : Stream} {power : Power}
    (left : Node) (ha : awaitsOperand s.last.kind = false)
    (hn : 4 * s.rest.length + 3 ≤ steps + 1) : Ends s (climb (steps + 1) power left) := by
  unfold climb
  refine Ends.kind ?_
  split
  · split
    · rename_i hk
      have hpos := Stream.rest_ne_nil ha (by rw [hk]; rfl)
      refine Ends.takeLeaf_bind _ fun opening t hlast ht => ?_
      rw [← hlast] at ha
      have harguments : Ends t (arguments steps) := ih.arguments ha (by omega)
      refine harguments.bind 0 (exprsBuilt steps).arguments (fun _ _ _ => Nat.zero_le _)
        fun items u hlast hu => ?_
      rw [← hlast] at ha
      exact ih.climb _ ha (by omega)
    · rename_i node hnode _
      refine Ends.takeLeaf_bind _ fun operator t hlast ht => ?_
      rw [← hlast] at ha
      by_cases hempty : t.rest = []
      · obtain ⟨steps, rfl⟩ := Nat.exists_eq_add_of_le' (show 2 ≤ steps by omega)
        exact Ends.bind_failed (expr_past_end hempty ha steps (operatorKind?_power hnode))
      · have hpos := List.length_pos_iff.mpr hempty
        have hexpr : Ends t (expr steps _) := ih.expr ha (operatorKind?_power hnode) (by omega)
        refine hexpr.bind 1 (expr_built steps _) (fun _ _ => expr_takes) fun right u hlast hu => ?_
        rw [← hlast] at ha
        exact ih.climb _ ha (by omega)
    · exact Ends.fail _
  · exact Ends.pure _

theorem arguments_succ_ends {steps : Nat} (ih : ExprsEnd steps) {s : Stream}
    (ha : awaitsOperand s.last.kind = false) (hn : 4 * s.rest.length + 4 ≤ steps + 1) :
    Ends s (arguments (steps + 1)) := by
  unfold arguments
  refine Ends.kind ?_
  split
  · exact (Ends.takeLeaf _).then_pure
  · by_cases hempty : s.rest = []
    · obtain ⟨steps, rfl⟩ := Nat.exists_eq_add_of_le' (show 2 ≤ steps by omega)
      exact Ends.bind_failed (expr_past_end hempty ha steps (by decide))
    · have hpos := List.length_pos_iff.mpr hempty
      have hexpr : Ends s (expr steps .none) := ih.expr ha (by decide) (by omega)
      refine hexpr.bind 1 (expr_built steps .none) (fun _ _ => expr_takes) fun argument t hlast ht => ?_
      refine Ends.kind ?_
      split
      · refine Ends.takeLeaf_bind _ fun comma u hlast' hu => ?_
        exact (ih.arguments (by rw [hlast', hlast]; exact ha) (by omega)).then_pure
      · exact (Ends.expectLeaf _ _).then_pure

/-- Steps in proportion to the tokens that are left are enough for expressions, by induction on the
steps. -/
theorem exprsEnd (steps : Nat) : ExprsEnd steps := by
  induction steps with
  | zero =>
    refine ⟨fun _ _ h => ?_, fun _ h => ?_, fun _ _ _ h => ?_, fun _ _ h => ?_, fun _ h => ?_⟩ <;>
      omega
  | succ steps ih =>
    refine ⟨fun {s power} ha hp hn => ?_, operand_succ_ends ih, fun {s power} ha hp hpos hn => ?_,
      climb_succ_ends ih, arguments_succ_ends ih⟩
    · by_cases hempty : s.rest = []
      · obtain ⟨steps, rfl⟩ := Nat.exists_eq_add_of_le' (show 1 ≤ steps by omega)
        obtain ⟨why, t, h⟩ := expr_past_end hempty ha steps hp
        intro h'
        rw [h] at h'
        cases h'
      · have hpos := List.length_pos_iff.mpr hempty
        have hoperand : Ends s (operand steps) := ih.operand ha (by omega)
        refine hoperand.bind 1 (exprsBuilt steps).operand (fun _ _ => expr_takes)
          fun left t hlast ht => ?_
        rw [← hlast] at ha
        exact ih.climb left ha (by omega)
    · unfold prefixed
      refine Ends.takeLeaf_bind _ fun operator t hlast ht => ?_
      rw [← hlast] at ha
      exact (ih.expr ha hp (by omega)).then_pure

theorem typeName_ends {s : Stream} : Ends s typeName := by
  unfold typeName
  refine Ends.kind ?_
  split
  · exact Ends.takeLeaf _
  · exact Ends.takeLeaf _
  · exact Ends.fail _

theorem typeAfter_ends {s : Stream} (mark : Token.Kind) (node : Node.Kind) :
    Ends s (typeAfter mark node) :=
  Ends.expectLeaf_bind mark node fun _ _ _ _ => typeName_ends.then_pure

theorem typeIf_ends {s : Stream} (mark : Token.Kind) (node : Node.Kind) :
    Ends s (typeIf mark node) := by
  unfold typeIf
  refine Ends.kind ?_
  split
  · exact (typeAfter_ends mark node).then_pure
  · exact Ends.pure _

theorem parameters_ends {steps : Nat} {s : Stream} (hn : s.rest.length + 1 ≤ steps) :
    Ends s (parameters steps) := by
  induction steps generalizing s with
  | zero => omega
  | succ steps ih =>
    unfold parameters
    refine Ends.kind ?_
    split
    · exact (Ends.takeLeaf _).then_pure
    · by_cases hempty : s.rest = []
      · -- past the end the name would have to be its own colon
        refine (Ends.expectLeaf _ _).bind_of fun name t hname => ?_
        obtain ⟨used, htakes, token, hk, rfl, -⟩ := Reads.expectLeaf _ _ name t hname
        obtain ⟨htoken, ht⟩ := htakes
        have hcolon : t.kind ≠ .colon := by
          rw [show t = s from ht.trans (Stream.advance_past_end hempty), Stream.kind, htoken, hk]
          decide
        refine Ends.bind_failed ⟨t.unexpected, t, ?_⟩
        change Reader.bind (Reader.expectLeaf _ _) _ t = _
        simp only [Reader.bind, expectLeaf_failed hcolon]
      · have hpos := List.length_pos_iff.mpr hempty
        refine Ends.expectLeaf_bind _ _ fun name t _ ht => ?_
        refine (typeAfter_ends _ _).bind 0 (typeAfter_built _ _) (fun _ _ _ => Nat.zero_le _)
          fun typed u _ hu => ?_
        refine Ends.kind ?_
        split
        · exact Ends.takeLeaf_bind _ fun comma v _ hv => (ih (by omega)).then_pure
        · exact (Ends.expectLeaf _ _).then_pure

theorem expect_ends {α : Type} {s : Stream} (k : Token.Kind) (a : α) :
    Ends s (do let _ ← Reader.expect k; return a) := (Ends.expect k).then_pure

/-- An expression up to the end of its line. -/
theorem line_ends {α : Type} {steps : Nat} {s : Stream} (ha : awaitsOperand s.last.kind = false)
    (hn : 4 * s.rest.length + 3 ≤ steps) (g : Node → α) :
    Ends s (do let value ← expr steps .none; let _ ← Reader.expect .newline; return g value) := by
  have hexpr : Ends s (expr steps .none) := (exprsEnd steps).expr ha (by decide) hn
  exact hexpr.bind_of fun value t _ => expect_ends .newline (g value)

theorem assignment_ends {steps : Nat} {s : Stream} (ha : awaitsOperand s.last.kind = false)
    (hn : 4 * s.rest.length + 3 ≤ steps) : Ends s (assignment steps) := by
  unfold assignment
  refine Ends.expectLeaf_bind _ _ fun name t ht hname => ?_
  refine (typeIf_ends _ _).bind 0 (typeIf_built _ _) (fun _ _ _ => Nat.zero_le _)
    fun typed u hu htyped => ?_
  refine Ends.expectLeaf_bind _ _ fun operator v hv hoperator => ?_
  exact line_ends (by rw [hv, hu, ht]; exact ha) (by omega) _

theorem returning_ends {steps : Nat} {s : Stream} (ha : awaitsOperand s.last.kind = false)
    (hn : 4 * s.rest.length + 3 ≤ steps) : Ends s (returning steps) := by
  unfold returning
  refine Ends.takeLeaf_bind _ fun keyword t ht hkeyword => Ends.kind ?_
  split
  · exact Ends.take_bind fun _ _ _ _ => Ends.pure _
  · exact line_ends (by rw [ht]; exact ha) (by omega) _

theorem passing_ends {s : Stream} : Ends s passing :=
  Ends.takeLeaf_bind _ fun _ _ _ _ => expect_ends .newline _

/-- Steps in proportion to the tokens left are enough for a statement. -/
structure StmtsEnd (steps : Nat) : Prop where
  stmt : ∀ {s : Stream}, awaitsOperand s.last.kind = false →
    4 * s.rest.length + 5 ≤ steps → Ends s (stmt steps)
  laterArms : ∀ {s : Stream}, awaitsOperand s.last.kind = false →
    4 * s.rest.length + 8 ≤ steps → Ends s (laterArms steps)
  definition : ∀ {s : Stream}, awaitsOperand s.last.kind = false → s.kind = .kwDef →
    4 * s.rest.length + 4 ≤ steps → Ends s (definition steps)
  body : ∀ {s : Stream}, awaitsOperand s.last.kind = false →
    4 * s.rest.length + 7 ≤ steps → Ends s (body steps)
  block : ∀ {s : Stream}, awaitsOperand s.last.kind = false →
    4 * s.rest.length + 6 ≤ steps → Ends s (block steps)

/-- A condition, and what follows it with at least one token less. -/
theorem condition_ends {α : Type} {steps : Nat} {s : Stream} {f : Node → Reader α}
    (ha : awaitsOperand s.last.kind = false) (hn : 4 * s.rest.length + 3 ≤ steps)
    (hf : ∀ condition t, t.last = s.last → t.rest.length < s.rest.length → Ends t (f condition)) :
    Ends s (expr steps .none >>= f) := by
  by_cases hempty : s.rest = []
  · obtain ⟨steps, rfl⟩ := Nat.exists_eq_add_of_le' (show 2 ≤ steps by omega)
    exact Ends.bind_failed (expr_past_end hempty ha steps (by decide))
  · have hpos := List.length_pos_iff.mpr hempty
    have hexpr : Ends s (expr steps .none) := (exprsEnd steps).expr ha (by decide) hn
    exact hexpr.bind 1 (expr_built steps .none) (fun _ _ => expr_takes)
      fun condition t hlast ht => hf condition t hlast (by omega)

/-- The first words of a statement decide which of its readers has to end. -/
theorem stmt_succ_ends {steps : Nat} (ih : StmtsEnd steps) {s : Stream}
    (ha : awaitsOperand s.last.kind = false) (hn : 4 * s.rest.length + 5 ≤ steps + 1) :
    Ends s (stmt (steps + 1)) := by
  have hexpression : Ends s (expression steps) := line_ends ha (by omega) _
  unfold stmt
  refine Ends.kind ?_
  split
  · rename_i hk
    exact ih.definition ha hk (by omega)
  · refine Ends.takeLeaf_bind _ fun keyword t ht hkeyword => ?_
    rw [← ht] at ha
    refine condition_ends ha (by omega) fun condition u hu hcondition => ?_
    rw [← hu] at ha
    have hbody : Ends u (body steps) := ih.body ha (by omega)
    refine hbody.bind 0 (stmtsBuilt steps).body (fun _ _ _ => Nat.zero_le _) fun yes v hv hyes => ?_
    rw [← hv] at ha
    exact (ih.laterArms ha (by omega)).then_pure
  · refine Ends.takeLeaf_bind _ fun keyword t ht hkeyword => ?_
    rw [← ht] at ha
    refine condition_ends ha (by omega) fun condition u hu hcondition => ?_
    rw [← hu] at ha
    exact (ih.body ha (by omega)).then_pure
  · exact returning_ends ha (by omega)
  · exact passing_ends
  · refine Ends.nextKind ?_
    split
    · exact assignment_ends ha (by omega)
    · exact assignment_ends ha (by omega)
    · exact hexpression
  · exact hexpression

theorem laterArms_succ_ends {steps : Nat} (ih : StmtsEnd steps) {s : Stream}
    (ha : awaitsOperand s.last.kind = false) (hn : 4 * s.rest.length + 8 ≤ steps + 1) :
    Ends s (laterArms (steps + 1)) := by
  unfold laterArms
  refine Ends.kind ?_
  split
  · refine Ends.takeLeaf_bind _ fun keyword t ht hkeyword => ?_
    rw [← ht] at ha
    refine condition_ends ha (by omega) fun condition u hu hcondition => ?_
    rw [← hu] at ha
    have hbody : Ends u (body steps) := ih.body ha (by omega)
    refine hbody.bind 0 (stmtsBuilt steps).body (fun _ _ _ => Nat.zero_le _) fun yes v hv hyes => ?_
    rw [← hv] at ha
    exact (ih.laterArms ha (by omega)).then_pure
  · refine Ends.takeLeaf_bind _ fun keyword t ht hkeyword => ?_
    rw [← ht] at ha
    exact (ih.body ha (by omega)).then_pure
  · exact Ends.pure _

theorem definition_succ_ends {steps : Nat} (ih : StmtsEnd steps) {s : Stream}
    (ha : awaitsOperand s.last.kind = false) (hk : s.kind = .kwDef)
    (hn : 4 * s.rest.length + 4 ≤ steps + 1) : Ends s (definition (steps + 1)) := by
  unfold definition
  by_cases hempty : s.rest = []
  · change Ends s.advance (Reader.expectLeaf _ _ >>= _)
    rw [Stream.advance_past_end hempty]
    exact Ends.bind_failed ⟨_, _, expectLeaf_failed (by rw [hk]; decide) _⟩
  · have hpos := List.length_pos_iff.mpr hempty
    refine Ends.takeLeaf_bind _ fun keyword t ht hkeyword => ?_
    refine Ends.expectLeaf_bind _ _ fun name u hu hname => ?_
    refine Ends.expectLeaf_bind _ _ fun opening v hv hopening => ?_
    have hitems : Ends v (parameters steps) := parameters_ends (by omega)
    refine hitems.bind 0 (parameters_built steps) (fun _ _ _ => Nat.zero_le _) fun items w hw hw' => ?_
    refine (typeIf_ends _ _).bind 0 (typeIf_built _ _) (fun _ _ _ => Nat.zero_le _)
      fun result x hx hx' => ?_
    exact (ih.body (by rw [hx, hw, hv, hu, ht]; exact ha) (by omega)).then_pure

/-- A body takes its colon before it reads a statement or a block. -/
theorem body_succ_ends {steps : Nat} (ih : StmtsEnd steps) {s : Stream}
    (ha : awaitsOperand s.last.kind = false) (hn : 4 * s.rest.length + 7 ≤ steps + 1) :
    Ends s (body (steps + 1)) := by
  unfold body
  refine Ends.expectLeaf_bind _ _ fun colon t ht hcolon => Ends.kind ?_
  rw [← ht] at ha
  split
  · refine Ends.take_bind fun _ u hu hnewline => Ends.kind ?_
    rw [← hu] at ha
    split
    · refine Ends.take_bind fun _ v hv hindent => ?_
      rw [← hv] at ha
      exact (ih.block ha (by omega)).then_pure
    · exact Ends.fail _
  · exact Ends.fail _
  · exact Ends.fail _
  · exact Ends.fail _
  · exact (ih.stmt ha (by omega)).then_pure

theorem Stream.more_iff {s : Stream} : s.more = true ↔ s.rest ≠ [] ∧ s.kind ≠ .eof := by
  simp [Stream.more]

/-- Statements one after another, each with at least one token. -/
theorem statements_end {steps : Nat} {s : Stream} {r : Reader (List Node)}
    (ha : awaitsOperand s.last.kind = false) (hpos : 0 < s.rest.length)
    (hstmt : Ends s (stmt steps))
    (hr : ∀ t : Stream, awaitsOperand t.last.kind = false → t.rest.length < s.rest.length → Ends t r) :
    Ends s (do let first ← stmt steps; let rest ← r; return first :: rest) := by
  refine hstmt.bind 1 (stmtsBuilt steps).stmt ?_ fun first t ht hfirst => ?_
  · intro n used hused
    exact List.length_pos_iff.mpr (hused.ne_nil (.inr rfl))
  · exact (hr t (by rw [ht]; exact ha) (by omega)).then_pure

/-- Steps in proportion to the tokens that are left are enough for statements. -/
theorem stmtsEnd (steps : Nat) : StmtsEnd steps := by
  induction steps with
  | zero => refine ⟨fun _ h => ?_, fun _ h => ?_, fun _ _ h => ?_, fun _ h => ?_, fun _ h => ?_⟩ <;> omega
  | succ steps ih =>
    refine ⟨stmt_succ_ends ih, laterArms_succ_ends ih, definition_succ_ends ih, body_succ_ends ih,
      fun {s} ha hn => ?_⟩
    unfold block
    refine Ends.more (Ends.kind ?_)
    split
    · rename_i hmore
      have hpos : 0 < s.rest.length := by
        rw [List.length_pos_iff]
        exact (Stream.more_iff.mp (Bool.and_eq_true_iff.mp hmore).1).1
      exact statements_end ha hpos (ih.stmt ha (by omega)) fun t ht hlt => ih.block ht (by omega)
    · exact expect_ends .dedent []

theorem script_ends {steps : Nat} {s : Stream} (ha : awaitsOperand s.last.kind = false)
    (hn : 4 * s.rest.length + 6 ≤ steps) : Ends s (script steps) := by
  induction steps generalizing s with
  | zero => omega
  | succ steps ih =>
    unfold script
    refine Ends.more ?_
    split
    · rename_i hmore
      have hpos := List.length_pos_iff.mpr (Stream.more_iff.mp hmore).1
      exact statements_end ha hpos ((stmtsEnd steps).stmt ha (by omega))
        fun t ht hlt => ih ht (by omega)
    · exact Ends.pure _

/-- A list comes to a tree or a failure unless its last token awaits an operand. -/
theorem parse_ends {s : Stream} (ha : awaitsOperand s.last.kind = false) : parse s ≠ .endless := by
  have hscript : Ends s (script (enoughSteps s.rest.length)) :=
    script_ends ha (by unfold enoughSteps; omega)
  refine hscript.bind_of fun ns t _ => ?_
  intro h
  cases ns <;> cases h

/-- The statements that some number of steps give are the tree. -/
theorem parse_of_script {s t : Stream} {ns : List Node} {steps : Nat}
    (ha : awaitsOperand s.last.kind = false) (h : script steps s = .ok ns t) :
    ∃ tree, parse s = .ok tree t ∧ tree.kind = .script ∧ tree.children = ns := by
  have hends : script (enoughSteps s.rest.length) s ≠ .endless :=
    script_ends ha (by unfold enoughSteps; omega)
  have hscript : script (enoughSteps s.rest.length) s = .ok ns t := by
    rcases Nat.le_total steps (enoughSteps s.rest.length) with hle | hle
    · exact (Refines.of_le script_refines hle).ok h
    · rcases Refines.of_le script_refines hle s with hs | hs
      · exact absurd hs hends
      · rw [← hs, h]
  change ∃ tree, Reader.bind (script _) root s = .ok tree t ∧ _
  unfold Reader.bind
  rw [hscript]
  cases ns with
  | nil => exact ⟨_, rfl, rfl, rfl⟩
  | cons n ns => exact ⟨_, rfl, rfl, rfl⟩

end StackScript.Tree
