import Mathlib.Order.Monotone.Basic
import StackScript.Proofs.LineCuts

namespace StackScript.Token

/-- Both fail for the same cause, or both succeed and their values are related. -/
inductive Agree {α β : Type} (R : α → β → Prop) :
    Except Diagnostic α → Except Diagnostic β → Prop where
  | ok {a : α} {b : β} : R a b → Agree R (.ok a) (.ok b)
  | error {d e : Diagnostic} : e.cause = d.cause → Agree R (.error d) (.error e)

namespace Agree

variable {α β γ δ : Type} {R : α → β → Prop} {S : γ → δ → Prop} {x : Except Diagnostic α}
  {y : Except Diagnostic β}

theorem bind {f : α → Except Diagnostic γ} {g : β → Except Diagnostic δ} (h : Agree R x y)
    (hf : ∀ a b, x = .ok a → y = .ok b → R a b → Agree S (f a) (g b)) :
    Agree S (x >>= f) (y >>= g) := by
  cases h with
  | ok hab => exact hf _ _ rfl rfl hab
  | error hc => exact .error hc

theorem imp {Q : α → β → Prop} (h : Agree R x y)
    (hQ : ∀ a b, x = .ok a → y = .ok b → R a b → Q a b) : Agree Q x y := by
  cases h with
  | ok hab => exact .ok (hQ _ _ rfl rfl hab)
  | error hc => exact .error hc

theorem map {f : α → γ} {g : β → δ} (h : Agree R x y) (hf : ∀ a b, R a b → S (f a) (g b)) :
    Agree S (x.map f) (y.map g) := by
  cases h with
  | ok hab => exact .ok (hf _ _ hab)
  | error hc => exact .error hc

theorem refl {R : α → α → Prop} (hR : ∀ a, R a a) (x : Except Diagnostic α) : Agree R x x := by
  cases x with
  | ok a => exact .ok (hR a)
  | error d => exact .error rfl

theorem symm {Q : β → α → Prop} (h : Agree R x y) (hQ : ∀ a b, R a b → Q b a) : Agree Q y x := by
  cases h with
  | ok hab => exact .ok (hQ _ _ hab)
  | error hc => exact .error hc.symm

/-- Outcomes that agree with a third one agree, for relations that compose. -/
theorem trans {Q : β → γ → Prop} {P : α → γ → Prop} {z : Except Diagnostic γ} (h : Agree R x y)
    (h' : Agree Q y z) (hP : ∀ a b c, R a b → Q b c → P a c) : Agree P x z := by
  cases h with
  | ok hab =>
    cases h' with
    | ok hbc => exact .ok (hP _ _ _ hab hbc)
  | error hc =>
    cases h' with
    | error hc' => exact .error (hc'.trans hc)

end Agree

def SameWords (tokens tokens' : List Token) : Prop := tokens'.map word = tokens.map word

/-- An accepted text, by a test of its tokens. -/
theorem exists_tokens_of_any {source file : String} {p : List Token → Bool}
    (h : (scan source file).toOption.any p = true) :
    ∃ tokens, scan source file = .ok tokens ∧ p tokens = true := by
  cases hscan : scan source file with
  | error d =>
    rw [hscan] at h
    cases h
  | ok tokens =>
    rw [hscan] at h
    exact ⟨tokens, rfl, h⟩

/-- Closing levels goes by the order of columns only. -/
theorem closeLevels_map {f : Nat → Nat} (hf : StrictMono f) (column : Nat) (levels : List Nat) :
    closeLevels (f column) (levels.map f) =
      ((closeLevels column levels).1, (closeLevels column levels).2.map f) := by
  fun_induction closeLevels column levels with
  | case1 top below outer hlt closed open_ hclose ih =>
    rw [hclose] at ih
    rw [List.map_cons, List.map_cons, closeLevels, if_pos (hf hlt), ← List.map_cons, ih]
  | case2 top below outer hle =>
    rw [List.map_cons, List.map_cons, closeLevels, if_neg (fun h => hle (hf.lt_iff_lt.mp h))]
  | case3 levels hshort =>
    rcases levels with _ | ⟨top, _ | ⟨below, outer⟩⟩
    · rfl
    · rfl
    · exact absurd rfl (hshort top below outer)

/-- At a gap character the next lexeme is the whole gap, or a line end that starts with it. -/
theorem lexeme?_of_isGap {c : Char} (hc : isGap c = true) (cs : List Char) :
    lexeme? (c :: cs) = some (.gap, c :: cs.takeWhile isGap) ∨
      ∃ more, c = '\r' ∧ cs = '\n' :: more ∧ lexeme? (c :: cs) = some (.lineEnd, ['\r', '\n']) := by
  simp only [isGap, Bool.or_eq_true, beq_iff_eq] at hc
  rcases hc with (rfl | rfl) | rfl
  · exact .inl rfl
  · exact .inl rfl
  · rcases cs with _ | ⟨d, cs⟩
    · exact .inl rfl
    · by_cases hd : d = '\n'
      · subst hd
        exact .inr ⟨cs, rfl, rfl, rfl⟩
      · have hend : lineEnd? ('\r' :: d :: cs) = none := by
          unfold lineEnd?
          split <;> simp_all
        left
        rw [lexeme?, if_neg (by decide), if_neg (by decide), hend]
        exact if_pos rfl

namespace Scanner

/-- The same state but for the places of tokens and the text to come, with levels at the columns that
`f` gives. -/
structure Alike (f : Nat → Nat) (s t : Scanner) : Prop where
  lineStart : t.lineStart = s.lineStart
  levels : t.levels = s.levels.map f
  parens : t.parens = s.parens
  words : SameWords s.tokens t.tokens

structure InStep (f : Nat → Nat) (s t : Scanner) : Prop extends Alike f s t where
  rest : t.rest = s.rest

variable {f : Nat → Nat} {s t u : Scanner}

namespace Alike

theorem symm (h : Alike id s t) : Alike id t s :=
  ⟨h.lineStart.symm, by rw [h.levels, List.map_id, List.map_id], h.parens.symm, Eq.symm h.words⟩

theorem trans {g : Nat → Nat} (h : Alike f s t) (h' : Alike g t u) : Alike (g ∘ f) s u :=
  ⟨h'.lineStart.trans h.lineStart, by rw [h'.levels, h.levels, List.map_map],
    h'.parens.trans h.parens, Eq.trans h'.words h.words⟩

theorem atLine_iff (h : Alike f s t) : t.AtLine ↔ s.AtLine := by
  constructor
  · rintro ⟨hl, hp⟩
    exact ⟨h.lineStart ▸ hl, h.parens ▸ hp⟩
  · rintro ⟨hl, hp⟩
    exact ⟨h.lineStart.trans hl, h.parens.trans hp⟩

theorem skip (h : Alike f s t) (text text' : List Char) : Alike f (s.skip text) (t.skip text') :=
  ⟨h.lineStart, h.levels, h.parens, h.words⟩

theorem withLevels (h : Alike f s t) (levels : List Nat) :
    Alike f { s with levels } { t with levels := levels.map f } :=
  ⟨h.lineStart, rfl, h.parens, h.words⟩

theorem push (h : Alike f s t) (kind : Kind) (value : String) (text text' : List Char) :
    Alike f (s.push kind value text) (t.push kind value text') := by
  refine ⟨h.lineStart, h.levels, h.parens, ?_⟩
  change List.map word (_ :: t.tokens) = List.map word (_ :: s.tokens)
  rw [List.map_cons, List.map_cons, h.words]
  rfl

theorem pushDedents (h : Alike f s t) (n : Nat) : Alike f (s.pushDedents n) (t.pushDedents n) := by
  induction n generalizing s t with
  | zero => exact h
  | succ n ih => exact ih (h.push .dedent "<dedent>" [] [])

theorem pushNewline (h : Alike f s t) (text text' : List Char) :
    Alike f (s.pushNewline text) (t.pushNewline text') := by
  have hwords : t.tokens.map word = s.tokens.map word := h.words
  unfold Scanner.pushNewline
  cases hs : s.tokens with
  | nil =>
    rw [hs] at hwords
    rw [List.map_eq_nil_iff.mp hwords]
    exact h
  | cons a tokens =>
    rw [hs] at hwords
    obtain ⟨b, tokens', ht, hb, -⟩ := List.map_eq_cons_iff.mp hwords
    have hkind : b.kind = a.kind := congrArg Word.kind hb
    rw [ht]
    dsimp only
    rw [hkind]
    split
    · exact h
    · exact h.push .newline "\n" text text'

/-- At the end of the text the open levels are closed, and there are as many of them on both
sides. -/
theorem finish (h : Alike f s t) : SameWords s.finish t.finish := by
  have hclosed := ((h.pushNewline [] []).pushDedents (s.levels.length - 1)).push .eof "EOF" [] []
  have hcount : t.levels.length = s.levels.length := by rw [h.levels, List.length_map]
  have hwords := congrArg List.reverse hclosed.words
  unfold SameWords Scanner.finish
  rw [hcount, List.map_reverse, List.map_reverse]
  exact hwords

theorem takeWord (h : Alike f s t) (kind : Kind) (text : List Char) :
    Alike f (s.takeWord kind text) (t.takeWord kind text) := by
  have hpushed := h.push kind (wordValue kind text) text text
  refine ⟨hpushed.lineStart, hpushed.levels, ?_, hpushed.words⟩
  unfold Scanner.takeWord
  rw [h.parens]

theorem takeLineEnd (h : Alike f s t) (text text' : List Char) :
    Alike f (s.takeLineEnd text) (t.takeLineEnd text') := by
  have hnewline := h.pushNewline text text'
  unfold Scanner.takeLineEnd
  rw [h.parens]
  split
  · exact ⟨rfl, hnewline.levels, hnewline.parens, hnewline.words⟩
  · exact h.skip text text'

/-- A line is put at its level in the same way if its column is where `f` says. -/
theorem indentTo (hf : StrictMono f) (h : Alike f s t) (column : Nat) :
    Agree (Alike f) (s.indentTo column) (t.indentTo (f column)) := by
  cases hl : s.levels with
  | nil =>
    have hl' : t.levels = [] := by rw [h.levels, hl, List.map_nil]
    rw [Scanner.indentTo, Scanner.indentTo, hl, hl']
    exact .ok ⟨h.lineStart, rfl, h.parens, h.words⟩
  | cons top outer =>
    have hl' : t.levels = f top :: outer.map f := by rw [h.levels, hl, List.map_cons]
    rw [Scanner.indentTo, Scanner.indentTo, hl, hl']
    dsimp only
    by_cases hlt : top < column
    · rw [if_pos hlt, if_pos (hf hlt)]
      exact .ok ((h.withLevels (column :: top :: outer)).push .indent "<indent>" [] [])
    · rw [if_neg hlt, if_neg (fun hlt' => hlt (hf.lt_iff_lt.mp hlt')), ← List.map_cons,
        closeLevels_map hf]
      dsimp only
      have hhead : ((closeLevels column (top :: outer)).2.map f).head? = some (f column) ↔
          (closeLevels column (top :: outer)).2.head? = some column := by
        rw [List.head?_map, Option.map_eq_some_iff]
        constructor
        · rintro ⟨level, hlevel, he⟩
          rw [hlevel, hf.injective he]
        · intro he
          exact ⟨column, he, rfl⟩
      simp only [hhead]
      split
      · exact .ok ((h.withLevels _).pushDedents _)
      · exact .error rfl

end Alike

theorem indentTo_rest {column : Nat} (h : s.indentTo column = .ok t) : t.rest = s.rest := by
  unfold Scanner.indentTo at h
  split at h
  · cases h
    rfl
  · split at h
    · cases h
      rfl
    · dsimp only at h
      split at h
      · cases h
        exact pushDedents_rest _ _
      · cases h

theorem takeLineEnd_rest (s : Scanner) (text : List Char) :
    (s.takeLineEnd text).rest = s.rest.drop text.length := by
  unfold takeLineEnd
  split
  · change ((s.pushNewline text).skip text).rest = _
    unfold skip
    rw [pushNewline_rest]
  · rfl

namespace InStep

/-- The next lexeme is the same text on both sides, so it is taken in the same way. -/
theorem takeLexeme (h : InStep f s t) : Agree (InStep f) s.takeLexeme t.takeLexeme := by
  have hdrop (text : List Char) : t.rest.drop text.length = s.rest.drop text.length := by
    rw [h.rest]
  unfold Scanner.takeLexeme
  rw [h.rest]
  split
  · exact .ok ⟨h.takeWord _ _, hdrop _⟩
  · refine .ok ⟨h.takeLineEnd _ _, ?_⟩
    rw [takeLineEnd_rest, takeLineEnd_rest, h.rest]
  · exact .ok ⟨h.toAlike.skip _ _, hdrop _⟩
  · exact .error rfl

end InStep

/-- Line starts with the same line behind blanks that lead to corresponding columns. -/
theorem Alike.startLine (hf : StrictMono f) (h : Alike f s t) (hline : t.line = s.line)
    (hcolumn : t.column = f s.column) : Agree (InStep f) s.startLine t.startLine := by
  have hentered : Alike f s.entered t.entered := ⟨rfl, h.levels, h.parens, h.words⟩
  have hrest (s : Scanner) : (s.skip (s.blanks ++ lineText s.line)).rest =
      s.line.drop (lineText s.line).length := by
    unfold Scanner.skip line
    rw [List.length_append, List.drop_drop]
  rw [startLine_eq_ite, startLine_eq_ite]
  by_cases hblank : isBlankLine s.line = true
  · rw [if_pos hblank, if_pos (hline ▸ hblank)]
    refine .ok ⟨h.skip _ _, ?_⟩
    rw [hrest, hrest, hline]
  · rw [if_neg hblank, if_neg (hline ▸ hblank), hcolumn]
    refine (hentered.indentTo hf s.column).imp fun a b ha hb hab => ⟨hab, ?_⟩
    rw [indentTo_rest ha, indentTo_rest hb]
    exact hline

/-- What steps keep in step, runs do; `P` is what has to hold for that. -/
theorem InStep.run {P : Scanner → Prop} (hkeep : ∀ s t, P s → s.Moves t → s.rest ≠ [] → P t)
    (hstep : ∀ s t, P s → s.rest ≠ [] → InStep f s t → Agree (InStep f) s.step t.step) (hs : P s)
    (h : InStep f s t) : Agree (Alike f) s.run t.run := by
  fun_induction Scanner.run s generalizing t with
  | case1 s hr =>
    rw [Scanner.run, dif_pos (h.rest.trans hr)]
    exact .ok h.toAlike
  | case2 s hr d hd =>
    have hagree := hstep s t hs hr h
    rw [hd] at hagree
    cases ht : t.step with
    | ok u =>
      rw [ht] at hagree
      cases hagree
    | error e =>
      rw [ht] at hagree
      rw [run_of_step_error (h.rest ▸ hr) ht]
      cases hagree with
      | error hc => exact .error hc
  | case3 s hr u hu _ ih =>
    have hagree := hstep s t hs hr h
    rw [hu] at hagree
    cases ht : t.step with
    | ok v =>
      rw [ht] at hagree
      rw [run_of_step (h.rest ▸ hr) ht]
      cases hagree with
      | ok huv => exact ih (hkeep s u hs (step_moves hu) hr) huv
    | error e =>
      rw [ht] at hagree
      cases hagree

/-- With the same columns whole steps agree, at line starts too. -/
theorem InStep.step (h : InStep id s t) : Agree (InStep id) s.step t.step := by
  have hblanks : t.blanks = s.blanks := by rw [blanks, blanks, h.rest]
  have hline : t.line = s.line := by rw [line, line, hblanks, h.rest]
  have hcolumn : t.column = s.column := by rw [column, column, hblanks]
  unfold Scanner.step
  rw [h.lineStart, h.parens]
  split
  · exact h.startLine strictMono_id hline hcolumn
  · exact h.takeLexeme

/-- Where the tokens so far stand in the text makes no difference to what follows. -/
theorem InStep.run_id (h : InStep id s t) : Agree (Alike id) s.run t.run :=
  h.run (P := fun _ => True) (fun _ _ _ _ _ => trivial) (fun _ _ _ _ h => h.step) trivial

def ungapped (s : Scanner) : Scanner := { s with rest := s.rest.dropWhile isGap }

theorem step_of_atLine (hs : s.AtLine) : s.step = s.startLine :=
  if_pos ⟨hs.lineStart, hs.parens⟩

theorem step_of_not_atLine (hs : ¬ s.AtLine) : s.step = s.takeLexeme :=
  if_neg fun hat => hs ⟨hat.1, hat.2⟩

/-- In the middle of a line, or inside parentheses, a gap makes no difference. -/
theorem run_ungapped (hs : ¬ s.AtLine) : Agree (Alike id) s.run s.ungapped.run := by
  have hs' : ¬ s.ungapped.AtLine := fun hat => hs ⟨hat.lineStart, hat.parens⟩
  have hsame : Alike id s s.ungapped := ⟨rfl, (List.map_id _).symm, rfl, rfl⟩
  by_cases hgap : ∀ c ∈ s.rest.head?, isGap c = false
  · have hrest : s.rest.dropWhile isGap = s.rest := by
      cases hr : s.rest with
      | nil => rfl
      | cons c cs =>
        rw [hr] at hgap
        rw [List.dropWhile_cons_of_neg (by rw [hgap c rfl]; decide)]
    exact InStep.run_id ⟨hsame, hrest⟩
  · simp only [not_forall, Bool.not_eq_false] at hgap
    obtain ⟨c, hhead, hc⟩ := hgap
    obtain ⟨cs, hr⟩ := List.head?_eq_some_iff.mp hhead
    have hne : s.rest ≠ [] := by
      rw [hr]
      exact List.cons_ne_nil c cs
    have hrest : s.ungapped.rest = cs.dropWhile isGap := by
      unfold ungapped
      rw [hr, List.dropWhile_cons_of_pos hc]
    rcases lexeme?_of_isGap hc cs with hx | ⟨more, rfl, rfl, hx⟩
    · have hstep : s.step = .ok (s.skip (c :: cs.takeWhile isGap)) := by
        rw [step_of_not_atLine hs, takeLexeme, hr, hx]
      rw [run_of_step hne hstep]
      refine InStep.run_id ⟨⟨rfl, hsame.levels, rfl, rfl⟩, ?_⟩
      unfold skip
      rw [hrest, hr, List.length_cons, List.drop_succ_cons, drop_takeWhile]
    · -- the carriage return counts to the gap now
      have hstep : s.step = .ok (s.takeLineEnd ['\r', '\n']) := by
        rw [step_of_not_atLine hs, takeLexeme, hr, hx]
      have hstep' : s.ungapped.step = .ok (s.ungapped.takeLineEnd ['\n']) := by
        rw [step_of_not_atLine hs', takeLexeme, hrest]
        rfl
      have hne' : s.ungapped.rest ≠ [] := by
        rw [hrest]
        exact List.cons_ne_nil '\n' more
      rw [run_of_step hne hstep, run_of_step hne' hstep']
      refine InStep.run_id ⟨hsame.takeLineEnd _ _, ?_⟩
      rw [takeLineEnd_rest, takeLineEnd_rest, hrest, hr]
      rfl

end Scanner

end StackScript.Token
