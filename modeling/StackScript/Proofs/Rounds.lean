import StackScript.Proofs.Lines

namespace StackScript.Token.Scanner

def blanks (s : Scanner) : List Char := s.rest.takeWhile isIndent

def line (s : Scanner) : List Char := s.rest.drop s.blanks.length

def column (s : Scanner) : Nat := columnOf s.blanks

def entered (s : Scanner) : Scanner := { s.skip s.blanks with lineStart := false }

theorem blanks_append_line (s : Scanner) : s.blanks ++ s.line = s.rest := by
  obtain ⟨line, hline⟩ := List.takeWhile_prefix (l := s.rest) isIndent
  change s.blanks ++ line = s.rest at hline
  have hdrop : s.line = line := by rw [Scanner.line, ← hline, List.drop_left]
  rw [hdrop, hline]

theorem startLine_eq_ite (s : Scanner) : s.startLine =
    if isBlankLine s.line then .ok (s.skip (s.blanks ++ lineText s.line))
    else s.entered.indentTo s.column := rfl

theorem pushDedents_eq (s : Scanner) (n : Nat) :
    s.pushDedents n =
      { s with tokens := List.replicate n ⟨.dedent, "<dedent>", s.spanOf []⟩ ++ s.tokens } := by
  induction n generalizing s with
  | zero => rfl
  | succ n ih =>
    rw [pushDedents, ih, List.replicate_succ', List.append_assoc]
    rfl

/-- A line that is ended already, or has no token, is not ended again. -/
theorem pushNewline_cases (s : Scanner) (text : List Char) :
    s.pushNewline text = s ∧ (∀ t ∈ s.tokens.head?, t.kind = .newline) ∨
      s.pushNewline text = s.push .newline "\n" text ∧ ∃ t ∈ s.tokens.head?, t.kind ≠ .newline := by
  unfold pushNewline
  split
  · rename_i hnil
    refine .inl ⟨rfl, fun t ht => ?_⟩
    rw [hnil] at ht
    cases ht
  · rename_i t tokens hcons
    split
    · rename_i hk
      refine .inl ⟨rfl, fun u hu => ?_⟩
      rw [hcons] at hu
      cases hu
      exact hk
    · rename_i hk
      exact .inr ⟨rfl, t, by rw [hcons]; rfl, hk⟩

theorem pushNewline_eq (s : Scanner) (text : List Char) :
    s.pushNewline text = { s with tokens := (s.pushNewline text).tokens } := by
  rcases pushNewline_cases s text with ⟨he, -⟩ | ⟨he, -⟩
  · rw [he]
  · rw [he]
    rfl

theorem finish_eq (s : Scanner) :
    s.finish = (List.replicate (s.levels.length - 1) (Token.mk .dedent "<dedent>" (s.spanOf [])) ++
      (s.pushNewline []).tokens).reverse ++ [⟨.eof, "EOF", s.spanOf []⟩] := by
  rw [finish, pushDedents_eq, pushNewline_eq]
  exact List.reverse_cons

structure AtWords (s : Scanner) : Prop extends s.AtLine where
  words : isBlankLine s.line = false

/-- What a step can do. -/
inductive Moves (s : Scanner) : Scanner → Prop where
  | blankLine : s.AtLine → isBlankLine s.line = true → Moves s (s.skip (s.blanks ++ lineText s.line))
  /-- The first line fixes the outermost level. -/
  | first : s.AtWords → s.levels = [] → Moves s { s.entered with levels := [s.column] }
  | deeper {top : Nat} {outer : List Nat} : s.AtWords → s.levels = top :: outer → top < s.column →
    Moves s ({ s.entered with levels := s.column :: s.levels }.push .indent "<indent>" [])
  | back {top closed : Nat} {outer levels : List Nat} : s.AtWords → s.levels = top :: outer →
    s.column ≤ top → closeLevels s.column s.levels = (closed, levels) →
    levels.head? = some s.column → Moves s ({ s.entered with levels }.pushDedents closed)
  | word {kind : Kind} {text : List Char} : ¬ s.AtLine → lexeme? s.rest = some (.word kind, text) →
    Moves s (s.takeWord kind text)
  | newline {text : List Char} : s.lineStart = false → s.parens = 0 →
    lexeme? s.rest = some (.lineEnd, text) →
    Moves s { (s.pushNewline text).skip text with lineStart := true }
  /-- A line end inside parentheses. -/
  | joined {text : List Char} : s.parens ≠ 0 → lexeme? s.rest = some (.lineEnd, text) →
    Moves s (s.skip text)
  | gap {text : List Char} : ¬ s.AtLine → lexeme? s.rest = some (.gap, text) →
    Moves s (s.skip text)

/-- The next line is outside of the innermost level, and at no level. -/
structure Strays (s : Scanner) : Prop extends s.AtWords where
  outside : ∃ top ∈ s.levels.head?, s.column < top
  stray : s.column ∉ s.levels

section

variable {s t : Scanner}

theorem startLine_moves (hs : s.AtLine) (h : s.startLine = .ok t) : s.Moves t := by
  unfold startLine at h
  dsimp only at h
  split at h
  · rename_i hblank
    cases h
    exact .blankLine hs hblank
  · rename_i hwords
    have hat : s.AtWords := ⟨hs, Bool.eq_false_iff.mpr hwords⟩
    change s.entered.indentTo s.column = .ok t at h
    unfold indentTo at h
    split at h
    · rename_i hl
      cases h
      exact .first hat hl
    · rename_i top outer hl
      split at h
      · rename_i htop
        cases h
        rw [← hl]
        exact .deeper hat hl htop
      · rename_i htop
        rw [← hl] at h
        dsimp only at h
        split at h
        · rename_i hhead
          cases h
          exact .back hat hl (Nat.le_of_not_lt htop) rfl hhead
        · cases h

theorem takeLexeme_moves (hs : ¬ s.AtLine) (h : s.takeLexeme = .ok t) : s.Moves t := by
  unfold takeLexeme at h
  split at h
  · rename_i hx
    cases h
    exact .word hs hx
  · rename_i text hx
    cases h
    unfold takeLineEnd
    split
    · rename_i hp
      have hline : s.lineStart = false := Bool.eq_false_iff.mpr fun hl => hs ⟨hl, hp⟩
      exact .newline hline hp hx
    · rename_i hp
      exact .joined hp hx
  · rename_i hx
    cases h
    exact .gap hs hx
  · cases h

/-- `Moves` says once what a step can do. -/
theorem step_moves (h : s.step = .ok t) : s.Moves t := by
  unfold step at h
  split at h
  · rename_i hs
    exact startLine_moves ⟨hs.1, hs.2⟩ h
  · rename_i hs
    exact takeLexeme_moves (fun ha => hs ⟨ha.lineStart, ha.parens⟩) h

theorem run_of_step_error {d : Diagnostic} (hr : s.rest ≠ []) (h : s.step = .error d) :
    s.run = .error d := by
  rw [run, dif_neg hr]
  split
  · rename_i hstep
    rw [h] at hstep
    cases hstep
    rfl
  · rename_i hstep
    rw [h] at hstep
    cases hstep

theorem Moves.file_eq (h : s.Moves t) : t.file = s.file := by
  cases h with
  | back => rw [pushDedents_eq]; rfl
  | newline => rw [pushNewline_eq]; rfl
  | _ => rfl

end

/-- The states that scanning a text comes to, with the number of steps it has taken. -/
inductive Rounds (source file : String) : Nat → Scanner → Prop where
  | start : Rounds source file 0 (.start source file)
  | next {n : Nat} {s t : Scanner} : Rounds source file n s → s.rest ≠ [] → s.step = .ok t →
    Rounds source file (n + 1) t

namespace Rounds

variable {source file : String} {n : Nat} {s : Scanner}

/-- What holds at the start and is kept by what a step can do holds in every round. -/
theorem induct {P : Scanner → Prop} (h : Rounds source file n s) (hstart : P (.start source file))
    (hmoves : ∀ s t, s.Moves t → P s → P t) : P s := by
  induction h with
  | start => exact hstart
  | next _ _ hstep ih => exact hmoves _ _ (step_moves hstep) ih

theorem file_eq (h : Rounds source file n s) : s.file = file :=
  h.induct (P := fun s => s.file = file) rfl fun _ _ hmoves hs => hmoves.file_eq.trans hs

theorem run_eq (h : Rounds source file n s) : (Scanner.start source file).run = s.run := by
  induction h with
  | start => rfl
  | next _ hr hstep ih => rw [ih, run_of_step hr hstep]

/-- Every round leaves less to do. -/
theorem measure_le (h : Rounds source file n s) :
    n + s.measure ≤ (Scanner.start source file).measure := by
  induction h with
  | start => omega
  | next _ hr hstep ih =>
    have := step_measure hr hstep
    omega

/-- There are at most two rounds for each character and one more, so scanning ends. -/
theorem bounded (h : Rounds source file n s) : n ≤ 2 * source.length + 1 := by
  have hle := h.measure_le
  have hstart : (Scanner.start source file).measure = 2 * source.length + 1 := by
    simp [measure, Scanner.start, String.length_toList]
  omega

/-- In every round the scanner is at a place of the text, with the rest still to come. -/
theorem sound (h : Rounds source file n s) : s.Sound source := by
  induction h with
  | start => exact sound_start source file
  | next _ _ hstep ih => exact ih.step hstep

/-- From every round on, scanning comes to the end of the text or to a step that fails. -/
theorem ends (h : Rounds source file n s) :
    (∃ m t, Rounds source file m t ∧ t.rest = [] ∧ s.run = .ok t) ∨
      ∃ m t d, Rounds source file m t ∧ t.rest ≠ [] ∧ t.step = .error d ∧ s.run = .error d := by
  fun_induction Scanner.run s generalizing n with
  | case1 s hr => exact .inl ⟨n, s, h, hr, rfl⟩
  | case2 s hr d hstep => exact .inr ⟨n, s, d, h, hr, hstep, rfl⟩
  | case3 s hr u hstep _ ih => exact ih (h.next hr hstep)

/-- A round whose step fails is the last one, and scanning fails for its reason. -/
theorem scan_error (h : Rounds source file n s) (hr : s.rest ≠ []) {d : Diagnostic}
    (hd : s.step = .error d) : scan source file = .error d := by
  rw [scan, h.run_eq, run_of_step_error hr hd]
  rfl

end Rounds

theorem exists_rounds_of_scan {source file : String} {tokens : List Token}
    (h : scan source file = .ok tokens) :
    ∃ n s, Rounds source file n s ∧ s.rest = [] ∧ (Scanner.start source file).run = .ok s ∧
      s.finish = tokens := by
  have hstart : Rounds source file 0 (.start source file) := .start
  rcases hstart.ends with
    ⟨n, s, hs, hr, hrun⟩ | ⟨_, _, _, _, _, _, hrun⟩
  · rw [scan, hrun] at h
    exact ⟨n, s, hs, hr, hrun, Except.ok.inj h⟩
  · rw [scan, hrun] at h
    cases h

theorem exists_rounds_of_scan_error {source file : String} {d : Diagnostic}
    (h : scan source file = .error d) :
    ∃ n s, Rounds source file n s ∧ s.rest ≠ [] ∧ s.step = .error d := by
  have hstart : Rounds source file 0 (.start source file) := .start
  rcases hstart.ends with
    ⟨_, _, _, _, hrun⟩ | ⟨n, s, e, hs, hr, hstep, hrun⟩
  · rw [scan, hrun] at h
    cases h
  · rw [scan, hrun] at h
    cases h
    exact ⟨n, s, hs, hr, hstep⟩

end StackScript.Token.Scanner
