import StackScript.Proofs.BlankLines

namespace StackScript.Token

section

variable {cs text : List Char}

theorem exists_line (cs : List Char) :
    ∃ more, cs = lineText cs ++ more ∧ (more = [] ∨ '\n' ∈ lineText cs) := by
  obtain ⟨body, after, rfl, -, ⟨rfl, hl⟩ | ⟨rest, rfl, hl⟩⟩ := exists_lineText cs
  · exact ⟨[], by rw [hl, List.append_nil], .inl rfl⟩
  · refine ⟨rest, by rw [hl, List.append_assoc]; rfl, .inr ?_⟩
    rw [hl]
    exact List.mem_append_right _ List.mem_cons_self

theorem closed_lineText (h : '\n' ∈ lineText cs) : Closed (lineText cs) := by
  obtain ⟨body, after, -, hbody, ⟨-, hl⟩ | ⟨rest, -, hl⟩⟩ := exists_lineText cs
  · rw [hl] at h
    exact absurd h hbody
  · rw [hl]
    exact closed_line body

/-- The line ahead has no words if a line feed, a comment or nothing stands behind its gap. -/
theorem wordless_lineText_iff (cs : List Char) :
    Wordless (lineText cs) ↔ ∀ c ∈ (cs.dropWhile isGap).head?, c = '\n' ∨ c = '#' := by
  constructor
  · intro hw
    obtain ⟨more, hcs, hend⟩ := exists_line cs
    obtain ⟨gaps, comment, ending, htext, hgaps, hcomment, hending⟩ := hw.split hend
    have htail {tail : List Char} (hcs : cs = gaps ++ tail)
        (hhead : ∀ c ∈ tail.head?, c = '\n' ∨ c = '#') :
        ∀ c ∈ (cs.dropWhile isGap).head?, c = '\n' ∨ c = '#' := by
      rw [hcs, dropWhile_ends hgaps]
      · exact hhead
      · intro c hc
        rcases hhead c hc with rfl | rfl <;> rfl
    rw [htext, List.append_assoc, List.append_assoc] at hcs
    refine htail hcs fun c hc => ?_
    rcases hcomment with rfl | ⟨body, rfl, -⟩
    · rcases hending with rfl | ⟨rfl, rfl⟩
      · cases hc
        exact .inl rfl
      · cases hc
    · cases hc
      exact .inr rfl
  · intro hhead
    have hcs : cs.takeWhile isGap ++ cs.dropWhile isGap = cs := List.takeWhile_append_dropWhile
    have hgaps : ∀ c ∈ cs.takeWhile isGap, isGap c = true :=
      List.all_eq_true.mp List.all_takeWhile
    generalize cs.takeWhile isGap = gaps at hcs hgaps
    have hflat : '\n' ∉ gaps := fun hmem => absurd (hgaps _ hmem) (by decide)
    cases hrest : cs.dropWhile isGap with
    | nil =>
      rw [hrest, List.append_nil] at hcs
      rw [← hcs, lineText_flat hflat]
      simpa using Wordless.mk hgaps (.inl rfl) (.inl rfl)
    | cons c rest =>
      rw [hrest] at hcs hhead
      rcases hhead c rfl with rfl | rfl
      · rw [← hcs, lineText_line hflat]
        simpa using Wordless.mk hgaps (.inl rfl) (.inr rfl)
      · obtain ⟨body, after, rfl, hbody, hafter⟩ := exists_lineText rest
        have hflat' : '\n' ∉ gaps ++ '#' :: body := by
          rw [List.mem_append, List.mem_cons, not_or, not_or]
          exact ⟨hflat, by decide, hbody⟩
        rw [← hcs]
        rcases hafter with ⟨rfl, -⟩ | ⟨rest, rfl, -⟩
        · rw [List.append_nil, lineText_flat hflat']
          simpa using Wordless.mk hgaps (.inr ⟨body, rfl, hbody⟩) (.inl rfl)
        · rw [← List.cons_append, ← List.append_assoc, lineText_line hflat']
          exact .mk hgaps (.inr ⟨body, rfl, hbody⟩) (.inr rfl)

theorem wordless_nil : Wordless (lineText []) :=
  (wordless_lineText_iff []).mpr fun c hc => by cases hc

/-- A word at the front shows that the line has words. -/
theorem not_wordless_of_word {kind : Kind} (hx : lexeme? cs = some (.word kind, text)) :
    ¬ Wordless (lineText cs) := by
  have hstart {p : Char → Bool} {c : Char} {cs : List Char} (hc : p c = true)
      (hp : ∀ d ∈ [' ', '\t', '\r', '\n', '#'], p d = false) : ¬ Wordless (lineText (c :: cs)) := by
    have hne : ∀ d ∈ [' ', '\t', '\r', '\n', '#'], c ≠ d := by
      rintro d hd rfl
      rw [hp c hd] at hc
      cases hc
    have hgap : ¬ isGap c = true := by
      simp only [isGap, Bool.or_eq_true, beq_iff_eq, not_or]
      exact ⟨⟨hne ' ' (by simp), hne '\t' (by simp)⟩, hne '\r' (by simp)⟩
    rw [wordless_lineText_iff, List.dropWhile_cons_of_neg hgap]
    intro hall
    exact (hall c rfl).elim (hne '\n' (by simp)) (hne '#' (by simp))
  cases lexeme?_fronts hx with
  | name hc => exact hstart hc (by decide)
  | number hc => exact hstart hc (by decide)
  | literal hquote _ =>
    refine hstart (p := fun c => c == '"' || c == '\'') ?_ (by decide)
    simpa using hquote
  | operator hop =>
    cases cs with
    | nil => cases hop
    | cons c cs =>
      refine hstart (p := fun c => operatorStarts.contains c) ?_ (by decide)
      by_contra hc
      rw [operator?_eq_none (by simpa using hc)] at hop
      cases hop

theorem wordless_of_lineEnd (hx : lexeme? cs = some (.lineEnd, text)) : Wordless (lineText cs) := by
  rw [wordless_lineText_iff]
  cases lexeme?_fronts hx with
  | lineEnd hend =>
    unfold lineEnd? at hend
    split at hend <;> cases hend <;> exact fun c hc => .inl (by cases hc; rfl)

theorem lexeme?_of_wordless (hw : Wordless (lineText cs)) (hne : cs ≠ []) :
    ∃ text, lexeme? cs = some (.gap, text) ∨ lexeme? cs = some (.lineEnd, text) := by
  cases cs with
  | nil => exact absurd rfl hne
  | cons c cs =>
    by_cases hc : isGap c = true
    · rcases lexeme?_of_isGap hc cs with hx | ⟨-, -, -, hx⟩
      · exact ⟨_, .inl hx⟩
      · exact ⟨_, .inr hx⟩
    · rw [wordless_lineText_iff, List.dropWhile_cons_of_neg hc] at hw
      rcases hw c rfl with rfl | rfl
      · exact ⟨_, .inr rfl⟩
      · exact ⟨_, .inl rfl⟩

/-- Behind a gap, the line has words exactly if it had before. -/
theorem wordless_drop_gap (hx : lexeme? cs = some (.gap, text)) :
    Wordless (lineText (cs.drop text.length)) ↔ Wordless (lineText cs) := by
  have hidem {p : Char → Bool} (hp : ∀ c, p c = false → isGap c = false) (cs : List Char) :
      (cs.dropWhile p).dropWhile isGap = cs.dropWhile p :=
    dropWhile_ends (fun c (hc : c ∈ ([] : List Char)) => by cases hc)
      fun c hc => hp c (not_head_dropWhile p cs c hc)
  rw [wordless_lineText_iff, wordless_lineText_iff]
  cases lexeme?_fronts hx with
  | @gap c cs hc =>
    rw [List.length_cons, List.drop_succ_cons, drop_takeWhile, hidem (fun _ h => h),
      List.dropWhile_cons_of_pos hc]
  | @comment cs =>
    rw [List.length_cons, List.drop_succ_cons, drop_takeWhile,
      hidem fun c hc => by rw [bne_eq_false_iff_eq.mp hc]; rfl]
    exact iff_of_true (fun c hc => .inl (bne_eq_false_iff_eq.mp (not_head_dropWhile _ cs c hc)))
      fun c hc => .inr (by cases hc; rfl)

end

theorem Wordless.flat {text : List Char} (h : Wordless text) : '\n' ∉ text.dropLast := by
  obtain @⟨gaps, comment, ending, hgaps, hcomment, hending⟩ := h
  have hflat : '\n' ∉ gaps ++ comment := by
    rw [List.mem_append, not_or]
    refine ⟨fun hmem => absurd (hgaps _ hmem) (by decide), ?_⟩
    rcases hcomment with rfl | ⟨body, rfl, hbody⟩
    · exact List.not_mem_nil
    · exact List.not_mem_cons_of_ne_of_not_mem (by decide) hbody
  rcases hending with rfl | rfl
  · rw [List.append_nil]
    exact fun hmem => hflat (List.dropLast_subset _ hmem)
  · rw [List.dropLast_concat]
    exact hflat

theorem closeLevels_self (column : Nat) (outer : List Nat) :
    closeLevels column (column :: outer) = (0, column :: outer) := by
  cases outer with
  | nil => rfl
  | cons below outer => exact if_neg (Nat.lt_irrefl column)

namespace Scanner

variable {s t : Scanner}

theorem wordless_line (s : Scanner) : Wordless (lineText s.line) ↔ Wordless (lineText s.rest) := by
  have hgaps : ∀ c ∈ s.blanks, isGap c = true := by
    intro c hc
    have hindent : isIndent c = true := List.all_eq_true.mp List.all_takeWhile c hc
    simp only [isIndent, Bool.or_eq_true] at hindent
    simp only [isGap, Bool.or_eq_true]
    exact .inl hindent
  rw [wordless_lineText_iff, wordless_lineText_iff, ← s.blanks_append_line,
    List.dropWhile_append_of_pos hgaps]

theorem AtWords.rest_ne_nil (h : s.AtWords) : s.rest ≠ [] := by
  intro hr
  apply h.line_ne_nil
  rw [line, hr, List.drop_nil]

/-- In the rest of a line the levels stay. -/
theorem OnLine.run_levels (hs : s.OnLine) (h : s.run = .ok t) : t.levels = s.levels := by
  fun_induction run s with
  | case1 => cases h; rfl
  | case2 => cases h
  | case3 s hr u hstep _ ih =>
    have hmoves := step_moves hstep
    have hat : ¬ s.AtLine := fun hat => hr (hs.last hat.lineStart)
    have hlevels : u.levels = s.levels := by
      rcases hmoves.of_not_atLine hat with
        ⟨_, _, -, rfl⟩ | ⟨text, -, -, rfl⟩ | ⟨_, -, -, rfl⟩ | ⟨_, -, rfl⟩
      · rfl
      · have hsame : (s.pushNewline text).levels = s.levels := by rw [pushNewline_eq]
        exact hsame
      · rfl
      · rfl
    rw [ih (hmoves.onLine hs hr) h, hlevels]

/-- Behind an ended line, the rest of a line without words leaves no token. -/
theorem OnLine.run_wordless (hs : s.OnLine) (hl : s.lineStart = false) (hp : s.parens = 0)
    (hw : Wordless (lineText s.rest)) (hhead : ∀ t ∈ s.tokens.head?, t.kind = .newline) :
    ∃ t, s.run = .ok t ∧ t.tokens = s.tokens := by
  fun_induction run s with
  | case1 s => exact ⟨s, rfl, rfl⟩
  | case2 s hr d hstep =>
    rw [step_of_not_atLine (not_atLine hl)] at hstep
    obtain ⟨hnone, -⟩ := takeLexeme_error hstep
    obtain ⟨text, hx | hx⟩ := lexeme?_of_wordless hw hr <;> rw [hnone] at hx <;> cases hx
  | case3 s hr u hstep _ ih =>
    have hmoves := step_moves hstep
    have hu := hmoves.onLine hs hr
    rcases hmoves.of_not_atLine (not_atLine hl) with
      ⟨_, _, hx, rfl⟩ | ⟨text, -, hx, rfl⟩ | ⟨_, hne, -, -⟩ | ⟨_, hx, rfl⟩
    · exact absurd hw (not_wordless_of_word hx)
    · refine ⟨_, by rw [run, dif_pos (hu.last rfl)], ?_⟩
      change (s.pushNewline text).tokens = s.tokens
      rcases pushNewline_cases s text with ⟨he, -⟩ | ⟨-, t, ht, hne⟩
      · rw [he]
      · exact absurd (hhead t ht) hne
    · exact absurd hp hne
    · exact ih hu hl hp ((wordless_drop_gap hx).mpr hw) hhead

theorem indentTo_self {column : Nat} {outer : List Nat} (h : s.levels = column :: outer) :
    s.indentTo column = .ok s := by
  obtain ⟨file, offset, rest, lineStart, levels, parens, tokens⟩ := s
  obtain rfl : levels = column :: outer := h
  unfold indentTo
  dsimp only
  rw [if_neg (Nat.lt_irrefl column), closeLevels_self]
  exact if_pos rfl

/-- A line that is not at the innermost level changes the levels. -/
theorem Moves.levels_ne (h : s.Moves t) (hat : s.AtWords) (hlevel : s.levels.head? ≠ some s.column) :
    t.levels ≠ s.levels := by
  rcases h.of_atWords hat with ⟨hl, rfl⟩ | ⟨_, -, -, rfl⟩ | ⟨_, _, levels, -, -, -, hfound, rfl⟩
  · rw [hl]
    exact List.cons_ne_nil _ _
  · exact List.cons_ne_self _ _
  · rw [pushDedents_levels]
    rintro rfl
    exact hlevel hfound

/-- What a line without words does to the scanner between two lines: nothing, unless it is stray and
not at the innermost level. -/
theorem run_wordless_iff (hs : s.Steady) (hbetween : s.Between) (hw : Wordless s.rest) :
    (∃ t, s.run = .ok t ∧ t.tokens = s.tokens ∧ t.levels = s.levels) ↔
      s.parens ≠ 0 ∨ isStray s.rest = false ∨ s.levels.head? = some s.column := by
  have hr : s.rest = s.rest ++ [] := (List.append_nil _).symm
  have hskipped (hskip : s.run = (s.skip s.rest).run) :
      ∃ t, s.run = .ok t ∧ t.tokens = s.tokens ∧ t.levels = s.levels := by
    refine ⟨s.skip s.rest, ?_, rfl, rfl⟩
    rw [hskip, run, dif_pos (skip_rest hr)]
  cases hbetween with
  | inside hl hp => exact iff_of_true (hskipped (run_wordless_inside hp hw hr (.inl rfl))) (.inl hp)
  | starts hat =>
    cases hstray : isStray s.rest with
    | false =>
      exact iff_of_true (hskipped (run_wordless (.starts hat) hw hr (.inl rfl) hstray))
        (.inr (.inl rfl))
    | true =>
      have hwords : s.AtWords := by
        refine ⟨hat, ?_⟩
        rw [(line_of_wordless hw hr (.inl rfl)).1, hstray]
        rfl
      have hstep := step_of_atLine hat
      have hne := hwords.rest_ne_nil
      by_cases hlevel : s.levels.head? = some s.column
      · refine iff_of_true ?_ (.inr (.inr hlevel))
        obtain ⟨outer, hlevels⟩ := List.head?_eq_some_iff.mp hlevel
        have hentered : s.startLine = .ok s.entered := by
          rw [startLine_eq_ite, if_neg (Bool.eq_false_iff.mp hwords.words)]
          exact indentTo_self hlevels
        have honLine := (startLine_moves hat hentered).onLine_of_atLine hat hw.flat
        have hahead : Wordless (lineText s.entered.rest) := by
          apply s.wordless_line.mpr
          rw [lineText_eq_self hw.flat]
          exact hw
        obtain ⟨t, hrun, htokens⟩ :=
          honLine.run_wordless rfl hat.parens hahead (hs.ended hat.lineStart).2
        refine ⟨t, ?_, htokens, honLine.run_levels hrun⟩
        rw [run_of_step hne (hstep.trans hentered), hrun]
      · refine iff_of_false ?_ ?_
        · rintro ⟨t, hrun, -, hlevels⟩
          cases hstart : s.startLine with
          | error d =>
            rw [run_of_step_error hne (hstep.trans hstart)] at hrun
            cases hrun
          | ok u =>
            rw [run_of_step hne (hstep.trans hstart)] at hrun
            have hmoves := startLine_moves hat hstart
            have hsame : u.levels = s.levels :=
              ((hmoves.onLine_of_atLine hat hw.flat).run_levels hrun).symm.trans hlevels
            exact hmoves.levels_ne hwords hlevel hsame
        · rintro (hp | hstray | hcolumn)
          · exact hp hat.parens
          · cases hstray
          · exact hlevel hcolumn

end Scanner

end StackScript.Token
