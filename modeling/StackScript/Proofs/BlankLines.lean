import StackScript.Proofs.Alike

namespace StackScript.Token

/-- A comment up to the end of its line, or none. -/
def IsComment (text : List Char) : Prop := text = [] ∨ ∃ body, text = '#' :: body ∧ '\n' ∉ body

/-- A line of spaces, tabs and carriage returns, with a comment or none. The last line of a text may
lack its line feed. -/
inductive Wordless : List Char → Prop where
  | mk {gaps comment ending : List Char} : (∀ c ∈ gaps, isGap c = true) → IsComment comment →
    ending = [] ∨ ending = ['\n'] → Wordless (gaps ++ comment ++ ending)

/-- A line without words, in its place: it has its line feed, or nothing follows. -/
theorem Wordless.split {text more : List Char} (hw : Wordless text)
    (hend : more = [] ∨ '\n' ∈ text) : ∃ gaps comment ending, text = gaps ++ comment ++ ending ∧
      (∀ c ∈ gaps, isGap c = true) ∧ IsComment comment ∧
      (ending = ['\n'] ∨ ending = [] ∧ more = []) := by
  obtain @⟨gaps, comment, ending, hgaps, hcomment, hending⟩ := hw
  refine ⟨gaps, comment, ending, rfl, hgaps, hcomment, ?_⟩
  rcases hending with rfl | rfl
  · rcases hend with hmore | hmem
    · exact .inr ⟨rfl, hmore⟩
    · rw [List.append_nil] at hmem
      rcases List.mem_append.mp hmem with hmem | hmem
      · exact absurd (hgaps _ hmem) (by decide)
      · rcases hcomment with rfl | ⟨body, rfl, hbody⟩
        · cases hmem
        · exact absurd (List.mem_of_ne_of_mem (by decide) hmem) hbody
  · exact .inl rfl

def isStray (text : List Char) : Bool :=
  match text.dropWhile isIndent with
  | '\r' :: '\n' :: _ => false
  | '\r' :: _ => true
  | _ => false

theorem lineText_flat {text : List Char} (h : '\n' ∉ text) : lineText text = text := by
  induction text with
  | nil => rfl
  | cons c text ih =>
    rw [List.mem_cons, not_or] at h
    obtain ⟨hc, hrest⟩ := h
    rw [lineText, if_neg (Ne.symm hc), ih hrest]

theorem lineText_line {text : List Char} (h : '\n' ∉ text) (more : List Char) :
    lineText (text ++ '\n' :: more) = text ++ ['\n'] := by
  induction text with
  | nil => rfl
  | cons c text ih =>
    rw [List.mem_cons, not_or] at h
    obtain ⟨hc, hrest⟩ := h
    rw [List.cons_append, lineText, if_neg (Ne.symm hc), ih hrest, List.cons_append]

theorem dropWhile_ends {p : Char → Bool} {text tail : List Char} (h : ∀ c ∈ text, p c = true)
    (ht : ∀ c ∈ tail.head?, p c = false) : (text ++ tail).dropWhile p = tail := by
  rw [← drop_takeWhile, takeWhile_ends h ht, List.drop_left]

/-- A carriage return behind the blanks makes a line stray unless the line feed follows. -/
theorem isStray_of_return {blanks line : List Char} (hb : ∀ c ∈ blanks, isIndent c = true)
    (h : line.head? ≠ some '\n') : isStray (blanks ++ '\r' :: line) = true := by
  have hdrop : (blanks ++ '\r' :: line).dropWhile isIndent = '\r' :: line := by
    refine dropWhile_ends hb ?_
    rintro c ⟨⟩
    rfl
  unfold isStray
  rw [hdrop]
  split
  · rename_i heq
    cases heq
    exact absurd rfl h
  · rfl
  · rename_i hne
    exact absurd rfl (hne line)

/-- A line that counts as blank is not stray. -/
theorem isStray_of_blankLine {blanks line : List Char} (hb : ∀ c ∈ blanks, isIndent c = true)
    (hline : ∀ c ∈ line.head?, isIndent c = false) (h : isBlankLine line = true) :
    isStray (blanks ++ line) = false := by
  unfold isStray
  rw [dropWhile_ends hb hline]
  unfold isBlankLine at h
  split at h
  · rfl
  · rfl
  · rfl
  · rfl
  · cases h

theorem isBlankLine_of_return {line : List Char} (h : line.head? ≠ some '\n') :
    isBlankLine ('\r' :: line) = false := by
  unfold isBlankLine
  split
  · rename_i heq
    cases heq
  · rename_i heq
    cases heq
  · rename_i heq
    cases heq
    exact absurd rfl h
  · rename_i heq
    cases heq
  · rfl

theorem lineText_comment {comment ending : List Char} (hcomment : IsComment comment)
    (hending : ending = [] ∨ ending = ['\n']) :
    isBlankLine (comment ++ ending) = true ∧ lineText (comment ++ ending) = comment ++ ending ∧
      ∀ c ∈ (comment ++ ending).head?, isIndent c = false := by
  rcases hcomment with rfl | ⟨body, rfl, hbody⟩
  · rcases hending with rfl | rfl
    · exact ⟨rfl, rfl, fun c hc => by cases hc⟩
    · exact ⟨rfl, rfl, fun c hc => by cases hc; rfl⟩
  · have hflat : '\n' ∉ '#' :: body := List.not_mem_cons_of_ne_of_not_mem (by decide) hbody
    refine ⟨rfl, ?_, fun c hc => by cases hc; rfl⟩
    rcases hending with rfl | rfl
    · rw [List.append_nil, lineText_flat hflat]
    · exact lineText_line hflat []

/-- A line without words behind its blanks. It counts as blank exactly if it is not stray. -/
theorem Wordless.behind_blanks {text : List Char} (hw : Wordless text) :
    ∃ blanks line, text = blanks ++ line ∧ (∀ c ∈ blanks, isIndent c = true) ∧
      (∀ c ∈ line.head?, isIndent c = false) ∧ isBlankLine line = !isStray text ∧
      (isStray text = false → lineText line = line) := by
  obtain @⟨gaps, comment, ending, hgaps, hcomment, hending⟩ := hw
  obtain ⟨hblank, hline, hhead⟩ := lineText_comment hcomment hending
  obtain ⟨blanks, tail, rfl, hblanks, htail⟩ : ∃ blanks tail, gaps = blanks ++ tail ∧
      (∀ c ∈ blanks, isIndent c = true) ∧ ∀ c ∈ tail.head?, isIndent c = false := by
    exact ⟨gaps.takeWhile isIndent, gaps.dropWhile isIndent,
      List.takeWhile_append_dropWhile.symm, List.all_eq_true.mp List.all_takeWhile,
      not_head_dropWhile isIndent gaps⟩
  rw [List.append_assoc, List.append_assoc]
  refine ⟨blanks, tail ++ (comment ++ ending), rfl, hblanks, ?_⟩
  cases tail with
  | nil =>
    have hstray := isStray_of_blankLine hblanks hhead hblank
    refine ⟨hhead, ?_, fun _ => hline⟩
    rw [List.nil_append, hstray]
    exact hblank
  | cons c tail =>
    obtain rfl : c = '\r' := by
      have hgap := hgaps c (by simp)
      have hindent := htail c rfl
      simp only [isGap, isIndent, Bool.or_eq_true, Bool.or_eq_false_iff, beq_iff_eq,
        beq_eq_false_iff_ne] at hgap hindent
      exact hgap.resolve_left fun h => h.elim hindent.1 hindent.2
    refine ⟨htail, ?_⟩
    by_cases hfeed : (tail ++ (comment ++ ending)).head? = some '\n'
    · -- nothing stands between the carriage return and the line feed
      have hrest : tail ++ (comment ++ ending) = ['\n'] := by
        cases tail with
        | cons d tail =>
          cases hfeed
          exact absurd (hgaps '\n' (by simp)) (by decide)
        | nil =>
          rcases hcomment with rfl | ⟨body, rfl, -⟩
          · rcases hending with rfl | rfl
            · cases hfeed
            · rfl
          · cases hfeed
      have hstray : isStray (blanks ++ ['\r', '\n']) = false :=
        isStray_of_blankLine hblanks (fun c hc => by cases hc; rfl) rfl
      rw [List.cons_append, hrest, hstray]
      exact ⟨rfl, fun _ => rfl⟩
    · have hstray := isStray_of_return hblanks hfeed
      rw [List.cons_append, hstray, isBlankLine_of_return hfeed]
      exact ⟨rfl, fun h => by cases h⟩

/-- A gap ends before the next word, comment or line feed; but a carriage return alone before a line
feed is part of a line end. -/
theorem lexeme?_gaps {c : Char} {gaps more : List Char} (hgaps : ∀ d ∈ c :: gaps, isGap d = true)
    (hmore : ∀ d ∈ more.head?, isGap d = false) :
    lexeme? (c :: gaps ++ more) = some (.gap, c :: gaps) ∨
      c :: gaps = ['\r'] ∧ more.head? = some '\n' ∧
        lexeme? (c :: gaps ++ more) = some (.lineEnd, ['\r', '\n']) := by
  have htake : (gaps ++ more).takeWhile isGap = gaps :=
    takeWhile_ends (fun d hd => hgaps d (List.mem_cons_of_mem c hd)) hmore
  rcases lexeme?_of_isGap (hgaps c List.mem_cons_self) (gaps ++ more) with hx | ⟨_, rfl, hcs, hx⟩
  · left
    rw [List.cons_append, hx, htake]
  · cases gaps with
    | nil => exact .inr ⟨rfl, by rw [← List.nil_append more, hcs]; rfl, hx⟩
    | cons d gaps =>
      cases hcs
      exact absurd (hgaps '\n' (by simp)) (by decide)

namespace Scanner

variable {s : Scanner} {text gaps body more : List Char}

theorem skip_skip (s : Scanner) (text text' : List Char) :
    (s.skip text).skip text' = s.skip (text ++ text') := by
  unfold skip
  rw [Text.byteLength_append, List.length_append, List.drop_drop, ← Nat.add_assoc]

theorem skip_rest (hr : s.rest = text ++ more) : (s.skip text).rest = more := by
  unfold skip
  rw [hr, List.drop_left]

theorem rest_ne_nil_of_lexeme? {lexeme : Lexeme} (hx : lexeme? s.rest = some (lexeme, text)) :
    s.rest ≠ [] := by
  intro hr
  rw [hr] at hx
  cases hx

theorem run_of_gap (hs : ¬ s.AtLine) (hx : lexeme? s.rest = some (.gap, text)) :
    s.run = (s.skip text).run := by
  refine run_of_step (rest_ne_nil_of_lexeme? hx) ?_
  rw [step_of_not_atLine hs, takeLexeme, hx]

/-- Inside parentheses a line end is skipped. -/
theorem run_of_lineEnd (hp : s.parens ≠ 0) (hx : lexeme? s.rest = some (.lineEnd, text)) :
    s.run = (s.skip text).run := by
  refine run_of_step (rest_ne_nil_of_lexeme? hx) ?_
  rw [step_of_not_atLine fun hat => hp hat.parens, takeLexeme, hx]
  exact congrArg Except.ok (if_neg hp)

/-- In the middle of a line, or inside parentheses, a comment is skipped. -/
theorem run_comment (hs : ¬ s.AtLine) (hbody : '\n' ∉ body) (hr : s.rest = '#' :: body ++ more)
    (hmore : ∀ c ∈ more.head?, c = '\n') : s.run = (s.skip ('#' :: body)).run := by
  have htake : (body ++ more).takeWhile (· != '\n') = body := by
    refine takeWhile_ends (fun c hc => ?_) (fun c hc => ?_)
    · rw [bne_iff_ne]
      rintro rfl
      exact hbody hc
    · rw [hmore c hc]
      rfl
  apply run_of_gap hs
  rw [hr]
  change some (Lexeme.gap, '#' :: (body ++ more).takeWhile (· != '\n')) = _
  rw [htake]

theorem run_gaps (hs : ¬ s.AtLine) (hgaps : ∀ c ∈ gaps, isGap c = true)
    (hr : s.rest = gaps ++ more) (hmore : ∀ c ∈ more.head?, isGap c = false ∧ c ≠ '\n') :
    s.run = (s.skip gaps).run := by
  cases gaps with
  | nil => rfl
  | cons c gaps =>
    rcases lexeme?_gaps hgaps fun d hd => (hmore d hd).1 with hx | ⟨-, hhead, -⟩
    · exact run_of_gap hs (hr ▸ hx)
    · exact absurd rfl (hmore _ hhead).2

/-- Inside parentheses a line without words and comments is skipped. -/
theorem run_gaps_lineFeed (hp : s.parens ≠ 0) (hgaps : ∀ c ∈ gaps, isGap c = true)
    (hr : s.rest = gaps ++ '\n' :: more) : s.run = (s.skip (gaps ++ ['\n'])).run := by
  cases gaps with
  | nil => exact run_of_lineEnd hp (by rw [hr]; rfl)
  | cons c gaps =>
    have hfeed : ∀ d ∈ ('\n' :: more).head?, isGap d = false := by
      rintro d ⟨⟩
      rfl
    rcases lexeme?_gaps hgaps hfeed with hx | ⟨hgaps, -, hx⟩
    · have hrest := skip_rest hr
      have hend : lexeme? (s.skip (c :: gaps)).rest = some (.lineEnd, ['\n']) := by
        rw [hrest]
        rfl
      rw [run_of_gap (fun hat => hp hat.parens) (hr ▸ hx), run_of_lineEnd (by exact hp) hend,
        skip_skip]
    · rw [hgaps] at hr hx ⊢
      exact run_of_lineEnd hp (hr ▸ hx)

/-- Inside parentheses a line without words is skipped. -/
theorem run_wordless_inside (hp : s.parens ≠ 0) (hw : Wordless text) (hr : s.rest = text ++ more)
    (hend : more = [] ∨ '\n' ∈ text) : s.run = (s.skip text).run := by
  have hs : ¬ s.AtLine := fun hat => hp hat.parens
  obtain ⟨gaps, comment, ending, rfl, hgaps, hcomment, hending⟩ := hw.split hend
  rw [List.append_assoc, List.append_assoc] at hr
  rcases hcomment with rfl | ⟨body, rfl, hbody⟩
  · rcases hending with rfl | ⟨rfl, rfl⟩
    · rw [List.append_nil]
      exact run_gaps_lineFeed hp hgaps hr
    · rw [List.append_nil, List.append_nil]
      exact run_gaps hs hgaps hr fun c hc => by cases hc
  · have hhead : ∀ c ∈ ('#' :: body ++ (ending ++ more)).head?, isGap c = false ∧ c ≠ '\n' := by
      rintro c ⟨⟩
      decide
    have hfeed : ∀ c ∈ (ending ++ more).head?, c = '\n' := by
      rcases hending with rfl | ⟨rfl, rfl⟩
      · rintro c ⟨⟩
        rfl
      · intro c hc
        cases hc
    have hbehind := skip_rest hr
    have hs' : ¬ (s.skip gaps).AtLine := fun hat => hp hat.parens
    rw [run_gaps hs hgaps hr hhead, run_comment hs' hbody hbehind hfeed, skip_skip]
    rcases hending with rfl | ⟨rfl, rfl⟩
    · have hend : lexeme? (s.skip (gaps ++ '#' :: body)).rest = some (.lineEnd, ['\n']) := by
        rw [← skip_skip, skip_rest hbehind]
        rfl
      rw [run_of_lineEnd (by exact hp) hend, skip_skip]
    · rw [List.append_nil]

/-- The blanks and the line that a line start sees. -/
theorem blanks_line_eq {blanks line : List Char} (hb : ∀ c ∈ blanks, isIndent c = true)
    (hl : ∀ c ∈ line.head?, isIndent c = false) (hr : s.rest = blanks ++ line) :
    s.blanks = blanks ∧ s.line = line := by
  have hblanks : s.blanks = blanks := by
    rw [Scanner.blanks, hr]
    exact takeWhile_ends hb hl
  refine ⟨hblanks, ?_⟩
  rw [Scanner.line, hblanks, hr, List.drop_left]

/-- What a line start makes of a line without words: its blanks, and whether it is skipped. -/
theorem line_of_wordless (hw : Wordless text) (hr : s.rest = text ++ more)
    (hend : more = [] ∨ '\n' ∈ text) : isBlankLine s.line = !isStray text ∧
      (isStray text = false → s.blanks ++ lineText s.line = text) := by
  obtain ⟨blanks, line, rfl, hblanks, hhead, hblank, hline⟩ := hw.behind_blanks
  -- what follows has no part in this
  have hmore : isBlankLine (line ++ more) = isBlankLine line ∧
      lineText (line ++ more) = lineText line ∧ ∀ c ∈ (line ++ more).head?, isIndent c = false := by
    rcases hend with rfl | hmem
    · rw [List.append_nil]
      exact ⟨rfl, rfl, hhead⟩
    · have hmem : '\n' ∈ line := by
        rcases List.mem_append.mp hmem with hmem | hmem
        · exact absurd (hblanks _ hmem) (by decide)
        · exact hmem
      refine ⟨isBlankLine_append hmem, lineText_append hmem, ?_⟩
      rw [List.head?_append_of_ne_nil _ (List.ne_nil_of_mem hmem)]
      exact hhead
  rw [List.append_assoc] at hr
  obtain ⟨hb, hl⟩ := blanks_line_eq hblanks hmore.2.2 hr
  rw [hb, hl, hmore.1, hmore.2.1]
  exact ⟨hblank, fun hstray => by rw [hline hstray]⟩

/-- Where a line starts, a line without words is skipped unless it is stray. -/
theorem step_wordless (hat : s.AtLine) (hw : Wordless text) (hr : s.rest = text ++ more)
    (hend : more = [] ∨ '\n' ∈ text) (hstray : isStray text = false) :
    s.step = .ok (s.skip text) := by
  obtain ⟨hblank, htext⟩ := line_of_wordless hw hr hend
  rw [hstray, Bool.not_false] at hblank
  rw [step_of_atLine hat, startLine_eq_ite, if_pos hblank, htext hstray]

/-- Between two lines, a line without words is skipped unless it is stray. -/
theorem run_wordless (hs : s.Between) (hw : Wordless text) (hr : s.rest = text ++ more)
    (hend : more = [] ∨ '\n' ∈ text) (hstray : isStray text = false) :
    s.run = (s.skip text).run := by
  cases hs with
  | inside _ hp => exact run_wordless_inside hp hw hr hend
  | starts hat =>
    by_cases hne : s.rest = []
    · have htext : text = [] := (List.append_eq_nil_iff.mp (hr.symm.trans hne)).1
      rw [htext]
      rfl
    · exact run_of_step hne (step_wordless hat hw hr hend hstray)

end Scanner

/-- A line of spaces and tabs, with a comment or none, up to its line feed, before which a carriage
return may stand. -/
inductive BlankLine : List Char → Prop where
  | mk {blanks comment ending : List Char} : (∀ c ∈ blanks, c = ' ' ∨ c = '\t') →
    IsComment comment → ending = ['\n'] ∨ ending = ['\r', '\n'] →
    BlankLine (blanks ++ comment ++ ending)

namespace BlankLine

variable {text : List Char}

theorem mem (h : BlankLine text) : '\n' ∈ text := by
  obtain @⟨blanks, comment, ending, -, -, hending⟩ := h
  apply List.mem_append_right
  rcases hending with rfl | rfl <;> decide

theorem wordless (h : BlankLine text) : Wordless text := by
  obtain @⟨blanks, comment, ending, hblanks, hcomment, hending⟩ := h
  have hgaps : ∀ c ∈ blanks, isGap c = true := by
    intro c hc
    rcases hblanks c hc with rfl | rfl <;> rfl
  rcases hending with rfl | rfl
  · exact ⟨hgaps, hcomment, .inr rfl⟩
  · -- the carriage return counts to the gap or to the comment
    rcases hcomment with rfl | ⟨body, rfl, hbody⟩
    · have hreturn : ∀ c ∈ blanks ++ ['\r'], isGap c = true := by
        intro c hc
        rcases List.mem_append.mp hc with hc | hc
        · exact hgaps c hc
        · rw [List.mem_singleton.mp hc]
          rfl
      simpa using Wordless.mk hreturn (.inl rfl) (.inr rfl)
    · have hreturn : '\n' ∉ body ++ ['\r'] := by
        rw [List.mem_append, not_or]
        exact ⟨hbody, by decide⟩
      simpa using Wordless.mk hgaps (.inr ⟨_, rfl, hreturn⟩) (.inr rfl)

theorem not_stray (h : BlankLine text) : isStray text = false := by
  obtain @⟨blanks, comment, ending, hblanks, hcomment, hending⟩ := h
  have hindents : ∀ c ∈ blanks, isIndent c = true := by
    intro c hc
    rcases hblanks c hc with rfl | rfl <;> rfl
  rw [List.append_assoc]
  rcases hcomment with rfl | ⟨body, rfl, -⟩
  · rcases hending with rfl | rfl <;>
      exact isStray_of_blankLine hindents (fun c hc => by cases hc; rfl) rfl
  · exact isStray_of_blankLine hindents (fun c hc => by cases hc; rfl) rfl

end BlankLine

open Scanner

theorem run_append {before : String} (h : Closed before.toList) (after file : String) :
    (Scanner.start (before ++ after) file).run =
      (Scanner.start before file).run >>= fun s => (s.extend after.toList).run := by
  have hstart : Scanner.start (before ++ after) file =
      (Scanner.start before file).extend after.toList := by
    unfold Scanner.start extend
    rw [String.toList_append]
  rw [hstart, run_extend h]

/-- A text is scanned in two parts, cut where a line is closed: the scanner goes on with the second
part from where the first has left it. -/
theorem scan_append {before : String} (h : Closed before.toList) (after file : String) :
    scan (before ++ after) file =
      (Scanner.start before file).run >>= fun s => (s.extend after.toList).run.map finish := by
  rw [scan, run_append h]
  cases (Scanner.start before file).run <;> rfl

/-- A line without words that is not stray makes no difference between two lines, nor at the end. -/
theorem scan_insert_wordless {before line after : String} (hbefore : Closed before.toList)
    (hline : Wordless line.toList) (hend : after.toList = [] ∨ '\n' ∈ line.toList)
    (hstray : isStray line.toList = false) (file : String) :
    Agree SameWords (scan (before ++ after) file) (scan (before ++ line ++ after) file) := by
  rw [String.append_assoc, scan_append hbefore, scan_append hbefore]
  refine (Agree.refl (R := Eq) (fun _ => rfl) _).bind fun s t hs _ hst => ?_
  subst hst
  have hbetween : s.Between :=
    run_between (steady_start before file) hbefore (fun _ => between_start before file) hs
  have hrest (more : List Char) : (s.extend more).rest = more := by
    change s.rest ++ more = more
    rw [rest_eq_nil_of_run hs, List.nil_append]
  have htext : (s.extend (line ++ after).toList).rest = line.toList ++ after.toList := by
    rw [hrest, String.toList_append]
  rw [run_wordless (hbetween.extend _) hline htext hend hstray]
  -- behind the line stands what stands there without it
  have hbehind : InStep id (s.extend after.toList)
      ((s.extend (line ++ after).toList).skip line.toList) := by
    refine ⟨⟨rfl, (List.map_id _).symm, rfl, rfl⟩, ?_⟩
    rw [skip_rest htext, hrest]
  exact hbehind.run_id.map fun _ _ halike => halike.finish

/-- Blank lines and comment lines make no difference, wherever they are put between two lines. -/
theorem scan_insert_blankLine {before line : String} (hbefore : Closed before.toList)
    (hline : BlankLine line.toList) (after file : String) :
    Agree SameWords (scan (before ++ after) file) (scan (before ++ line ++ after) file) :=
  scan_insert_wordless hbefore hline.wordless (.inr hline.mem) hline.not_stray file

/-- A comment line with a carriage return, inside parentheses that stand in a block. -/
theorem scan_insert_blankLine_inside :
    Closed "if a:\n  f(1,\n".toList ∧ BlankLine "\t # b)\r\n".toList ∧
    (∃ tokens, scan ("if a:\n  f(1,\n" ++ "2)\n") "f" = .ok tokens ∧ tokens.length = 14) ∧
    Agree SameWords (scan ("if a:\n  f(1,\n" ++ "2)\n") "f")
      (scan ("if a:\n  f(1,\n" ++ "\t # b)\r\n" ++ "2)\n") "f") := by
  have hbefore : Closed "if a:\n  f(1,\n".toList := by
    rintro c ⟨⟩
    rfl
  have hline : BlankLine "\t # b)\r\n".toList := by
    change BlankLine (['\t', ' '] ++ ['#', ' ', 'b', ')'] ++ ['\r', '\n'])
    exact .mk (by decide) (.inr ⟨_, rfl, by decide⟩) (.inr rfl)
  refine ⟨hbefore, hline, ?_, scan_insert_blankLine hbefore hline "2)\n" "f"⟩
  generalize htext : "if a:\n  f(1,\n" ++ "2)\n" = text
  have htest : (scan text "f").toOption.any (fun tokens => tokens.length = 14) = true := by
    subst htext
    decide +kernel
  obtain ⟨tokens, htokens, hcount⟩ := exists_tokens_of_any htest
  exact ⟨tokens, htokens, of_decide_eq_true hcount⟩

end StackScript.Token
