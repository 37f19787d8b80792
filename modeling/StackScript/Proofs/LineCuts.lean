import StackScript.Proofs.Balance

namespace StackScript.Token

/-- Empty, or ending in a line feed. -/
def Closed (text : List Char) : Prop := ∀ c ∈ text.getLast?, c = '\n'

namespace Closed

variable {text rest : List Char}

theorem mem (h : Closed text) (hne : text ≠ []) : '\n' ∈ text := by
  have hlast := List.getLast?_eq_some_getLast hne
  have hc := h _ hlast
  rw [← hc]
  exact List.getLast_mem hne

theorem suffix (h : Closed text) (hs : rest <:+ text) : Closed rest := by
  obtain ⟨before, rfl⟩ := hs
  cases rest with
  | nil => exact fun c hc => by cases hc
  | cons d rest =>
    intro c hc
    apply h c
    rw [List.getLast?_append_of_ne_nil _ (List.cons_ne_nil d rest)]
    exact hc

theorem append_left (h : Closed rest) (hne : rest ≠ []) (text : List Char) :
    Closed (text ++ rest) := by
  intro c hc
  rw [List.getLast?_append_of_ne_nil _ hne] at hc
  exact h c hc

theorem append (h : Closed text) (h' : Closed rest) : Closed (text ++ rest) := by
  by_cases hne : rest = []
  · rw [hne, List.append_nil]
    exact h
  · exact h'.append_left hne text

end Closed

theorem closed_line (body : List Char) : Closed (body ++ ['\n']) :=
  Closed.append_left (fun c hc => by cases hc; rfl) (List.cons_ne_nil _ _) body

/-- What stands up to a line feed is a line of its own. -/
theorem lines_line {body : List Char} (h : '\n' ∉ body) (rest : List Char) :
    Text.lines (body ++ '\n' :: rest) = (body ++ ['\n']) :: Text.lines rest := by
  induction body with
  | nil => rfl
  | cons c body ih =>
    rw [List.mem_cons, not_or] at h
    rw [List.cons_append, Text.lines, if_neg (Ne.symm h.1), ih h.2]
    rfl

theorem lines_flat {body : List Char} (h : '\n' ∉ body) (hne : body ≠ []) :
    Text.lines body = [body] := by
  induction body with
  | nil => exact absurd rfl hne
  | cons c body ih =>
    rw [List.mem_cons, not_or] at h
    rw [Text.lines, if_neg (Ne.symm h.1)]
    cases body with
    | nil => rfl
    | cons d body => rw [ih h.2 (List.cons_ne_nil d body)]

theorem lineText_mem_lines {text : List Char} (h : text ≠ []) : lineText text ∈ Text.lines text := by
  obtain ⟨body, after, rfl, hbody, ⟨rfl, hl⟩ | ⟨rest, rfl, hl⟩⟩ := exists_lineText text
  · rw [hl]
    rw [List.append_nil] at h ⊢
    rw [lines_flat hbody h]
    exact List.mem_cons_self
  · rw [hl, lines_line hbody]
    exact List.mem_cons_self

/-- Induction on the lines of a text, the last of which may lack its line feed. -/
theorem lines_induct {P : List Char → Prop} (nil : P [])
    (last : ∀ body, body ≠ [] → '\n' ∉ body → P body)
    (line : ∀ body rest, '\n' ∉ body → P rest → P (body ++ '\n' :: rest)) (text : List Char) :
    P text := by
  induction hn : text.length using Nat.strongRecOn generalizing text with
  | ind n ih =>
    obtain ⟨body, after, rfl, hbody, ⟨rfl, -⟩ | ⟨rest, rfl, -⟩⟩ := exists_lineText text
    · rw [List.append_nil]
      by_cases hne : body = []
      · rw [hne]
        exact nil
      · exact last body hne hbody
    · refine line body rest hbody (ih rest.length ?_ rest rfl)
      rw [← hn, List.length_append, List.length_cons]
      omega

/-- Behind a closed text lines start anew. -/
theorem lines_append {before : List Char} (h : Closed before) (rest : List Char) :
    Text.lines (before ++ rest) = Text.lines before ++ Text.lines rest := by
  induction before using lines_induct with
  | nil => rfl
  | last body hne hbody => exact absurd (h.mem hne) hbody
  | line body after hbody ih =>
    have hafter : Closed after := h.suffix ⟨body ++ ['\n'], by simp⟩
    rw [List.append_assoc, List.cons_append, lines_line hbody, ih hafter, lines_line hbody,
      List.cons_append]

section

variable {cs cs' more : List Char}

/-- A run that stops within a text stops there whatever follows. -/
theorem takeWhile_append_of_mem {p : Char → Bool} (hp : p '\n' = false) (h : '\n' ∈ cs) :
    (cs ++ more).takeWhile p = cs.takeWhile p := by
  induction cs with
  | nil => cases h
  | cons c cs ih =>
    by_cases hc : p c = true
    · have hmem : '\n' ∈ cs := by
        rcases List.mem_cons.mp h with rfl | hmem
        · rw [hp] at hc
          cases hc
        · exact hmem
      rw [List.cons_append, List.takeWhile_cons_of_pos hc, List.takeWhile_cons_of_pos hc, ih hmem]
    · rw [List.cons_append, List.takeWhile_cons_of_neg hc, List.takeWhile_cons_of_neg hc]

/-- Behind a run that stops at a line feed at the latest there is something left. -/
theorem mem_drop_takeWhile {p : Char → Bool} (hp : p '\n' = false) (h : '\n' ∈ cs) :
    '\n' ∈ cs.drop (cs.takeWhile p).length := by
  rw [drop_takeWhile]
  rw [← List.takeWhile_append_dropWhile (p := p) (l := cs)] at h
  rcases List.mem_append.mp h with hrun | h
  · have hall : ∀ c ∈ cs.takeWhile p, p c = true := List.all_eq_true.mp List.all_takeWhile
    have := hall _ hrun
    rw [hp] at this
    cases this
  · exact h

/-- A literal ends on its line, so what stands behind the line makes no difference to it. -/
theorem literal?_append (quote : Char) (h : '\n' ∈ cs) :
    literal? quote (cs ++ more) = literal? quote cs := by
  have hp : ('\n' != quote && '\n' != '\n') = false := by simp
  have hdrop := mem_drop_takeWhile (p := fun c => c != quote && c != '\n') hp h
  have hlength : (cs.takeWhile fun c => c != quote && c != '\n').length ≤ cs.length :=
    (List.takeWhile_prefix _).length_le
  unfold literal?
  rw [takeWhile_append_of_mem hp h]
  dsimp only
  rw [List.drop_append_of_le_length hlength, List.head?_append_of_ne_nil _ (List.ne_nil_of_mem hdrop)]

def operatorStarts : List Char :=
  ['(', ')', '-', '=', '!', '<', '>', ':', ',', '+', '/', '*', '%']

theorem operator?_eq_none {c : Char} (h : c ∉ operatorStarts) (cs : List Char) :
    operator? (c :: cs) = none := by
  unfold operator?
  split
  case h_18 => rfl
  all_goals
    rename_i heq
    obtain ⟨rfl, -⟩ := List.cons.inj heq
    exact absurd (by decide) h

/-- Operators, line ends and blank lines are known by two characters. -/
theorem operator?_congr (c d : Char) : operator? (c :: d :: cs) = operator? (c :: d :: cs') := by
  by_cases hc : c ∈ operatorStarts
  · simp only [operatorStarts, List.mem_cons, List.not_mem_nil, or_false] at hc
    -- of the second character it matters only whether it is one of these
    by_cases hd : d = '=' ∨ d = '>' ∨ d = '/'
    · rcases hc with rfl | rfl | rfl | rfl | rfl | rfl | rfl | rfl | rfl | rfl | rfl | rfl | rfl <;>
        rcases hd with rfl | rfl | rfl <;> rfl
    · simp only [not_or] at hd
      rcases hc with rfl | rfl | rfl | rfl | rfl | rfl | rfl | rfl | rfl | rfl | rfl | rfl | rfl <;>
        simp [operator?, hd]
  · rw [operator?_eq_none hc, operator?_eq_none hc]

theorem lineEnd?_congr (c d : Char) : lineEnd? (c :: d :: cs) = lineEnd? (c :: d :: cs') := by
  unfold lineEnd?
  split <;> split <;> simp_all

theorem isBlankLine_congr (c d : Char) :
    isBlankLine (c :: d :: cs) = isBlankLine (c :: d :: cs') := by
  unfold isBlankLine
  split <;> split <;> simp_all

/-- Whether a line is blank is seen on the line. -/
theorem isBlankLine_append (h : '\n' ∈ cs) : isBlankLine (cs ++ more) = isBlankLine cs := by
  rcases cs with _ | ⟨c, _ | ⟨d, cs⟩⟩
  · cases h
  · obtain rfl := List.mem_singleton.mp h
    rfl
  · exact isBlankLine_congr c d

theorem lineText_append (h : '\n' ∈ cs) : lineText (cs ++ more) = lineText cs := by
  induction cs with
  | nil => cases h
  | cons c cs ih =>
    rw [List.cons_append, lineText, lineText]
    split
    · rfl
    · rename_i hc
      rw [ih (List.mem_of_ne_of_mem (Ne.symm hc) h)]

/-- The lexeme at the front of a text does not depend on what stands behind its first line. -/
theorem lexeme?_append (h : '\n' ∈ cs) : lexeme? (cs ++ more) = lexeme? cs := by
  cases cs with
  | nil => cases h
  | cons c cs =>
    by_cases hc : c = '\n'
    · subst hc
      rfl
    · have hmem : '\n' ∈ cs := List.mem_of_ne_of_mem (Ne.symm hc) h
      obtain ⟨d, ds, rfl⟩ := List.exists_cons_of_ne_nil (List.ne_nil_of_mem hmem)
      rw [List.cons_append, lexeme?, lexeme?, takeWhile_append_of_mem (by decide) hmem,
        takeWhile_append_of_mem (by decide) hmem, takeWhile_append_of_mem (by decide) hmem,
        takeWhile_append_of_mem (by decide) hmem, literal?_append c hmem, List.cons_append,
        operator?_congr c d, lineEnd?_congr c d]

theorem not_mem_run {p : Char → Bool} {c : Char} (hp : p '\n' = false) (hc : p c = true) :
    '\n' ∉ c :: cs.takeWhile p := by
  intro h
  have hall : ∀ d ∈ cs.takeWhile p, p d = true := List.all_eq_true.mp List.all_takeWhile
  have hline : p '\n' = true := by
    rcases List.mem_cons.mp h with rfl | h
    · exact hc
    · exact hall _ h
  rw [hp] at hline
  cases hline

/-- Only a line end holds a line feed. -/
theorem lexeme?_flat {text : List Char} {lexeme : Lexeme} (h : lexeme? cs = some (lexeme, text))
    (hl : lexeme ≠ .lineEnd) : '\n' ∉ text := by
  cases lexeme?_fronts h with
  | name hc => exact not_mem_run (by decide) (isWordChar_of_start hc)
  | number hc => exact not_mem_run (by decide) hc
  | lineEnd => exact absurd rfl hl
  | gap hc => exact not_mem_run (by decide) hc
  | comment => exact not_mem_run (by decide) (by decide)
  | @literal quote cs _ hquote htext =>
    have hne : '\n' ≠ quote := by rcases hquote with rfl | rfl <;> decide
    have hbody : '\n' ∉ 'a' :: cs.takeWhile fun c => c != quote && c != '\n' :=
      not_mem_run (by simp) (by rcases hquote with rfl | rfl <;> decide)
    unfold literal? at htext
    obtain ⟨-, htext⟩ := Option.ite_none_right_eq_some.mp htext
    cases htext
    simp only [List.mem_cons, List.mem_append, List.not_mem_nil, or_false, not_or] at hbody ⊢
    exact ⟨⟨hne, hbody.2⟩, hne⟩
  | operator hop =>
    unfold operator? at hop
    split at hop <;> cases hop <;> decide

/-- A line end ends in a line feed. -/
theorem lexeme?_lineEnd {text : List Char} (h : lexeme? cs = some (.lineEnd, text)) :
    Closed text := by
  cases lexeme?_fronts h with
  | lineEnd hend =>
    unfold lineEnd? at hend
    split at hend <;> cases hend <;> exact fun c hc => by cases hc; rfl

theorem not_mem_dropLast_of_suffix {rest rest' : List Char} (h : '\n' ∉ rest.dropLast)
    (hsuffix : rest' <:+ rest) : '\n' ∉ rest'.dropLast := by
  obtain ⟨before, rfl⟩ := hsuffix
  by_cases hne : rest' = []
  · rw [hne]
    exact List.not_mem_nil
  · rw [List.dropLast_append_of_ne_nil hne, List.mem_append, not_or] at h
    exact h.2

theorem lineText_eq_self {text : List Char} (h : '\n' ∉ text.dropLast) : lineText text = text := by
  obtain ⟨body, after, rfl, -, ⟨rfl, hl⟩ | ⟨rest, rfl, hl⟩⟩ := exists_lineText text
  · rw [hl, List.append_nil]
  · have hrest : rest = [] := by
      by_contra hne
      apply h
      rw [List.dropLast_append_of_ne_nil (List.cons_ne_nil _ _), List.dropLast_cons_of_ne_nil hne]
      exact List.mem_append_right _ List.mem_cons_self
    rw [hl, hrest]

end

namespace Scanner

variable {s t : Scanner} {more : List Char}

def extend (s : Scanner) (more : List Char) : Scanner := { s with rest := s.rest ++ more }

theorem eq_extend {text : List Char} (h : s.rest = text ++ more) :
    s = { s with rest := text }.extend more := by
  unfold extend
  rw [← h]

theorem skip_extend {text : List Char} (h : text.length ≤ s.rest.length) :
    (s.extend more).skip text = (s.skip text).extend more := by
  unfold skip extend
  rw [List.drop_append_of_le_length h]

theorem indentTo_extend (s : Scanner) (column : Nat) (more : List Char) :
    (s.extend more).indentTo column = (s.indentTo column).map (·.extend more) := by
  cases hl : s.levels with
  | nil =>
    have hl' : (s.extend more).levels = [] := hl
    rw [indentTo, indentTo, hl, hl']
    rfl
  | cons top outer =>
    have hl' : (s.extend more).levels = top :: outer := hl
    rw [indentTo, indentTo, hl, hl']
    dsimp only
    split
    · rfl
    · split
      · rw [pushDedents_eq, pushDedents_eq]
        rfl
      · rfl

/-- The start of a line is treated in the same way whatever follows the line. -/
theorem startLine_extend (h : '\n' ∈ s.rest) :
    (s.extend more).startLine = s.startLine.map (·.extend more) := by
  have hblanks : (s.extend more).blanks = s.blanks := takeWhile_append_of_mem (by decide) h
  have hlength : s.blanks.length ≤ s.rest.length := (List.takeWhile_prefix _).length_le
  have hline : (s.extend more).line = s.line ++ more := by
    rw [line, hblanks]
    exact List.drop_append_of_le_length hlength
  have hmem : '\n' ∈ s.line := mem_drop_takeWhile (by decide) h
  have hentered : (s.extend more).entered = s.entered.extend more := by
    unfold entered
    rw [hblanks, skip_extend hlength]
    rfl
  rw [startLine_eq_ite, startLine_eq_ite, column, column, hline, hblanks, isBlankLine_append hmem,
    lineText_append hmem, hentered, indentTo_extend]
  split
  · have hle : (s.blanks ++ lineText s.line).length ≤ s.rest.length := by
      rw [← s.blanks_append_line, List.length_append, List.length_append]
      have hlength := List.IsPrefix.length_le <| lineText_prefix s.line
      exact Nat.add_le_add_left hlength _
    rw [skip_extend hle]
    rfl
  · rfl

theorem takeWord_extend {kind : Kind} {text : List Char} (h : text.length ≤ s.rest.length) :
    (s.extend more).takeWord kind text = (s.takeWord kind text).extend more := by
  change { ((s.push kind (wordValue kind text) text).extend more).skip text with
    parens := (s.takeWord kind text).parens } = _
  rw [skip_extend (by exact h)]
  rfl

theorem takeLineEnd_extend {text : List Char} (h : text.length ≤ s.rest.length) :
    (s.extend more).takeLineEnd text = (s.takeLineEnd text).extend more := by
  have hnewline : (s.extend more).pushNewline text = (s.pushNewline text).extend more := by
    have htokens : (s.extend more).tokens = s.tokens := rfl
    rw [pushNewline, pushNewline, htokens]
    cases s.tokens with
    | nil => rfl
    | cons t tokens =>
      dsimp only
      split <;> rfl
  change (if s.parens = 0 then { ((s.extend more).pushNewline text).skip text with lineStart := true }
    else (s.extend more).skip text) = _
  rw [hnewline, skip_extend h, skip_extend (by rw [pushNewline_rest]; exact h), takeLineEnd]
  split <;> rfl

/-- No lexeme goes on behind a line feed. -/
theorem takeLexeme_extend (h : '\n' ∈ s.rest) :
    (s.extend more).takeLexeme = s.takeLexeme.map (·.extend more) := by
  have hlexeme : lexeme? (s.extend more).rest = lexeme? s.rest := lexeme?_append h
  unfold takeLexeme
  rw [hlexeme]
  cases hx : lexeme? s.rest with
  | none =>
    obtain ⟨c, cs, hrest⟩ := List.exists_cons_of_ne_nil (List.ne_nil_of_mem h)
    have htake : (s.extend more).rest.take 1 = s.rest.take 1 := by
      change (s.rest ++ more).take 1 = _
      rw [hrest]
      rfl
    dsimp only
    rw [htake]
    rfl
  | some found =>
    obtain ⟨lexeme, text⟩ := found
    have hle := (lexeme?_front hx).2.length_le
    cases lexeme with
    | word kind => exact congrArg Except.ok (takeWord_extend hle)
    | lineEnd => exact congrArg Except.ok (takeLineEnd_extend hle)
    | gap => exact congrArg Except.ok (skip_extend hle)

/-- A step within a closed text does not depend on what stands behind it. -/
theorem step_extend (h : '\n' ∈ s.rest) : (s.extend more).step = s.step.map (·.extend more) := by
  change (if s.lineStart ∧ s.parens = 0 then (s.extend more).startLine
    else (s.extend more).takeLexeme) = _
  unfold step
  split
  · exact startLine_extend h
  · exact takeLexeme_extend h

theorem not_atLine (h : s.lineStart = false) : ¬ s.AtLine := by
  intro hat
  rw [hat.lineStart] at h
  cases h

/-- What a step can do in the middle of a line, or inside parentheses. -/
theorem Moves.of_not_atLine (h : s.Moves t) (hat : ¬ s.AtLine) :
    (∃ kind text, lexeme? s.rest = some (.word kind, text) ∧ t = s.takeWord kind text) ∨
    (∃ text, s.parens = 0 ∧ lexeme? s.rest = some (.lineEnd, text) ∧
      t = { (s.pushNewline text).skip text with lineStart := true }) ∨
    (∃ text, s.parens ≠ 0 ∧ lexeme? s.rest = some (.lineEnd, text) ∧ t = s.skip text) ∨
    ∃ text, lexeme? s.rest = some (.gap, text) ∧ t = s.skip text := by
  cases h with
  | blankLine hstart => exact absurd hstart hat
  | first hstart => exact absurd hstart.toAtLine hat
  | deeper hstart => exact absurd hstart.toAtLine hat
  | back hstart => exact absurd hstart.toAtLine hat
  | word _ hx => exact .inl ⟨_, _, hx, rfl⟩
  | newline _ hp hx => exact .inr (.inl ⟨_, hp, hx, rfl⟩)
  | joined hp hx => exact .inr (.inr (.inl ⟨_, hp, hx, rfl⟩))
  | gap _ hx => exact .inr (.inr (.inr ⟨_, hx, rfl⟩))

/-- What a step can do at the start of a line with words. -/
theorem Moves.of_atWords (h : s.Moves t) (hat : s.AtWords) :
    (s.levels = [] ∧ t = { s.entered with levels := [s.column] }) ∨
    (∃ top, top ∈ s.levels.head? ∧ top < s.column ∧
      t = { s.entered with levels := s.column :: s.levels }.push .indent "<indent>" []) ∨
    ∃ top closed levels, top ∈ s.levels.head? ∧ s.column ≤ top ∧
      closeLevels s.column s.levels = (closed, levels) ∧ levels.head? = some s.column ∧
      t = { s.entered with levels }.pushDedents closed := by
  cases h with
  | blankLine _ hblank =>
    rw [hat.words] at hblank
    cases hblank
  | first _ hl => exact .inl ⟨hl, rfl⟩
  | deeper _ hl htop => exact .inr (.inl ⟨_, by rw [hl]; rfl, htop, rfl⟩)
  | back _ hl htop hclose hfound =>
    exact .inr (.inr ⟨_, _, _, by rw [hl]; rfl, htop, hclose, hfound, rfl⟩)
  | word hnot => exact absurd hat.toAtLine hnot
  | newline hl =>
    rw [hat.lineStart] at hl
    cases hl
  | joined hp => exact absurd hat.parens hp
  | gap hnot => exact absurd hat.toAtLine hnot

theorem Moves.rest_suffix (h : s.Moves t) : t.rest <:+ s.rest := by
  cases h with
  | back => rw [pushDedents_eq]; exact List.drop_suffix _ _
  | newline => rw [pushNewline_eq]; exact List.drop_suffix _ _
  | _ => exact List.drop_suffix _ _

theorem rest_eq_nil_of_run (h : s.run = .ok t) : t.rest = [] := by
  fun_induction run s with
  | case1 s hr =>
    cases h
    exact hr
  | case2 => cases h
  | case3 _ _ _ _ _ ih => exact ih h

/-- A text that ends in a line feed is scanned by itself, and what follows after it. -/
theorem run_extend (h : Closed s.rest) (more : List Char) :
    (s.extend more).run = s.run >>= fun t => (t.extend more).run := by
  fun_induction run s with
  | case1 => rfl
  | case2 s hr d hstep =>
    have hmem := h.mem hr
    have hne : (s.extend more).rest ≠ [] := List.append_ne_nil_of_left_ne_nil hr more
    refine run_of_step_error hne ?_
    rw [step_extend hmem, hstep]
    rfl
  | case3 s hr t hstep _ ih =>
    have hmem := h.mem hr
    have hne : (s.extend more).rest ≠ [] := List.append_ne_nil_of_left_ne_nil hr more
    have hstep' : (s.extend more).step = .ok (t.extend more) := by
      rw [step_extend hmem, hstep]
      rfl
    rw [run_of_step hne hstep']
    exact ih (h.suffix (step_moves hstep).rest_suffix)

/-- No line is under way: one starts, or a line end has been skipped inside parentheses. -/
inductive Between (s : Scanner) : Prop where
  | starts : s.AtLine → Between s
  | inside : s.lineStart = false → s.parens ≠ 0 → Between s

theorem Between.extend (h : s.Between) (more : List Char) : (s.extend more).Between := by
  cases h with
  | starts hat => exact .starts ⟨hat.lineStart, hat.parens⟩
  | inside hl hp => exact .inside hl hp

/-- A text that ends in a line feed is not used up by a lexeme without one. -/
theorem drop_lexeme_ne_nil {cs text : List Char} {lexeme : Lexeme} (hc : Closed cs)
    (hx : lexeme? cs = some (lexeme, text)) (hl : lexeme ≠ .lineEnd) : cs.drop text.length ≠ [] := by
  intro hnil
  obtain ⟨hne, hprefix⟩ := lexeme?_front hx
  have hle := List.drop_eq_nil_iff.mp hnil
  have htext : text = cs := hprefix.eq_of_length_le hle
  have hflat := lexeme?_flat hx hl
  rw [htext] at hne hflat
  exact hflat (hc.mem hne)

theorem AtWords.line_ne_nil (h : s.AtWords) : s.line ≠ [] := by
  intro hnil
  have hwords := h.words
  rw [hnil] at hwords
  cases hwords

/-- A step that uses up a closed text leaves the scanner between two lines. -/
theorem Moves.between (h : s.Moves t) (hs : s.Steady) (hc : Closed s.rest) (hr : t.rest = []) :
    t.Between := by
  cases h with
  | blankLine hat => exact .starts ⟨hat.lineStart, hat.parens⟩
  | first hat | deeper hat => exact absurd hr hat.line_ne_nil
  | back hat =>
    rw [pushDedents_rest] at hr
    exact absurd hr hat.line_ne_nil
  | word _ hx | gap _ hx => exact absurd hr (drop_lexeme_ne_nil hc hx Lexeme.noConfusion)
  | newline _ hp =>
    rw [pushNewline_eq]
    exact .starts ⟨rfl, hp⟩
  | joined hp =>
    have hat : ¬ s.AtLine := fun hat => hp hat.parens
    exact .inside (hs.started hat).1 hp

/-- At the end of a text that ends in a line feed no line is under way. -/
theorem run_between (hs : s.Steady) (hc : Closed s.rest) (hbetween : s.rest = [] → s.Between)
    (h : s.run = .ok t) : t.Between := by
  fun_induction run s with
  | case1 s hr =>
    cases h
    exact hbetween hr
  | case2 => cases h
  | case3 s hr u hstep _ ih =>
    have hmoves := step_moves hstep
    exact ih (hmoves.steady hs) (hc.suffix hmoves.rest_suffix) (hmoves.between hs hc) h

theorem run_steady (hs : s.Steady) (h : s.run = .ok t) : t.Steady := by
  fun_induction run s with
  | case1 =>
    cases h
    exact hs
  | case2 => cases h
  | case3 s hr u hstep _ ih => exact ih ((step_moves hstep).steady hs) h

theorem run_eq_bind (hr : s.rest ≠ []) : s.run = s.step >>= run := by
  cases hstep : s.step with
  | ok t => rw [run_of_step hr hstep]; rfl
  | error d => rw [run_of_step_error hr hstep]; rfl

structure OnLine (s : Scanner) : Prop where
  flat : '\n' ∉ s.rest.dropLast
  last : s.lineStart = true → s.rest = []

/-- Where only the rest of a line is left, no other line starts. -/
theorem Moves.onLine (h : s.Moves t) (hs : s.OnLine) (hr : s.rest ≠ []) : t.OnLine := by
  have hl : s.lineStart ≠ true := fun hl => hr (hs.last hl)
  refine ⟨not_mem_dropLast_of_suffix hs.flat h.rest_suffix, fun hlast => ?_⟩
  rcases h.of_not_atLine fun hat => hl hat.lineStart with
    ⟨_, _, -, rfl⟩ | ⟨text, -, hx, rfl⟩ | ⟨_, -, -, rfl⟩ | ⟨_, -, rfl⟩
  · exact absurd hlast hl
  · -- the line feed that was read is the last character
    have hrest : ((s.pushNewline text).skip text).rest = s.rest.drop text.length := by
      unfold skip
      rw [pushNewline_rest]
    have hsplit := List.prefix_iff_eq_append.mp (lexeme?_front hx).2
    change ((s.pushNewline text).skip text).rest = []
    rw [hrest]
    by_contra hne
    apply hs.flat
    rw [← hsplit, List.dropLast_append_of_ne_nil hne]
    exact List.mem_append_left _ ((lexeme?_lineEnd hx).mem (lexeme?_front hx).1)
  · exact absurd hlast hl
  · exact absurd hlast hl

/-- A line start leaves what stands behind the blanks of the line, or nothing of it. -/
theorem Moves.onLine_of_atLine (h : s.Moves t) (hat : s.AtLine) (hflat : '\n' ∉ s.rest.dropLast) :
    t.OnLine := by
  refine ⟨not_mem_dropLast_of_suffix hflat h.rest_suffix, fun hlast => ?_⟩
  cases h with
  | blankLine =>
    have hline : lineText s.line = s.line :=
      lineText_eq_self (not_mem_dropLast_of_suffix hflat ⟨s.blanks, s.blanks_append_line⟩)
    rw [hline, blanks_append_line]
    exact List.drop_length
  | first => cases hlast
  | deeper => cases hlast
  | back =>
    rw [pushDedents_eq] at hlast
    cases hlast
  | word hnot => exact absurd hat hnot
  | newline hl =>
    rw [hat.lineStart] at hl
    cases hl
  | joined hp => exact absurd hat.parens hp
  | gap hnot => exact absurd hat hnot

theorem steady_start (text file : String) : (Scanner.start text file).Steady :=
  Rounds.steady (n := 0) .start

theorem between_start (text file : String) : (Scanner.start text file).Between :=
  .starts ⟨rfl, rfl⟩

end Scanner

end StackScript.Token
