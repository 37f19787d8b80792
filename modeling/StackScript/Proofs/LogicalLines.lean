import StackScript.Proofs.WordsAhead

namespace StackScript.Token

theorem kind_of_not_word {t : Token} (h : t.isWord = false) :
    t.kind = .eof ∨ t.kind = .newline ∨ t.kind = .indent ∨ t.kind = .dedent := by
  rw [isWord, Bool.not_eq_false'] at h
  revert h
  cases t.kind <;> decide

/-- No line is empty: a line is ended behind a word, a level is opened behind an ended line, and where
levels are opened or closed a word follows, or the end of the text where all are closed. -/
structure Worded (tokens : List Token) : Prop where
  newline {before after : List Token} {t : Token} : tokens = before ++ t :: after →
    t.kind = .newline → ∃ u ∈ before.getLast?, u.isWord = true
  indent {before after : List Token} {t : Token} : tokens = before ++ t :: after →
    t.kind = .indent → ∃ u ∈ before.getLast?, u.kind = .newline
  levels {before run after : List Token} : tokens = before ++ run ++ after → run ≠ [] →
    (∀ t ∈ run, t.kind = .indent ∨ t.kind = .dedent) →
    (∀ t ∈ after.head?, t.kind ≠ .indent ∧ t.kind ≠ .dedent) →
    ∃ t ∈ after.head?, t.isWord = true ∨ t.kind = .eof ∧ ∀ u ∈ run, u.kind = .dedent

/-- Tokens, newest first, without an empty line up to where they end. -/
inductive Lined : List Token → Prop where
  | nil : Lined []
  | word {t : Token} {tokens : List Token} : t.isWord = true → Lined tokens → Lined (t :: tokens)
  | newline {t u : Token} {tokens : List Token} : t.kind = .newline → u.isWord = true →
    Lined (u :: tokens) → Lined (t :: u :: tokens)
  | indent {t u : Token} {tokens : List Token} : t.kind = .indent → u.kind = .newline →
    Lined (u :: tokens) → Lined (t :: u :: tokens)
  | dedent {t u : Token} {tokens : List Token} : t.kind = .dedent →
    u.kind = .newline ∨ u.kind = .dedent → Lined (u :: tokens) → Lined (t :: u :: tokens)

namespace Lined

variable {t u : Token} {tokens newer : List Token}

theorem tail (h : Lined (t :: tokens)) : Lined tokens := by
  cases h with
  | word _ h | newline _ _ h | indent _ _ h | dedent _ _ h => exact h

theorem drop (h : Lined (newer ++ tokens)) : Lined tokens := by
  induction newer with
  | nil => exact h
  | cons t newer ih => exact ih h.tail

theorem kind_ne_eof (h : Lined tokens) : ∀ t ∈ tokens, t.kind ≠ .eof := by
  have hhead {t : Token} {tokens : List Token} (h : Lined (t :: tokens)) : t.kind ≠ .eof := by
    intro he
    cases h with
    | word hword =>
      rw [isWord, he] at hword
      cases hword
    | newline ht | indent ht | dedent ht =>
      rw [he] at ht
      cases ht
  intro t ht
  obtain ⟨newer, older, rfl⟩ := List.append_of_mem ht
  exact hhead h.drop

/-- What stands behind a layout token. -/
theorem behind (h : Lined (t :: tokens)) :
    (t.kind = .newline → ∃ u ∈ tokens.head?, u.isWord = true) ∧
    (t.kind = .indent → ∃ u ∈ tokens.head?, u.kind = .newline) ∧
    (t.kind = .dedent → ∃ u ∈ tokens.head?, u.kind = .newline ∨ u.kind = .dedent) := by
  cases h with
  | word hword =>
    have hlayout {P : Prop} (hk : t.kind.isLayout = true) : P := by
      rw [isWord_eq_false hk] at hword
      cases hword
    exact ⟨fun ht => hlayout (by rw [ht]; rfl), fun ht => hlayout (by rw [ht]; rfl),
      fun ht => hlayout (by rw [ht]; rfl)⟩
  | newline ht hu =>
    rw [ht]
    exact ⟨fun _ => ⟨_, rfl, hu⟩, fun h => absurd h (by decide), fun h => absurd h (by decide)⟩
  | indent ht hu =>
    rw [ht]
    exact ⟨fun h => absurd h (by decide), fun _ => ⟨_, rfl, hu⟩, fun h => absurd h (by decide)⟩
  | dedent ht hu =>
    rw [ht]
    exact ⟨fun h => absurd h (by decide), fun h => absurd h (by decide), fun _ => ⟨_, rfl, hu⟩⟩

/-- Levels that are closed last have none opened among them. -/
theorem dedents_of_head {run : List Token} (h : Lined (run ++ tokens))
    (hrun : ∀ t ∈ run, t.kind = .indent ∨ t.kind = .dedent)
    (hhead : ∀ t ∈ run.head?, t.kind = .dedent) : ∀ t ∈ run, t.kind = .dedent := by
  induction run with
  | nil => exact fun t ht => by cases ht
  | cons u run ih =>
    have hu : u.kind = .dedent := hhead u rfl
    have hnext : ∀ t ∈ run.head?, t.kind = .dedent := by
      intro t ht
      obtain ⟨older, rfl⟩ := List.head?_eq_some_iff.mp ht
      obtain ⟨v, hv, hkind⟩ := h.behind.2.2 hu
      cases hv
      refine (hrun t (by simp)).resolve_left fun hindent => ?_
      rw [hindent] at hkind
      rcases hkind with hkind | hkind <;> cases hkind
    intro t ht
    rcases List.mem_cons.mp ht with rfl | ht
    · exact hu
    · exact ih h.tail (fun t ht => hrun t (List.mem_cons_of_mem _ ht)) hnext t ht

/-- A place among the tokens and the end of the text. -/
theorem place {e : Token} {before after : List Token}
    (h : tokens.reverse ++ [e] = before ++ t :: after) :
    (∃ newer, tokens = newer ++ t :: before.reverse) ∨
      e = t ∧ after = [] ∧ tokens = before.reverse := by
  rcases List.eq_nil_or_concat after with rfl | ⟨middle, last, rfl⟩
  · obtain ⟨hbefore, he⟩ := List.append_inj' h rfl
    cases he
    exact .inr ⟨rfl, rfl, by rw [← hbefore, List.reverse_reverse]⟩
  · rw [List.concat_eq_append, ← List.cons_append, ← List.append_assoc] at h
    obtain ⟨hbefore, -⟩ := List.append_inj' h rfl
    refine .inl ⟨middle.reverse, ?_⟩
    rw [← List.reverse_reverse tokens, hbefore]
    simp

/-- Tokens without an empty line are worded, in order and with the end marked. -/
theorem worded {e : Token} (h : Lined tokens)
    (hhead : ∀ t ∈ tokens.head?, t.kind = .newline ∨ t.kind = .dedent) (he : e.kind = .eof) :
    Worded (tokens.reverse ++ [e]) where
  newline {before after t} hsplit ht := by
    rcases place hsplit with ⟨newer, rfl⟩ | ⟨rfl, -⟩
    · rw [List.getLast?_eq_head?_reverse]
      exact h.drop.behind.1 ht
    · rw [he] at ht
      cases ht
  indent {before after t} hsplit ht := by
    rcases place hsplit with ⟨newer, rfl⟩ | ⟨rfl, -⟩
    · rw [List.getLast?_eq_head?_reverse]
      exact h.drop.behind.2.1 ht
    · rw [he] at ht
      cases ht
  levels {before run after} hsplit hne hrun hafter := by
    obtain ⟨init, last, rfl⟩ := (List.eq_nil_or_concat' run).resolve_left hne
    have hlast := hrun last (by simp)
    cases after with
    | nil =>
      rw [List.append_nil, ← List.append_assoc] at hsplit
      obtain ⟨-, heq⟩ := List.append_inj' hsplit rfl
      cases heq
      rw [he] at hlast
      rcases hlast with hlast | hlast <;> cases hlast
    | cons next after =>
      refine ⟨next, rfl, ?_⟩
      have hnext := hafter next rfl
      have hbefore : (before ++ (init ++ [last])).reverse =
          (last :: init.reverse) ++ before.reverse := by simp
      rcases place hsplit with ⟨newer, rfl⟩ | ⟨rfl, -, rfl⟩
      · rw [hbefore] at h
        left
        by_contra hword
        rcases kind_of_not_word (Bool.eq_false_iff.mpr hword) with hk | hk | hk | hk
        · exact h.kind_ne_eof next (by simp) hk
        · obtain ⟨u, hu, huword⟩ := h.drop.behind.1 hk
          cases hu
          rw [isWord] at huword
          rcases hlast with hlast | hlast <;> rw [hlast] at huword <;> cases huword
        · exact hnext.1 hk
        · exact hnext.2 hk
      · rw [hbefore] at h hhead
        have hclosed : last.kind = .dedent := by
          refine hlast.resolve_left fun hindent => ?_
          rcases hhead last rfl with hk | hk <;> rw [hindent] at hk <;> cases hk
        refine .inr ⟨he, fun u hu => h.dedents_of_head (fun t ht => ?_) (fun t ht => ?_) u ?_⟩
        · exact hrun t (by simpa [or_comm] using ht)
        · cases ht
          exact hclosed
        · simpa [or_comm] using hu

theorem dedents (h : Lined tokens) (n : Nat) (value : String) (span : Span)
    (hhead : n ≠ 0 → ∃ u ∈ tokens.head?, u.kind = .newline) :
    Lined (List.replicate n ⟨.dedent, value, span⟩ ++ tokens) := by
  induction n with
  | zero => exact h
  | succ n ih =>
    obtain ⟨u, hu, hk⟩ := hhead (Nat.succ_ne_zero n)
    have hbelow := ih fun _ => ⟨u, hu, hk⟩
    cases n with
    | zero =>
      obtain ⟨older, rfl⟩ := List.head?_eq_some_iff.mp hu
      exact .dedent rfl (.inl hk) hbelow
    | succ n => exact .dedent rfl (.inr rfl) hbelow

end Lined

theorem Laid.depth_nil {depth : Nat} (h : Laid depth []) : depth = 0 := by
  cases h
  rfl

namespace Scanner

variable {source file : String} {n : Nat} {s t : Scanner}

structure Shifts (s : Scanner) : Prop extends s.AtWords where
  shifted : ∃ top ∈ s.levels.head?, s.column ≠ top

/-- No line so far is empty, and behind a change of levels words are ahead. -/
structure Wording (s : Scanner) : Prop where
  lined : Lined s.tokens
  due : ∀ t ∈ s.tokens.head?, t.kind = .indent ∨ t.kind = .dedent → ¬ Wordless (lineText s.rest)

/-- Where no words are ahead, a line that has to be ended has words. -/
theorem Wording.pushNewline (h : s.Wording) (hend : Wordless (lineText s.rest)) (text : List Char) :
    Lined (s.pushNewline text).tokens ∧
      ∀ t ∈ (s.pushNewline text).tokens.head?, t.kind = .newline := by
  rcases pushNewline_cases s text with ⟨he, hhead⟩ | ⟨he, u, hu, hne⟩
  · rw [he]
    exact ⟨h.lined, hhead⟩
  · rw [he]
    have hword : u.isWord = true := by
      by_contra hword
      rcases kind_of_not_word (Bool.eq_false_iff.mpr hword) with hk | hk | hk | hk
      · exact h.lined.kind_ne_eof u (List.mem_of_head? hu) hk
      · exact hne hk
      · exact h.due u hu (.inl hk) hend
      · exact h.due u hu (.inr hk) hend
    obtain ⟨older, htokens⟩ := List.head?_eq_some_iff.mp hu
    have hlined := h.lined
    rw [htokens] at hlined
    refine ⟨?_, fun t ht => ?_⟩
    · change Lined (_ :: s.tokens)
      rw [htokens]
      exact .newline rfl hword hlined
    · cases ht
      rfl

/-- A step keeps lines from being empty if only lines with words are put at another level. -/
theorem Moves.wording (h : s.Moves t) (hs : s.Steady) (hw : s.Wording)
    (hshift : s.Shifts → ¬ Wordless (lineText s.rest) ∧ s.tokens ≠ []) : t.Wording := by
  -- where the line before is ended, nothing is due
  have hended {tokens : List Token} {P : Prop} (h : ∀ t ∈ tokens.head?, t.kind = .newline) :
      ∀ t ∈ tokens.head?, t.kind = .indent ∨ t.kind = .dedent → P := by
    intro t ht hk
    rw [h t ht] at hk
    rcases hk with hk | hk <;> cases hk
  cases h with
  | blankLine hat => exact ⟨hw.lined, hended (hs.ended hat.lineStart).2⟩
  | first hat => exact ⟨hw.lined, hended (hs.ended hat.lineStart).2⟩
  | @deeper top outer hat hl htop =>
    obtain ⟨hwords, hne⟩ := hshift ⟨hat, top, by rw [hl]; rfl, Nat.ne_of_gt htop⟩
    obtain ⟨u, older, htokens⟩ := List.exists_cons_of_ne_nil hne
    have hnewline := (hs.ended hat.lineStart).2
    have hlined := hw.lined
    rw [htokens] at hnewline hlined
    refine ⟨?_, fun _ _ _ => ?_⟩
    · change Lined (_ :: s.tokens)
      rw [htokens]
      exact .indent rfl (hnewline u rfl) hlined
    · exact fun hline => hwords (s.wordless_line.mp hline)
  | @back top closed outer levels hat hl htop hclose hfound =>
    have hnewline := (hs.ended hat.lineStart).2
    rw [pushDedents_eq]
    cases closed with
    | zero => exact ⟨hw.lined, hended hnewline⟩
    | succ closed =>
      have hne : s.column ≠ top := by
        intro he
        rw [hl, ← he, closeLevels_self] at hclose
        cases hclose
      obtain ⟨hwords, hne⟩ := hshift ⟨hat, top, by rw [hl]; rfl, hne⟩
      obtain ⟨u, older, htokens⟩ := List.exists_cons_of_ne_nil hne
      refine ⟨hw.lined.dedents _ _ _ fun _ => ⟨u, ?_, hnewline u ?_⟩, fun _ _ _ => ?_⟩
      · rw [htokens]
        rfl
      · rw [htokens]
        rfl
      · exact fun hline => hwords (s.wordless_line.mp hline)
  | word _ hx =>
    have hword := lexeme?_isLayout hx
    refine ⟨.word (by rw [isWord, hword]; rfl) hw.lined, fun t ht hk => ?_⟩
    cases ht
    rcases hk with rfl | rfl <;> cases hword
  | @newline text _ _ hx =>
    obtain ⟨hlined, hhead⟩ := hw.pushNewline (wordless_of_lineEnd hx) text
    exact ⟨hlined, hended hhead⟩
  | joined _ hx =>
    exact ⟨hw.lined, fun t ht hk => absurd (wordless_of_lineEnd hx) (hw.due t ht hk)⟩
  | gap _ hx =>
    exact ⟨hw.lined, fun t ht hk hline => hw.due t ht hk ((wordless_drop_gap hx).mp hline)⟩

/-- No line is empty in any round. -/
theorem Rounds.wording (h : Rounds source file n s)
    (hshift : ∀ m t, Rounds source file m t → t.Shifts →
      ¬ Wordless (lineText t.rest) ∧ t.tokens ≠ []) : s.Wording := by
  induction h with
  | start => exact ⟨.nil, fun t ht => by cases ht⟩
  | next hround _ hstep ih =>
    exact (step_moves hstep).wording hround.steady ih (hshift _ _ hround)

/-- The end of the text ends a line with words. -/
theorem Wording.finish (h : s.Wording) (hs : s.Steady) (hr : s.rest = []) : Worded s.finish := by
  have hend : Wordless (lineText s.rest) := by
    rw [hr]
    exact wordless_nil
  obtain ⟨hlined, hhead⟩ := h.pushNewline hend []
  -- levels are open only if there are tokens
  have hopen : s.levels.length - 1 ≠ 0 → ∃ u ∈ (s.pushNewline []).tokens.head?, u.kind = .newline := by
    intro hdepth
    have hlaid := (hs.pushNewline []).1
    cases htokens : (s.pushNewline []).tokens with
    | nil =>
      rw [htokens] at hlaid
      exact absurd hlaid.depth_nil hdepth
    | cons u older =>
      rw [htokens] at hhead
      exact ⟨u, rfl, hhead u rfl⟩
  rw [finish_eq]
  refine (hlined.dedents _ _ _ hopen).worded (fun t ht => ?_) rfl
  cases hn : s.levels.length - 1 with
  | zero =>
    rw [hn] at ht
    exact .inl (hhead t ht)
  | succ depth =>
    rw [hn] at ht
    cases ht
    exact .inr rfl

theorem pushNewline_suffix (s : Scanner) (text : List Char) :
    s.tokens <:+ (s.pushNewline text).tokens := by
  rcases pushNewline_cases s text with ⟨he, -⟩ | ⟨he, -⟩
  · have hsame : s.tokens = (s.pushNewline text).tokens := by rw [he]
    exact ⟨[], hsame⟩
  · rw [he]
    exact List.suffix_cons _ _

theorem Moves.tokens_suffix (h : s.Moves t) : s.tokens <:+ t.tokens := by
  cases h with
  | blankLine | first | joined | gap => exact List.suffix_refl _
  | deeper => exact List.suffix_cons _ _
  | back =>
    rw [pushDedents_eq]
    exact List.suffix_append _ _
  | word => exact List.suffix_cons _ _
  | newline => exact pushNewline_suffix _ _

/-- The tokens so far are the first ones of all. -/
theorem run_finish (h : s.run = .ok t) : s.tokens.reverse <+: t.finish := by
  fun_induction run s with
  | case1 s hr =>
    cases h
    rw [finish_eq]
    refine .trans (List.reverse_prefix.mpr ?_) (List.prefix_append _ _)
    exact (pushNewline_suffix _ _).trans (List.suffix_append _ _)
  | case2 => cases h
  | case3 s hr u hstep _ ih =>
    exact .trans (List.reverse_prefix.mpr (step_moves hstep).tokens_suffix) (ih h)

/-- Where no words are ahead, a line is ended behind the tokens that it has. -/
theorem run_wordless_finish {x : Token} {older : List Token} (hl : s.lineStart = false)
    (hp : s.parens = 0) (hw : Wordless (lineText s.rest)) (htokens : s.tokens = x :: older)
    (hx : x.kind ≠ .newline) (h : s.run = .ok t) :
    ∃ mark after, t.finish = s.tokens.reverse ++ mark :: after ∧ mark.kind = .newline := by
  have hpushed {s : Scanner} (htokens : s.tokens = x :: older) (text : List Char) :
      s.pushNewline text = s.push .newline "\n" text := by
    unfold Scanner.pushNewline
    rw [htokens]
    exact if_neg hx
  fun_induction run s with
  | case1 s hr =>
    cases h
    have hfinish := finish_eq t
    rw [hpushed htokens, List.reverse_append, List.append_assoc] at hfinish
    change _ = (_ :: t.tokens).reverse ++ _ at hfinish
    rw [List.reverse_cons, List.append_assoc] at hfinish
    exact ⟨_, _, hfinish, rfl⟩
  | case2 => cases h
  | case3 s hr u hstep _ ih =>
    rcases (step_moves hstep).of_not_atLine (not_atLine hl) with
      ⟨_, _, hx, rfl⟩ | ⟨text, -, -, rfl⟩ | ⟨_, hne, -, -⟩ | ⟨_, hx, rfl⟩
    · exact absurd hw (not_wordless_of_word hx)
    · obtain ⟨after, hafter⟩ := run_finish h
      change (s.pushNewline text).tokens.reverse ++ after = _ at hafter
      rw [hpushed htokens] at hafter
      change (_ :: s.tokens).reverse ++ after = _ at hafter
      rw [List.reverse_cons, List.append_assoc] at hafter
      exact ⟨_, _, hafter.symm, rfl⟩
    · exact absurd hp hne
    · exact ih hl hp ((wordless_drop_gap hx).mpr hw) htokens h

/-- A line that is put at another level changes the levels in front of its words. -/
theorem Shifts.moves (h : s.Shifts) (hs : s.Steady) (hmoves : s.Moves t) :
    t.lineStart = false ∧ t.parens = 0 ∧ t.rest = s.line ∧ ∃ x older, t.tokens = x :: older ∧
      (x.kind = .indent ∧ older = s.tokens ∨ x.kind = .dedent ∧ s.tokens ≠ []) := by
  obtain ⟨top, hhead, hne⟩ := h.shifted
  rcases hmoves.of_atWords h.toAtWords with
    ⟨hl, -⟩ | ⟨_, -, -, rfl⟩ | ⟨_, closed, levels, -, -, hclose, hfound, rfl⟩
  · rw [hl] at hhead
    cases hhead
  · exact ⟨rfl, h.parens, rfl, _, _, rfl, .inl ⟨rfl, rfl⟩⟩
  · obtain ⟨inner, happend, hlength⟩ := closeLevels_append s.column s.levels
    rw [hclose] at happend hlength
    dsimp only at happend hlength
    cases closed with
    | zero =>
      rw [List.eq_nil_of_length_eq_zero hlength, List.nil_append] at happend
      rw [← happend, hhead] at hfound
      exact absurd (Option.some.inj hfound).symm hne
    | succ closed =>
      rw [pushDedents_eq]
      refine ⟨rfl, h.parens, rfl, _, _, rfl, .inr ⟨rfl, fun hnil => ?_⟩⟩
      have hlevels : 0 < levels.length := by
        apply List.length_pos_iff.mpr
        rintro rfl
        cases hfound
      -- the levels that are closed have been opened by tokens
      have hlaid := hs.laid
      rw [hnil] at hlaid
      have hdepth := hlaid.depth_nil
      rw [happend, List.length_append, hlength] at hdepth
      omega

/-- If a line without words changes the levels, or a line before all tokens, some line is empty. -/
theorem Rounds.not_worded (h : Rounds source file n s) (hshift : s.Shifts) {tokens : List Token}
    (hscan : scan source file = .ok tokens)
    (hempty : Wordless (lineText s.rest) ∨ s.tokens = []) : ¬ Worded tokens := by
  obtain ⟨-, last, -, -, hrun, rfl⟩ := exists_rounds_of_scan hscan
  rw [h.run_eq] at hrun
  have hr := hshift.rest_ne_nil
  cases hstep : s.step with
  | error d =>
    rw [run_of_step_error hr hstep] at hrun
    cases hrun
  | ok t =>
    rw [run_of_step hr hstep] at hrun
    obtain ⟨hl, hp, hrest, x, older, htokens, hx⟩ := hshift.moves h.steady (step_moves hstep)
    intro hworded
    rcases hempty with hw | hnil
    · have hkind : x.kind ≠ .newline ∧ x.isWord = false := by
        rcases hx with ⟨hx, -⟩ | ⟨hx, -⟩ <;> rw [isWord, hx] <;> decide
      rw [← s.wordless_line, ← hrest] at hw
      obtain ⟨mark, after, hfinish, hmark⟩ :=
        run_wordless_finish hl hp hw htokens hkind.1 hrun
      obtain ⟨u, hu, hword⟩ := hworded.newline hfinish hmark
      rw [htokens, List.reverse_cons, List.getLast?_concat] at hu
      cases hu
      rw [hkind.2] at hword
      cases hword
    · rcases hx with ⟨hx, rfl⟩ | ⟨-, hne⟩
      · obtain ⟨after, hafter⟩ := run_finish hrun
        rw [htokens, hnil] at hafter
        have hfirst : last.finish = [] ++ x :: after := hafter.symm
        obtain ⟨u, hu, -⟩ := hworded.indent hfirst hx
        cases hu
      · exact absurd hnil hne

/-- What a step takes up to the start of a line ends in a line feed, or it is the end of the text. -/
theorem Moves.taken (h : s.Moves t) (hs : s.Steady) : ∃ taken, taken ++ t.rest = s.rest ∧
    (t.lineStart = true → t.rest = [] ∨ Closed taken ∧ taken ≠ []) := by
  have hnot (hat : ¬ s.AtLine) : ∃ taken, taken ++ t.rest = s.rest ∧
      (s.lineStart = true → t.rest = [] ∨ Closed taken ∧ taken ≠ []) := by
    obtain ⟨taken, htaken⟩ := h.rest_suffix
    refine ⟨taken, htaken, fun hl => ?_⟩
    rw [(hs.started hat).1] at hl
    cases hl
  cases h with
  | blankLine =>
    obtain ⟨more, hmore, hend⟩ := exists_line s.line
    have hr : s.rest = s.blanks ++ lineText s.line ++ more := by
      rw [List.append_assoc, ← hmore, blanks_append_line]
    refine ⟨s.blanks ++ lineText s.line, by rw [skip_rest hr, hr], fun _ => ?_⟩
    rw [skip_rest hr]
    refine hend.imp_right fun hmem => ?_
    have hne := List.ne_nil_of_mem hmem
    exact ⟨(closed_lineText hmem).append_left hne _, List.append_ne_nil_of_right_ne_nil _ hne⟩
  | first => exact ⟨s.blanks, s.blanks_append_line, fun hl => by cases hl⟩
  | deeper => exact ⟨s.blanks, s.blanks_append_line, fun hl => by cases hl⟩
  | back =>
    rw [pushDedents_eq]
    exact ⟨s.blanks, s.blanks_append_line, fun hl => by cases hl⟩
  | word hat => exact hnot hat
  | gap hat => exact hnot hat
  | joined hp => exact hnot fun hat => hp hat.parens
  | @newline text _ _ hx =>
    refine ⟨text, ?_, fun _ => .inr ⟨lexeme?_lineEnd hx, (lexeme?_front hx).1⟩⟩
    rw [pushNewline_eq]
    exact List.prefix_iff_eq_append.mp (lexeme?_front hx).2

/-- A line starts behind a line feed, or where the text starts or ends. -/
theorem Rounds.behind (h : Rounds source file n s) : ∃ before, before ++ s.rest = source.toList ∧
    (s.lineStart = true → s.rest = [] ∨ Closed before) := by
  induction h with
  | start => exact ⟨[], rfl, fun _ => .inr fun c hc => by cases hc⟩
  | next hround _ hstep ih =>
    obtain ⟨before, hbefore, -⟩ := ih
    obtain ⟨taken, htaken, hclosed⟩ := (step_moves hstep).taken hround.steady
    refine ⟨before ++ taken, by rw [List.append_assoc, htaken, hbefore], fun hl => ?_⟩
    exact (hclosed hl).imp_right fun ⟨hc, hne⟩ => hc.append_left hne before

theorem Rounds.lineText_mem (h : Rounds source file n s) (hat : s.AtLine) (hr : s.rest ≠ []) :
    lineText s.rest ∈ Text.lines source.toList := by
  obtain ⟨before, hsource, hclosed⟩ := h.behind
  rw [← hsource, lines_append ((hclosed hat.lineStart).resolve_left hr)]
  exact List.mem_append_right _ (lineText_mem_lines hr)

/-- Where no line is stray, a line that is not skipped has words. -/
theorem Rounds.not_wordless (h : Rounds source file n s) (hat : s.AtWords)
    (hstray : ∀ line ∈ Text.lines source.toList, Wordless line → isStray line = false) :
    ¬ Wordless (lineText s.rest) := by
  intro hw
  obtain ⟨more, hrest, hend⟩ := exists_line s.rest
  have hblank := (line_of_wordless hw hrest hend).1
  rw [hat.words, hstray _ (h.lineText_mem hat.toAtLine hat.rest_ne_nil) hw] at hblank
  cases hblank

/-- Until the first token, words are ahead of the line that fixed the outermost level. -/
theorem Rounds.tokens_due (h : Rounds source file n s)
    (hwords : ∀ m t, Rounds source file m t → t.AtWords → ¬ Wordless (lineText t.rest))
    (hlevels : s.levels ≠ []) (htokens : s.tokens = []) :
    s.lineStart = false ∧ ¬ Wordless (lineText s.rest) := by
  induction h with
  | start => exact absurd rfl hlevels
  | @next m s t hround _ hstep ih =>
    have hstart (hlevels : s.levels ≠ []) (htokens : s.tokens = []) (hat : s.AtLine) : False := by
      have hl := (ih hlevels htokens).1
      rw [hat.lineStart] at hl
      cases hl
    cases step_moves hstep with
    | blankLine hat => exact (hstart hlevels htokens hat).elim
    | first hat =>
      exact ⟨rfl, fun hline => hwords m s hround hat (s.wordless_line.mp hline)⟩
    | deeper => cases htokens
    | back hat hl =>
      rw [pushDedents_eq] at htokens
      have hs : s.levels ≠ [] := by
        rw [hl]
        exact List.cons_ne_nil _ _
      exact (hstart hs (List.append_eq_nil_iff.mp htokens).2 hat.toAtLine).elim
    | word => cases htokens
    | @newline text _ _ hx =>
      have hs : s.levels ≠ [] := by
        rw [pushNewline_eq] at hlevels
        exact hlevels
      have hnil : s.tokens = [] :=
        List.suffix_nil.mp (htokens ▸ s.pushNewline_suffix text)
      exact absurd (wordless_of_lineEnd hx) (ih hs hnil).2
    | joined _ hx => exact absurd (wordless_of_lineEnd hx) (ih hlevels htokens).2
    | gap _ hx =>
      obtain ⟨hl, hline⟩ := ih hlevels htokens
      exact ⟨hl, fun hw => hline ((wordless_drop_gap hx).mp hw)⟩

end Scanner

open Scanner

/-- Lines are never empty, but for stray ones. The tokens of a text are worded exactly if every line
that is put at another level has words and is not the first with a token; so they are where no line
without words is stray. A line without words adds no token and leaves the levels alone exactly inside
parentheses, if it is not stray, or at the innermost level. -/
theorem scan_worded_iff (source file : String) :
    (∀ tokens, scan source file = .ok tokens →
      (Worded tokens ↔ ∀ n s, Rounds source file n s → s.Shifts →
        ¬ Wordless (lineText s.rest) ∧ s.tokens ≠ [])) ∧
    ((∀ line ∈ Text.lines source.toList, Wordless line → isStray line = false) →
      ∀ tokens, scan source file = .ok tokens → Worded tokens) ∧
    (Closed source.toList → ∀ line : String, Wordless line.toList →
      ∀ s, (Scanner.start source file).run = .ok s →
        ((∃ t, (Scanner.start (source ++ line) file).run = .ok t ∧ t.tokens = s.tokens ∧
            t.levels = s.levels) ↔
          s.parens ≠ 0 ∨ isStray line.toList = false ∨
            s.levels.head? = some (columnOf (line.toList.takeWhile isIndent)))) := by
  have hworded (tokens : List Token) (hscan : scan source file = .ok tokens)
      (hshift : ∀ n s, Rounds source file n s → s.Shifts →
        ¬ Wordless (lineText s.rest) ∧ s.tokens ≠ []) : Worded tokens := by
    obtain ⟨n, s, hround, hr, -, rfl⟩ := exists_rounds_of_scan hscan
    exact (hround.wording hshift).finish hround.steady hr
  refine ⟨fun tokens hscan => ⟨fun h n s hround hshift => ?_, hworded tokens hscan⟩,
    fun hstray tokens hscan => hworded tokens hscan fun n s hround hshift => ?_,
    fun hclosed line hline s hrun => ?_⟩
  · exact ⟨fun hw => hround.not_worded hshift hscan (.inl hw) h,
      fun hnil => hround.not_worded hshift hscan (.inr hnil) h⟩
  · have hwords (m : Nat) (t : Scanner) (hround : Rounds source file m t) (hat : t.AtWords) :=
      hround.not_wordless hat hstray
    refine ⟨hwords n s hround hshift.toAtWords, fun hnil => ?_⟩
    have hlevels : s.levels ≠ [] := by
      intro hlevels
      obtain ⟨top, hhead, -⟩ := hshift.shifted
      rw [hlevels] at hhead
      cases hhead
    have hl := (hround.tokens_due hwords hlevels hnil).1
    rw [hshift.lineStart] at hl
    cases hl
  · have hrest : (s.extend line.toList).rest = line.toList := by
      change s.rest ++ line.toList = line.toList
      rw [rest_eq_nil_of_run hrun, List.nil_append]
    have hsteady := run_steady (steady_start source file) hrun
    have hbetween := run_between (steady_start source file) hclosed
      (fun _ => between_start source file) hrun
    have hiff := run_wordless_iff (s := s.extend line.toList)
      ⟨hsteady.nested, hsteady.laid, hsteady.fresh, hsteady.ended⟩ (hbetween.extend _)
      (hrest.symm ▸ hline)
    rw [run_append hclosed, hrun]
    rw [column, blanks, hrest] at hiff
    exact hiff

/-- A block with a line of blanks and a line end in it is worded; a line of two carriage returns
behind the block changes its levels. -/
theorem scan_worded_iff_block :
    (∀ line ∈ Text.lines "if a:\n  b\n \r\n  c\n".toList, Wordless line → isStray line = false) ∧
    (∃ tokens, scan "if a:\n  b\n \r\n  c\n" "f" = .ok tokens ∧ tokens.length = 11 ∧
      Worded tokens ∧ ∀ n s, Rounds "if a:\n  b\n \r\n  c\n" "f" n s → s.Shifts →
        ¬ Wordless (lineText s.rest) ∧ s.tokens ≠ []) ∧
    Closed "if a:\n  b\n".toList ∧ Wordless "\r\r\n".toList ∧
    ∃ s, (Scanner.start "if a:\n  b\n" "f").run = .ok s ∧
      ¬ ∃ t, (Scanner.start ("if a:\n  b\n" ++ "\r\r\n") "f").run = .ok t ∧ t.tokens = s.tokens ∧
        t.levels = s.levels := by
  have hstray : ∀ line ∈ Text.lines "if a:\n  b\n \r\n  c\n".toList, isStray line = false := by
    decide +kernel
  have hstray : ∀ line ∈ Text.lines "if a:\n  b\n \r\n  c\n".toList,
      Wordless line → isStray line = false := fun line hline _ => hstray line hline
  have htest : (scan "if a:\n  b\n \r\n  c\n" "f").toOption.any
      (fun tokens => tokens.length = 11) = true := by decide +kernel
  obtain ⟨tokens, hscan, hcount⟩ := exists_tokens_of_any htest
  have hworded := (scan_worded_iff _ "f").2.1 hstray tokens hscan
  have hclosed : Closed "if a:\n  b\n".toList := by
    rintro c ⟨⟩
    rfl
  have hline : Wordless "\r\r\n".toList := by
    change Wordless (['\r', '\r'] ++ [] ++ ['\n'])
    exact .mk (by decide) (.inl rfl) (.inr rfl)
  refine ⟨hstray, ⟨tokens, hscan, of_decide_eq_true hcount, hworded,
    ((scan_worded_iff _ "f").1 tokens hscan).mp hworded⟩, hclosed, hline, ?_⟩
  have hlevels : (Scanner.start "if a:\n  b\n" "f").run.toOption.any
      (fun s => s.parens = 0 ∧ s.levels = [2, 0]) = true := by decide +kernel
  cases hrun : (Scanner.start "if a:\n  b\n" "f").run with
  | error d =>
    rw [hrun] at hlevels
    cases hlevels
  | ok s =>
    rw [hrun] at hlevels
    obtain ⟨hparens, hlevels⟩ := of_decide_eq_true hlevels
    refine ⟨s, rfl, fun h => ?_⟩
    rcases ((scan_worded_iff _ "f").2.2 hclosed _ hline s hrun).mp h with hp | hs | hhead
    · exact hp hparens
    · exact absurd hs (by decide +kernel)
    · rw [hlevels] at hhead
      exact absurd hhead (by decide +kernel)

/-- A line of two carriage returns in a block closes the block, is a line of its own, and makes the
next line open the block again. -/
theorem scan_stray_line_not_worded :
    ∃ tokens, scan "if a:\n  b\n\r\r\n  c\n" "f" = .ok tokens ∧ ¬ Worded tokens := by
  have htest : (scan "if a:\n  b\n\r\r\n  c\n" "f").toOption.any (fun tokens =>
      tokens.map (·.kind) =
        [.kwIf, .identifier, .colon, .newline, .indent, .identifier, .newline] ++
          .dedent :: .newline :: [.indent, .identifier, .newline, .dedent, .eof]) = true := by
    decide +kernel
  obtain ⟨tokens, hscan, hkinds⟩ := exists_tokens_of_any htest
  refine ⟨tokens, hscan, fun hworded => ?_⟩
  obtain ⟨before, rest, rfl, -, hrest⟩ := List.map_eq_append_iff.mp (of_decide_eq_true hkinds)
  obtain ⟨a, rest, rfl, ha, hrest⟩ := List.map_eq_cons_iff.mp hrest
  obtain ⟨b, after, rfl, hb, -⟩ := List.map_eq_cons_iff.mp hrest
  have hsplit : before ++ a :: b :: after = before ++ [a] ++ b :: after := by simp
  obtain ⟨u, hu, hword⟩ := hworded.newline hsplit hb
  rw [List.getLast?_concat] at hu
  cases hu
  rw [isWord, ha] at hword
  cases hword

end StackScript.Token
