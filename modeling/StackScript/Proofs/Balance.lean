import StackScript.Proofs.Lossless

namespace StackScript.Token

def countOf (kind : Kind) (tokens : List Token) : Nat := tokens.countP (·.kind = kind)

/-- Tokens, newest first, that leave so many levels open. A line is ended once, and only behind a
token; levels change only where a line is ended. -/
inductive Laid : Nat → List Token → Prop where
  | nil : Laid 0 []
  | word {depth : Nat} {t : Token} {tokens : List Token} : t.isWord = true → Laid depth tokens →
    Laid depth (t :: tokens)
  | newline {depth : Nat} {t u : Token} {tokens : List Token} : t.kind = .newline →
    u.kind ≠ .newline → Laid depth (u :: tokens) → Laid depth (t :: u :: tokens)
  | indent {depth : Nat} {t : Token} {tokens : List Token} : t.kind = .indent →
    (∀ u ∈ tokens.head?, u.isWord = false) → Laid depth tokens → Laid (depth + 1) (t :: tokens)
  | dedent {depth : Nat} {t : Token} {tokens : List Token} : t.kind = .dedent →
    (∀ u ∈ tokens.head?, u.isWord = false) → Laid (depth + 1) tokens → Laid depth (t :: tokens)

theorem isWord_eq_false {t : Token} (h : t.kind.isLayout = true) : t.isWord = false := by
  rw [isWord, h]
  rfl

theorem countOf_same {kind : Kind} {t : Token} {tokens : List Token} (h : t.kind = kind) :
    countOf kind (t :: tokens) = countOf kind tokens + 1 :=
  List.countP_cons_of_pos (decide_eq_true h)

theorem countOf_other {kind : Kind} {t : Token} {tokens : List Token} (h : t.kind ≠ kind) :
    countOf kind (t :: tokens) = countOf kind tokens :=
  List.countP_cons_of_neg (fun hk => h (of_decide_eq_true hk))

theorem countOf_reverse (kind : Kind) (tokens : List Token) :
    countOf kind tokens.reverse = countOf kind tokens :=
  List.countP_reverse

namespace Laid

variable {depth : Nat} {t u : Token} {tokens : List Token}

theorem tail (h : Laid depth (t :: tokens)) : ∃ outer, Laid outer tokens := by
  cases h with
  | word _ h | newline _ _ h | indent _ _ h | dedent _ _ h => exact ⟨_, h⟩

theorem suffix {part : List Token} (h : Laid depth tokens) (hp : part <:+ tokens) :
    ∃ outer, Laid outer part := by
  obtain ⟨newer, rfl⟩ := hp
  induction newer generalizing depth with
  | nil => exact ⟨depth, h⟩
  | cons t newer ih =>
    obtain ⟨outer, houter⟩ := h.tail
    exact ih houter

/-- What is open has been opened and not closed. -/
theorem count_eq (h : Laid depth tokens) :
    countOf .indent tokens = countOf .dedent tokens + depth := by
  induction h with
  | nil => rfl
  | @word _ t _ hword _ ih =>
    have hne (kind : Kind) (hk : kind.isLayout = true) : t.kind ≠ kind := by
      rintro rfl
      rw [isWord_eq_false hk] at hword
      cases hword
    rw [countOf_other (hne .indent rfl), countOf_other (hne .dedent rfl), ih]
  | @newline _ t _ _ ht _ _ ih =>
    have hindent : t.kind ≠ .indent := by rw [ht]; decide
    have hdedent : t.kind ≠ .dedent := by rw [ht]; decide
    rw [countOf_other hindent, countOf_other hdedent, ih]
  | indent ht _ _ ih =>
    rw [countOf_same ht, countOf_other (by rw [ht]; decide), ih, Nat.add_assoc]
  | dedent ht _ _ ih =>
    rw [countOf_other (by rw [ht]; decide), countOf_same ht, ih, Nat.add_assoc, Nat.add_comm 1]

theorem kind_ne_eof (h : Laid depth tokens) : ∀ t ∈ tokens, t.kind ≠ .eof := by
  have hcons {t : Token} {tokens : List Token} (ht : t.kind ≠ .eof)
      (ih : ∀ t ∈ tokens, t.kind ≠ .eof) : ∀ u ∈ t :: tokens, u.kind ≠ .eof := by
    intro u hu
    rcases List.mem_cons.mp hu with rfl | hu
    · exact ht
    · exact ih u hu
  induction h with
  | nil => exact fun t ht => absurd ht List.not_mem_nil
  | word hword _ ih =>
    refine hcons (fun he => ?_) ih
    rw [isWord, he] at hword
    cases hword
  | newline ht _ _ ih | indent ht _ _ ih | dedent ht _ _ ih =>
    exact hcons (by rw [ht]; decide) ih

theorem oldest_ne_newline (h : Laid depth [t]) : t.kind ≠ .newline := by
  intro ht
  cases h with
  | word hword =>
    rw [isWord, ht] at hword
    cases hword
  | indent he | dedent he =>
    rw [he] at ht
    cases ht

/-- A line is not ended twice. -/
theorem newline_after (h : Laid depth (u :: t :: tokens)) (ht : t.kind = .newline) :
    u.kind ≠ .newline := by
  intro hu
  cases h with
  | word hword =>
    rw [isWord, hu] at hword
    cases hword
  | newline _ hne => exact hne ht
  | indent he | dedent he =>
    rw [he] at hu
    cases hu

/-- Behind a word comes a word or the end of its line: levels change only where a line is ended. -/
theorem after_word (h : Laid depth (u :: t :: tokens)) (ht : t.isWord = true) :
    u.isWord = true ∨ u.kind = .newline := by
  cases h with
  | word hword => exact .inl hword
  | newline hu => exact .inr hu
  | indent _ hfalse | dedent _ hfalse =>
    rw [hfalse t rfl] at ht
    cases ht

theorem dedents (n : Nat) (value : String) (span : Span)
    (hhead : ∀ u ∈ tokens.head?, u.isWord = false) (h : Laid (depth + n) tokens) :
    Laid depth (List.replicate n ⟨.dedent, value, span⟩ ++ tokens) ∧
      ∀ u ∈ (List.replicate n (Token.mk .dedent value span) ++ tokens).head?, u.isWord = false := by
  induction n generalizing depth with
  | zero => exact ⟨h, hhead⟩
  | succ n ih =>
    have hopen : Laid (depth + 1 + n) tokens := by rwa [Nat.add_assoc, Nat.add_comm 1 n]
    obtain ⟨hlaid, hfirst⟩ := ih hopen
    refine ⟨.dedent rfl hfirst hlaid, fun u hu => ?_⟩
    cases hu
    rfl

end Laid

/-- Closing levels finds the column exactly if it is one of the open ones. -/
theorem closeLevels_head? (column : Nat) {levels : List Nat} (h : levels.Pairwise (· > ·)) :
    (closeLevels column levels).2.head? = some column ↔ column ∈ levels := by
  fun_induction closeLevels column levels with
  | case1 top below outer hlt closed open_ hclose ih =>
    rw [hclose] at ih
    refine (ih h.tail).trans ?_
    simp [Nat.ne_of_lt hlt]
  | case2 top below outer hle =>
    constructor
    · intro he
      cases he
      exact List.mem_cons_self
    · intro hmem
      rcases List.mem_cons.mp hmem with rfl | hmem
      · rfl
      · exact absurd (List.rel_of_pairwise_cons h hmem) hle
  | case3 levels hshort =>
    cases levels with
    | nil => simp
    | cons top outer =>
      cases outer with
      | nil => simp [eq_comm]
      | cons below outer => exact absurd rfl (hshort top below outer)

/-- What is closed and what stays open were open. -/
theorem closeLevels_append (column : Nat) (levels : List Nat) :
    ∃ inner, levels = inner ++ (closeLevels column levels).2 ∧
      inner.length = (closeLevels column levels).1 := by
  fun_induction closeLevels column levels with
  | case1 top below outer hlt closed open_ hclose ih =>
    rw [hclose] at ih
    obtain ⟨inner, he, hlen⟩ := ih
    exact ⟨top :: inner, by rw [he]; rfl, by rw [List.length_cons, hlen]⟩
  | case2 | case3 => exact ⟨[], rfl, rfl⟩

namespace Scanner

/-- The levels are nested, and all but the outermost one stand for an open indent. Before the first
line with words there is neither level nor token, and a line starts behind an ended one. -/
structure Steady (s : Scanner) : Prop where
  nested : s.levels.Pairwise (· > ·)
  laid : Laid (s.levels.length - 1) s.tokens
  fresh : s.levels = [] → s.lineStart = true ∧ s.tokens = []
  ended : s.lineStart = true → s.parens = 0 ∧ ∀ t ∈ s.tokens.head?, t.kind = .newline

variable {source file : String} {n : Nat} {s t : Scanner}

theorem not_word_of_newline {tokens : List Token} (h : ∀ t ∈ tokens.head?, t.kind = .newline) :
    ∀ t ∈ tokens.head?, t.isWord = false := by
  intro t ht
  apply isWord_eq_false
  rw [h t ht]
  rfl

/-- Ending a line keeps the shape of the tokens, and the line is ended then. -/
theorem Steady.pushNewline (h : s.Steady) (text : List Char) :
    Laid (s.levels.length - 1) (s.pushNewline text).tokens ∧
      ∀ t ∈ (s.pushNewline text).tokens.head?, t.kind = .newline := by
  rcases pushNewline_cases s text with ⟨he, hhead⟩ | ⟨he, u, hu, hne⟩
  · rw [he]
    exact ⟨h.laid, hhead⟩
  · rw [he]
    obtain ⟨tokens, htokens⟩ := List.head?_eq_some_iff.mp hu
    have hlaid := h.laid
    rw [htokens] at hlaid
    refine ⟨?_, fun t ht => ?_⟩
    · change Laid _ (_ :: s.tokens)
      rw [htokens]
      exact .newline rfl hne hlaid
    · cases ht
      rfl

theorem Steady.started (h : s.Steady) (hs : ¬ s.AtLine) : s.lineStart = false ∧ s.levels ≠ [] := by
  have hline : s.lineStart = false :=
    Bool.eq_false_iff.mpr fun hl => hs ⟨hl, (h.ended hl).1⟩
  refine ⟨hline, fun hnil => ?_⟩
  rw [(h.fresh hnil).1] at hline
  cases hline

/-- A step keeps the levels nested and the tokens laid out. -/
theorem Moves.steady (h : s.Moves t) (hs : s.Steady) : t.Steady := by
  cases h with
  | blankLine | joined | gap => exact ⟨hs.nested, hs.laid, hs.fresh, hs.ended⟩
  | first _ hl =>
    have hlaid := hs.laid
    rw [hl] at hlaid
    exact ⟨List.pairwise_singleton _ _, hlaid, fun h => absurd h (List.cons_ne_nil _ _),
      fun h => by cases h⟩
  | @deeper top outer hat hl htop =>
    have hhead := not_word_of_newline (hs.ended hat.lineStart).2
    refine ⟨?_, ?_, fun h => absurd h (List.cons_ne_nil _ _), fun h => by cases h⟩
    · refine .cons (fun level hmem => ?_) hs.nested
      have hnested := hs.nested
      change level ∈ s.levels at hmem
      rw [hl] at hnested hmem
      rcases List.mem_cons.mp hmem with rfl | hmem
      · exact htop
      · exact Nat.lt_trans (List.rel_of_pairwise_cons hnested hmem) htop
    · have hlaid := hs.laid
      rw [hl] at hlaid
      change Laid (s.levels.length + 1 - 1) _
      rw [hl]
      exact .indent rfl hhead hlaid
  | @back top closed outer levels hat hl htop hclose hfound =>
    have hhead := not_word_of_newline (hs.ended hat.lineStart).2
    obtain ⟨inner, happend, hlength⟩ := closeLevels_append s.column s.levels
    rw [hclose] at happend hlength
    have hne : levels ≠ [] := by
      rintro rfl
      cases hfound
    have hlaid : Laid (levels.length - 1 + closed) s.tokens := by
      have hcount : s.levels.length - 1 = levels.length - 1 + closed := by
        have hpos := List.length_pos_iff.mpr hne
        rw [happend, List.length_append, hlength]
        change closed + levels.length - 1 = _
        omega
      rw [← hcount]
      exact hs.laid
    rw [pushDedents_eq]
    refine ⟨?_, (hlaid.dedents closed _ _ hhead).1, fun h => absurd h hne, fun h => by cases h⟩
    have hnested := hs.nested
    rw [happend] at hnested
    exact (List.pairwise_append.mp hnested).2.1
  | word hat hx =>
    obtain ⟨hline, hlevels⟩ := hs.started hat
    refine ⟨hs.nested, .word ?_ hs.laid, fun h => absurd h hlevels, fun h => ?_⟩
    · rw [isWord, lexeme?_isLayout hx]
      rfl
    · exact absurd h (Bool.eq_false_iff.mp hline)
  | @newline text hline hparens hx =>
    have hlevels : s.levels ≠ [] := fun hnil => by
      rw [(hs.fresh hnil).1] at hline
      cases hline
    obtain ⟨hlaid, hhead⟩ := hs.pushNewline text
    rw [pushNewline_eq]
    exact ⟨hs.nested, hlaid, fun h => absurd h hlevels, fun _ => ⟨hparens, hhead⟩⟩

/-- The scanner is steady in every round, from the start of the text on. -/
theorem Rounds.steady (h : Rounds source file n s) : s.Steady :=
  h.induct (P := Steady)
    ⟨.nil, .nil, fun _ => ⟨rfl, rfl⟩, fun _ => ⟨rfl, fun _ ht => by cases ht⟩⟩
    fun _ _ hmoves hs => hmoves.steady hs

/-- At a line start, only a line that strays has no place. -/
theorem Steady.startLine_error_iff (hs : s.Steady) (hat : s.AtLine) {d : Diagnostic} :
    s.startLine = .error d ↔ s.Strays ∧ d = ⟨.inconsistentIndentation, s.entered.here⟩ := by
  have hfound := closeLevels_head? s.column hs.nested
  rw [startLine_eq_ite]
  constructor
  · intro h
    split at h
    · cases h
    · rename_i hwords
      have hwords : s.AtWords := ⟨hat, Bool.eq_false_iff.mpr hwords⟩
      unfold indentTo at h
      split at h
      · cases h
      · rename_i top outer hl
        change s.levels = top :: outer at hl
        rw [← hl] at h
        split at h
        · cases h
        · rename_i htop
          dsimp only at h
          split at h
          · cases h
          · rename_i hhead
            have hstray : s.column ∉ s.levels := fun hmem => hhead (hfound.mpr hmem)
            have hne : s.column ≠ top := by
              rintro he
              exact hstray (by rw [hl, he]; exact List.mem_cons_self)
            have hlt : s.column < top := by omega
            cases h
            exact ⟨⟨hwords, ⟨top, by rw [hl]; rfl, hlt⟩, hstray⟩, rfl⟩
  · rintro ⟨⟨⟨-, hwords⟩, ⟨top, hhead, hlt⟩, hstray⟩, rfl⟩
    obtain ⟨outer, hl⟩ := List.head?_eq_some_iff.mp hhead
    rw [if_neg (Bool.eq_false_iff.mp hwords), indentTo]
    split
    · rename_i hnil
      cases hl.symm.trans hnil
    · rename_i top' outer' hl'
      cases hl.symm.trans hl'
      rw [if_neg (Nat.not_lt.mpr (Nat.le_of_lt hlt))]
      dsimp only
      rw [← hl, if_neg (fun he => hstray (hfound.mp he))]

theorem takeLexeme_error {d : Diagnostic} (h : s.takeLexeme = .error d) :
    lexeme? s.rest = none ∧ d = ⟨.unrecognisedToken (String.ofList (s.rest.take 1)), s.here⟩ := by
  unfold takeLexeme at h
  split at h
  · cases h
  · cases h
  · cases h
  · rename_i hx
    cases h
    exact ⟨hx, rfl⟩

/-- A step fails at a line that strays, or at a character that no lexeme starts with. -/
theorem Steady.step_error (hs : s.Steady) {d : Diagnostic} (h : s.step = .error d) :
    s.Strays ∧ d = ⟨.inconsistentIndentation, s.entered.here⟩ ∨
      lexeme? s.rest = none ∧
        d = ⟨.unrecognisedToken (String.ofList (s.rest.take 1)), s.here⟩ := by
  unfold step at h
  split at h
  · rename_i hat
    exact .inl ((hs.startLine_error_iff ⟨hat.1, hat.2⟩).mp h)
  · exact .inr (takeLexeme_error h)

theorem Steady.step_strays (hs : s.Steady) (h : s.Strays) :
    s.step = .error ⟨.inconsistentIndentation, s.entered.here⟩ := by
  rw [step, if_pos ⟨h.lineStart, h.parens⟩]
  exact (hs.startLine_error_iff h.toAtLine).mpr ⟨h, rfl⟩

theorem Strays.rest_ne_nil (h : s.Strays) : s.rest ≠ [] := by
  intro hr
  have hwords := h.words
  rw [line, hr, List.drop_nil] at hwords
  cases hwords

/-- The end of the text ends the last line and closes what is open. -/
theorem Steady.finish (hs : s.Steady) : ∃ tokens mark, s.finish = tokens.reverse ++ [mark] ∧
    mark.kind = .eof ∧ Laid 0 tokens ∧ ∀ t ∈ tokens.head?, t.isWord = false := by
  obtain ⟨hlaid, hhead⟩ := hs.pushNewline []
  rw [← Nat.zero_add (s.levels.length - 1)] at hlaid
  have hclosed := hlaid.dedents _ "<dedent>" (s.spanOf []) (not_word_of_newline hhead)
  exact ⟨_, _, finish_eq s, rfl, hclosed.1, hclosed.2⟩

end Scanner

structure Balanced (tokens : List Token) : Prop where
  nested : ∀ part, part <+: tokens → countOf .dedent part ≤ countOf .indent part
  closed : countOf .dedent tokens = countOf .indent tokens
  ends : ∃ body mark, tokens = body ++ [mark] ∧ mark.kind = .eof ∧ ∀ t ∈ body, t.kind ≠ .eof
  first : ∀ t ∈ tokens.head?, t.kind ≠ .newline
  single : ∀ before t u after, tokens = before ++ t :: u :: after → t.kind = .newline →
    u.kind ≠ .newline
  ended : ∀ before word after, tokens = before ++ word :: after → word.isWord = true →
    (∀ t ∈ after, t.isWord = false) → ∃ t ∈ after.head?, t.kind = .newline

/-- Laid tokens that leave nothing open, in order, are balanced once the end is marked. -/
theorem Laid.balanced {tokens : List Token} {mark : Token} (h : Laid 0 tokens)
    (hlast : ∀ t ∈ tokens.head?, t.isWord = false) (hmark : mark.kind = .eof) :
    Balanced (tokens.reverse ++ [mark]) := by
  have hmarked (kind : Kind) (hk : kind ≠ .eof) :
      countOf kind (tokens.reverse ++ [mark]) = countOf kind tokens := by
    have hne : mark.kind ≠ kind := by rw [hmark]; exact hk.symm
    rw [← List.reverse_cons, countOf_reverse, countOf_other hne]
  have hclosed : countOf .dedent (tokens.reverse ++ [mark]) =
      countOf .indent (tokens.reverse ++ [mark]) := by
    rw [hmarked _ (by decide), hmarked _ (by decide), h.count_eq, Nat.add_zero]
  -- Two neighbours are two laid tokens, or the newest one and the mark.
  have hpair {before after : List Token} {t u : Token}
      (he : tokens.reverse ++ [mark] = before ++ t :: u :: after) :
      (∃ depth, Laid depth (u :: t :: before.reverse)) ∨ u = mark ∧ t ∈ tokens.head? := by
    have hrev : mark :: tokens = after.reverse ++ u :: t :: before.reverse := by
      simpa using congrArg List.reverse he
    cases hafter : after.reverse with
    | nil =>
      rw [hafter] at hrev
      obtain ⟨rfl, htokens⟩ := List.cons.inj hrev
      exact .inr ⟨rfl, by rw [htokens]; rfl⟩
    | cons last newer =>
      rw [hafter] at hrev
      exact .inl (h.suffix ⟨newer, (List.cons.inj hrev).2.symm⟩)
  refine ⟨fun part hpart => ?_, hclosed, ⟨_, mark, rfl, hmark, ?_⟩, ?_, ?_, ?_⟩
  · rcases List.prefix_concat_iff.mp hpart with rfl | hpart
    · exact Nat.le_of_eq hclosed
    · rw [← part.reverse_reverse, List.reverse_prefix] at hpart
      obtain ⟨depth, hdepth⟩ := h.suffix hpart
      have hcount := hdepth.count_eq
      rw [countOf_reverse, countOf_reverse] at hcount
      omega
  · intro t ht
    exact h.kind_ne_eof t (List.mem_reverse.mp ht)
  · intro t ht
    cases hrev : tokens.reverse with
    | nil =>
      rw [hrev] at ht
      cases ht
      rw [hmark]
      decide
    | cons oldest rest =>
      rw [hrev] at ht
      cases ht
      have hsuffix : [t] <:+ tokens :=
        ⟨rest.reverse, by rw [← List.reverse_cons, ← hrev, List.reverse_reverse]⟩
      obtain ⟨depth, hdepth⟩ := h.suffix hsuffix
      exact hdepth.oldest_ne_newline
  · intro before t u after he ht
    rcases hpair he with ⟨depth, hdepth⟩ | ⟨rfl, -⟩
    · exact hdepth.newline_after ht
    · rw [hmark]
      decide
  · intro before word after he hword hafter
    cases after with
    | nil =>
      obtain rfl := (List.append_inj' he rfl).2 |> List.cons.inj |>.1
      rw [isWord, hmark] at hword
      cases hword
    | cons u after =>
      rcases hpair he with ⟨depth, hdepth⟩ | ⟨rfl, hhead⟩
      · rcases hdepth.after_word hword with hu | hu
        · rw [hafter u List.mem_cons_self] at hu
          cases hu
        · exact ⟨u, rfl, hu⟩
      · rw [hlast word hhead] at hword
        cases hword

open Scanner

theorem Balanced.of_scan {source file : String} {tokens : List Token}
    (h : scan source file = .ok tokens) : Balanced tokens := by
  obtain ⟨n, s, hs, -, -, rfl⟩ := exists_rounds_of_scan h
  obtain ⟨body, mark, he, hmark, hlaid, hlast⟩ := hs.steady.finish
  rw [he]
  exact hlaid.balanced hlast hmark

/-- In every round each level is deeper than those around it, and one more of them is open than
there are open indents once a line with words has been seen. The tokens of a text are balanced.
Unless a character is not recognised, scanning fails exactly if a line that is not skipped, outside
parentheses, is outside of the innermost level and at no level. -/
theorem scan_balanced (source file : String) :
    (∀ n s, Rounds source file n s → s.levels.reverse.Pairwise (· < ·) ∧
      (s.levels = [] → s.tokens = []) ∧
      (s.levels ≠ [] →
        s.levels.length + countOf .dedent s.tokens = countOf .indent s.tokens + 1)) ∧
    (∀ tokens, scan source file = .ok tokens → Balanced tokens) ∧
    ((∃ p, scan source file = .error ⟨.inconsistentIndentation, p⟩) ↔
      ∃ n s, Rounds source file n s ∧ s.Strays) ∧
    ((∀ token p, scan source file ≠ .error ⟨.unrecognisedToken token, p⟩) →
      ((∃ d, scan source file = .error d) ↔ ∃ n s, Rounds source file n s ∧ s.Strays)) := by
  have hstrays {n : Nat} {s : Scanner} (hs : Rounds source file n s) (h : s.Strays) :
      scan source file = .error ⟨.inconsistentIndentation, s.entered.here⟩ :=
    hs.scan_error h.rest_ne_nil (hs.steady.step_strays h)
  refine ⟨fun n s hs => ⟨?_, fun hl => (hs.steady.fresh hl).2, fun hl => ?_⟩,
    fun tokens h => .of_scan h, ?_, ?_⟩
  · exact List.pairwise_reverse.mpr hs.steady.nested
  · have hcount := hs.steady.laid.count_eq
    have hpos := List.length_pos_iff.mpr hl
    omega
  · constructor
    · rintro ⟨p, h⟩
      obtain ⟨n, s, hs, -, hstep⟩ := exists_rounds_of_scan_error h
      rcases hs.steady.step_error hstep with ⟨hstray, -⟩ | ⟨-, he⟩
      · exact ⟨n, s, hs, hstray⟩
      · cases he
    · rintro ⟨n, s, hs, h⟩
      exact ⟨_, hstrays hs h⟩
  · intro hknown
    constructor
    · rintro ⟨d, h⟩
      obtain ⟨n, s, hs, -, hstep⟩ := exists_rounds_of_scan_error h
      rcases hs.steady.step_error hstep with ⟨hstray, -⟩ | ⟨-, rfl⟩
      · exact ⟨n, s, hs, hstray⟩
      · exact absurd h (hknown _ _)
    · rintro ⟨n, s, hs, h⟩
      exact ⟨_, hstrays hs h⟩

/-- Two levels closed at once by the end of the text, and a line between two open levels. -/
theorem scan_balanced_two_levels :
    (∃ tokens, scan "if a:\n  if b:\n\tpass" "f" = .ok tokens ∧
      countOf .indent tokens = 2 ∧ Balanced tokens) ∧
    scan "if a:\n    pass\n  pass" "f" = .error ⟨.inconsistentIndentation, ⟨17, "f"⟩⟩ ∧
    ∃ n s, Rounds "if a:\n    pass\n  pass" "f" n s ∧ s.Strays := by
  have herror : scan "if a:\n    pass\n  pass" "f" =
      .error ⟨.inconsistentIndentation, ⟨17, "f"⟩⟩ := by
    decide +kernel
  refine ⟨?_, herror, ?_⟩
  · generalize htext : "if a:\n  if b:\n\tpass" = text
    have htest : (scan text "f").toOption.any (fun tokens => countOf .indent tokens = 2) = true := by
      subst htext
      decide +kernel
    cases hscan : scan text "f" with
    | error d =>
      rw [hscan] at htest
      cases htest
    | ok tokens =>
      rw [hscan] at htest
      exact ⟨tokens, rfl, of_decide_eq_true htest, (scan_balanced text "f").2.1 tokens hscan⟩
  · refine ((scan_balanced _ _).2.2.2 fun token p h => ?_).mp ⟨_, herror⟩
    cases herror.symm.trans h

end StackScript.Token
