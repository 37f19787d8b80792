import StackScript.Token.Scan

namespace StackScript.Token

theorem isWordChar_of_start {c : Char} (h : isWordStart c = true) : isWordChar c = true := by
  simp only [isWordStart, isWordChar, Char.isAlphanum, Bool.or_eq_true] at h ⊢
  rcases h with h | h
  · exact .inl (.inl h)
  · exact .inr h

inductive Fronts : List Char → Lexeme → List Char → Prop where
  | name {c : Char} {cs : List Char} : isWordStart c = true →
    Fronts (c :: cs) (.word (wordKind (c :: cs.takeWhile isWordChar))) (c :: cs.takeWhile isWordChar)
  | number {c : Char} {cs : List Char} : c.isDigit = true →
    Fronts (c :: cs) (.word .number) (c :: cs.takeWhile Char.isDigit)
  | lineEnd {cs text : List Char} : lineEnd? cs = some text → Fronts cs .lineEnd text
  | gap {c : Char} {cs : List Char} : isGap c = true →
    Fronts (c :: cs) .gap (c :: cs.takeWhile isGap)
  | comment {cs : List Char} : Fronts ('#' :: cs) .gap ('#' :: cs.takeWhile (· != '\n'))
  | literal {quote : Char} {cs text : List Char} : quote = '"' ∨ quote = '\'' →
    literal? quote cs = some text → Fronts (quote :: cs) (.word .string) text
  | operator {cs text : List Char} {kind : Kind} : operator? cs = some (kind, text) →
    Fronts cs (.word kind) text

/-- Every lexeme is at the front of the text in one of these ways. -/
theorem lexeme?_fronts {cs text : List Char} {lexeme : Lexeme}
    (h : lexeme? cs = some (lexeme, text)) : Fronts cs lexeme text := by
  cases cs with
  | nil => cases h
  | cons c cs =>
    simp only [lexeme?] at h
    split at h
    · rename_i hc
      cases h
      exact .name hc
    · split at h
      · rename_i hc
        cases h
        exact .number hc
      · split at h
        · rename_i hend
          cases h
          exact .lineEnd hend
        · split at h
          · rename_i hc
            cases h
            exact .gap hc
          · split at h
            · rename_i hc
              cases h
              subst hc
              exact .comment
            · split at h
              · rename_i hc
                obtain ⟨text, htext, he⟩ := Option.map_eq_some_iff.mp h
                cases he
                exact .literal hc htext
              · obtain ⟨⟨kind, text⟩, htext, he⟩ := Option.map_eq_some_iff.mp h
                cases he
                exact .operator htext

theorem lexeme?_identifier {cs text : List Char}
    (h : lexeme? cs = some (.word .identifier, text)) : ∀ c ∈ text, isWordChar c = true := by
  generalize hlexeme : Lexeme.word .identifier = lexeme at h
  cases lexeme?_fronts h with
  | name hc =>
    intro d hd
    rcases List.mem_cons.mp hd with rfl | hd
    · exact isWordChar_of_start hc
    · exact List.all_eq_true.mp List.all_takeWhile d hd
  | operator hop =>
    cases hlexeme
    unfold operator? at hop
    split at hop <;> cases hop
  | _ => cases hlexeme

def Kind.spelling? : Kind → Option String
  | .openParen => some "("
  | .closeParen => some ")"
  | .assignment => some "="
  | .equals => some "=="
  | .notEquals => some "!="
  | .less => some "<"
  | .lessEquals => some "<="
  | .greater => some ">"
  | .greaterEquals => some ">="
  | .colon => some ":"
  | .comma => some ","
  | .arrow => some "->"
  | .plus => some "+"
  | .dash => some "-"
  | .star => some "*"
  | .slashSlash => some "//"
  | .percent => some "%"
  | .kwDef => some "def"
  | .kwIf => some "if"
  | .kwElif => some "elif"
  | .kwElse => some "else"
  | .kwWhile => some "while"
  | .kwReturn => some "return"
  | .kwPass => some "pass"
  | .kwNot => some "not"
  | .kwIs => some "is"
  | .kwAnd => some "and"
  | .kwOr => some "or"
  | .kwTrue => some "True"
  | .kwFalse => some "False"
  | .kwNone => some "None"
  | .eof | .number | .string | .identifier | .newline | .indent | .dedent => none

theorem Kind.spelling?_of_keyword? {word : String} {kind : Kind} (h : keyword? word = some kind) :
    kind.spelling? = some word := by
  unfold keyword? at h
  split at h <;> cases h <;> rfl

/-- An operator has one spelling, which its kind fixes. -/
theorem spelling?_of_operator? {cs text : List Char} {kind : Kind}
    (h : operator? cs = some (kind, text)) : kind.spelling? = some (String.ofList text) := by
  unfold operator? at h
  split at h <;> cases h <;> rfl

/-- What a text has to look like to be a word of the kind. -/
def Kind.Fits (kind : Kind) (text : List Char) : Prop :=
  (∀ word ∈ kind.spelling?, String.ofList text = word) ∧
    (kind = .number → text ≠ [] ∧ text.all Char.isDigit = true)

/-- What is a lexeme of a kind looks like a word of the kind: a number is a string of digits, and a
name is a word. -/
theorem fits_of_lexeme? {cs text : List Char} {kind : Kind}
    (h : lexeme? cs = some (.word kind, text)) : kind.Fits text := by
  have fixed {kind : Kind} {text : List Char} (hk : kind.spelling? = some (String.ofList text)) :
      kind.Fits text := by
    refine ⟨fun word hw => ?_, ?_⟩
    · rw [hk] at hw
      exact Option.some.inj hw
    · rintro rfl
      cases hk
  cases lexeme?_fronts h with
  | @name c cs hc =>
    cases hk : Kind.keyword? (String.ofList (c :: cs.takeWhile isWordChar)) with
    | none =>
      rw [wordKind, hk]
      exact ⟨by rintro word ⟨⟩, by rintro ⟨⟩⟩
    | some kind =>
      rw [wordKind, hk]
      exact fixed (Kind.spelling?_of_keyword? hk)
  | number hc =>
    refine ⟨by rintro word ⟨⟩, fun _ => ⟨List.cons_ne_nil _ _, ?_⟩⟩
    rw [List.all_cons, hc, List.all_takeWhile]
    rfl
  | literal => exact ⟨by rintro word ⟨⟩, by rintro ⟨⟩⟩
  | operator hop => exact fixed (spelling?_of_operator? hop)

def Spelled (source : String) (t : Token) : Prop :=
  t.kind.isLayout = false → ∃ text after, lexeme? (text ++ after) = some (.word t.kind, text) ∧
    t.span.text source = String.ofList text ∧ t.value = wordValue t.kind text

namespace Spelled

variable {source : String} {t : Token}

theorem of_layout (h : t.kind.isLayout = true) : t.Spelled source := by
  intro hn
  rw [h] at hn
  cases hn

theorem text_eq (h : t.Spelled source) {word : String} (hk : t.kind.spelling? = some word) :
    t.span.text source = word := by
  have hn : t.kind.isLayout = false := by
    cases hkind : t.kind <;> rw [hkind] at hk <;> first | rfl | cases hk
  obtain ⟨text, after, hx, hs, -⟩ := h hn
  rw [hs]
  exact (fits_of_lexeme? hx).1 word hk

theorem digits (h : t.Spelled source) (hk : t.kind = .number) :
    (t.span.text source).toList ≠ [] ∧ (t.span.text source).toList.all Char.isDigit = true := by
  obtain ⟨text, after, hx, hs, -⟩ := h (by rw [hk]; rfl)
  rw [hs, String.toList_ofList]
  exact (fits_of_lexeme? hx).2 hk

/-- A name is a word. -/
theorem word (h : t.Spelled source) (hk : t.kind = .identifier) :
    ∀ c ∈ (t.span.text source).toList, isWordChar c = true := by
  obtain ⟨text, after, hx, hs, -⟩ := h (by rw [hk]; rfl)
  rw [hs, String.toList_ofList]
  exact lexeme?_identifier (hk ▸ hx)

/-- Only a string carries something else than its text. -/
theorem value_eq (h : t.Spelled source) (hl : t.kind.isLayout = false) (hs : t.kind ≠ .string) :
    t.span.text source = t.value := by
  obtain ⟨text, after, -, htext, hvalue⟩ := h hl
  rw [htext, hvalue]
  unfold wordValue
  split
  · exact absurd ‹_› hs
  · rfl

end Spelled

namespace Scanner

variable {source : String} {s t : Scanner}

/-- The scanner is at a place of the source, with what is left from there on. -/
structure Sound (source : String) (s : Scanner) : Prop where
  place : ∃ done, source.toList = done ++ s.rest ∧ s.offset = Text.byteLength done

theorem sound_start (source file : String) : (Scanner.start source file).Sound source :=
  ⟨[], rfl, rfl⟩

theorem Sound.skip (h : s.Sound source) {text : List Char} (hp : text <+: s.rest) :
    (s.skip text).Sound source := by
  obtain ⟨rest, hr⟩ := hp
  obtain ⟨done, hd, ho⟩ := h.place
  refine ⟨done ++ text, ?_, ?_⟩
  · rw [hd, ← hr]
    simp [Scanner.skip, ← hr]
  · simp [Scanner.skip, ho]

/-- The text at the front of what is left, by its span. -/
theorem Sound.text_spanOf (h : s.Sound source) {text : List Char} (hp : text <+: s.rest) :
    (s.spanOf text).text source = String.ofList text := by
  obtain ⟨rest, hr⟩ := hp
  obtain ⟨done, hd, ho⟩ := h.place
  have hs : Text.slice? source.toList s.offset (s.offset + Text.byteLength text) = some text := by
    rw [hd, ho, ← hr, ← List.append_assoc]
    exact Text.slice?_append done text rest
  simp only [Span.text, Text.slice, spanOf, hs, Option.getD_some]

theorem Sound.pushDedents (h : s.Sound source) (n : Nat) : (s.pushDedents n).Sound source := by
  induction n generalizing s with
  | zero => exact h
  | succ n ih => exact ih ⟨h.place⟩

theorem Sound.pushNewline (h : s.Sound source) (text : List Char) :
    (s.pushNewline text).Sound source := by
  unfold Scanner.pushNewline
  split
  · exact h
  · split
    · exact h
    · exact ⟨h.place⟩

theorem Sound.indentTo (h : s.Sound source) {column : Nat} (ht : s.indentTo column = .ok t) :
    t.Sound source := by
  unfold Scanner.indentTo at ht
  split at ht
  · cases ht
    exact ⟨h.place⟩
  · split at ht
    · cases ht
      exact ⟨h.place⟩
    · dsimp only at ht
      split at ht
      · cases ht
        refine Sound.pushDedents ?_ _
        exact ⟨h.place⟩
      · cases ht

theorem lineText_prefix (cs : List Char) : lineText cs <+: cs := by
  induction cs with
  | nil => exact List.nil_prefix
  | cons c cs ih =>
    unfold lineText
    split
    · exact ⟨cs, rfl⟩
    · obtain ⟨rest, hr⟩ := ih
      exact ⟨rest, by rw [List.cons_append, hr]⟩

theorem Sound.startLine (h : s.Sound source) (ht : s.startLine = .ok t) : t.Sound source := by
  have hb : s.rest.takeWhile isIndent <+: s.rest := List.takeWhile_prefix _
  unfold Scanner.startLine at ht
  dsimp only at ht
  split at ht
  · cases ht
    apply h.skip
    obtain ⟨rest, hr⟩ := lineText_prefix (s.rest.drop (s.rest.takeWhile isIndent).length)
    refine ⟨rest, ?_⟩
    obtain ⟨words, hw⟩ := hb
    rw [List.append_assoc, hr]
    generalize s.rest.takeWhile isIndent = blanks at hw ⊢
    rw [← hw, List.drop_left]
  · refine Sound.indentTo ?_ ht
    exact ⟨(h.skip hb).place⟩

theorem Sound.takeLexeme (h : s.Sound source) (ht : s.takeLexeme = .ok t) : t.Sound source := by
  unfold Scanner.takeLexeme at ht
  split at ht
  · rename_i kind text hx
    obtain ⟨-, hp⟩ := lexeme?_front hx
    cases ht
    exact ⟨(h.skip hp).place⟩
  · rename_i text hx
    obtain ⟨-, hp⟩ := lexeme?_front hx
    cases ht
    unfold takeLineEnd
    split
    · have hrest : text <+: (s.pushNewline text).rest := by
        rw [pushNewline_rest]
        exact hp
      exact ⟨((h.pushNewline text).skip hrest).place⟩
    · exact h.skip hp
  · rename_i text hx
    obtain ⟨-, hp⟩ := lexeme?_front hx
    cases ht
    exact h.skip hp
  · cases ht

/-- A step keeps the scanner at a place of the source. -/
theorem Sound.step (h : s.Sound source) (ht : s.step = .ok t) : t.Sound source := by
  unfold Scanner.step at ht
  split at ht
  · exact h.startLine ht
  · exact h.takeLexeme ht

/-- A token that came without reading a word. -/
theorem pushDedents_tokens (s : Scanner) (n : Nat) :
    ∀ x ∈ (s.pushDedents n).tokens, x ∈ s.tokens ∨ x.kind.isLayout = true := by
  induction n generalizing s with
  | zero => exact fun x hx => .inl hx
  | succ n ih =>
    intro x hx
    rcases ih _ x hx with hx | hx
    · rcases List.mem_cons.mp hx with rfl | hx
      · exact .inr rfl
      · exact .inl hx
    · exact .inr hx

theorem pushNewline_tokens (s : Scanner) (text : List Char) :
    ∀ x ∈ (s.pushNewline text).tokens, x ∈ s.tokens ∨ x.kind.isLayout = true := by
  intro x hx
  unfold pushNewline at hx
  split at hx
  · exact .inl hx
  · split at hx
    · exact .inl hx
    · rcases List.mem_cons.mp hx with rfl | hx
      · exact .inr rfl
      · exact .inl hx

theorem indentTo_tokens {column : Nat} (h : s.indentTo column = .ok t) :
    ∀ x ∈ t.tokens, x ∈ s.tokens ∨ x.kind.isLayout = true := by
  intro x hx
  unfold indentTo at h
  split at h
  · cases h
    exact .inl hx
  · split at h
    · cases h
      rcases List.mem_cons.mp hx with rfl | hx
      · exact .inr rfl
      · exact .inl hx
    · dsimp only at h
      split at h
      · cases h
        have hmem := pushDedents_tokens _ _ x hx
        exact hmem
      · cases h

/-- What one step adds: layout tokens, or the word at the front. -/
theorem step_tokens (h : s.step = .ok t) : ∀ x ∈ t.tokens,
    x ∈ s.tokens ∨ x.kind.isLayout = true ∨
      ∃ text, lexeme? s.rest = some (.word x.kind, text) ∧
        x = ⟨x.kind, wordValue x.kind text, s.spanOf text⟩ := by
  intro x hx
  unfold step at h
  split at h
  · unfold startLine at h
    dsimp only at h
    split at h
    · cases h
      exact .inl hx
    · exact (indentTo_tokens h x hx).imp_right .inl
  · unfold takeLexeme at h
    split at h
    · rename_i kind text hlex
      cases h
      rcases List.mem_cons.mp hx with rfl | hx
      · exact .inr (.inr ⟨text, hlex, rfl⟩)
      · exact .inl hx
    · rename_i text hlex
      cases h
      unfold takeLineEnd at hx
      split at hx
      · exact (pushNewline_tokens s text x hx).imp_right .inl
      · exact .inl hx
    · cases h
      exact .inl hx
    · cases h

/-- Every token that a step adds is spelled in the source at its span. -/
theorem Sound.step_spelled (h : s.Sound source) (ht : s.step = .ok t)
    (hs : ∀ x ∈ s.tokens, x.Spelled source) : ∀ x ∈ t.tokens, x.Spelled source := by
  intro x hx
  rcases step_tokens ht x hx with hx | hx | ⟨text, hlex, hx⟩
  · exact hs x hx
  · exact .of_layout hx
  · intro _
    obtain ⟨-, hp⟩ := lexeme?_front hlex
    have htext := h.text_spanOf hp
    obtain ⟨after, hr⟩ := hp
    refine ⟨text, after, hr ▸ hlex, ?_, ?_⟩
    · rw [hx]
      exact htext
    · rw [hx]

theorem Sound.run_spelled (h : s.Sound source) (ht : s.run = .ok t)
    (hs : ∀ x ∈ s.tokens, x.Spelled source) : ∀ x ∈ t.tokens, x.Spelled source := by
  fun_induction Scanner.run s with
  | case1 s hr =>
    cases ht
    exact hs
  | case2 s hr d hstep => cases ht
  | case3 s hr u hstep hlt ih => exact ih (h.step hstep) ht (h.step_spelled hstep hs)

end Scanner

/-- Every word of a unit stands in its source, spelled as its kind asks. -/
theorem scan_spelled {source file : String} {tokens : List Token}
    (h : scan source file = .ok tokens) : ∀ t ∈ tokens, t.Spelled source := by
  unfold scan at h
  cases hr : (Scanner.start source file).run with
  | error d => simp [hr, Except.map] at h
  | ok s =>
    simp only [hr, Except.map, Except.ok.injEq] at h
    have hwords := (Scanner.sound_start source file).run_spelled hr (by simp [Scanner.start])
    intro t ht
    rw [← h, Scanner.finish, List.mem_reverse] at ht
    rcases List.mem_cons.mp ht with rfl | ht
    · exact .of_layout rfl
    · rcases Scanner.pushDedents_tokens _ _ t ht with ht | ht
      · rcases Scanner.pushNewline_tokens _ _ t ht with ht | ht
        · exact hwords t ht
        · exact .of_layout ht
      · exact .of_layout ht

end StackScript.Token
