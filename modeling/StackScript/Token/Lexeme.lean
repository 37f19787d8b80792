import StackScript.Token

/-!
Lexemes: the longest piece at the front of a line's text that is one word, gap or line end.

`lexeme?` looks at the first character, or the first two, and takes the longest run of its class.
What it takes is never empty and stands at the front of the text (`lexeme?_front`).
-/

namespace StackScript.Token

/-- What a piece of text is to the scanner. -/
inductive Lexeme where
  | word (kind : Kind)
  | lineEnd
  | gap
  deriving DecidableEq, Repr

def isWordStart (c : Char) : Bool := c.isAlpha || c == '_'

def isWordChar (c : Char) : Bool := c.isAlphanum || c == '_'

def isGap (c : Char) : Bool := c == ' ' || c == '\t' || c == '\r'

def wordKind (word : List Char) : Kind :=
  (Kind.keyword? (String.ofList word)).getD .identifier

/-- A quoted literal: up to the same quote on the same line. -/
def literal? (quote : Char) (cs : List Char) : Option (List Char) :=
  let body := cs.takeWhile fun c => c != quote && c != '\n'
  if (cs.drop body.length).head? = some quote then some (quote :: body ++ [quote]) else none

/-- Operators and punctuation; of two that fit the longer one. -/
def operator? : List Char → Option (Kind × List Char)
  | '(' :: _ => some (.openParen, ['('])
  | ')' :: _ => some (.closeParen, [')'])
  | '-' :: '>' :: _ => some (.arrow, ['-', '>'])
  | '=' :: '=' :: _ => some (.equals, ['=', '='])
  | '!' :: '=' :: _ => some (.notEquals, ['!', '='])
  | '=' :: _ => some (.assignment, ['='])
  | '<' :: '=' :: _ => some (.lessEquals, ['<', '='])
  | '<' :: _ => some (.less, ['<'])
  | '>' :: '=' :: _ => some (.greaterEquals, ['>', '='])
  | '>' :: _ => some (.greater, ['>'])
  | ':' :: _ => some (.colon, [':'])
  | ',' :: _ => some (.comma, [','])
  | '+' :: _ => some (.plus, ['+'])
  | '-' :: _ => some (.dash, ['-'])
  | '/' :: '/' :: _ => some (.slashSlash, ['/', '/'])
  | '*' :: _ => some (.star, ['*'])
  | '%' :: _ => some (.percent, ['%'])
  | _ => none

/-- The line end at the front of a text, with the carriage return before it if there is one. -/
def lineEnd? : List Char → Option (List Char)
  | '\n' :: _ => some ['\n']
  | '\r' :: '\n' :: _ => some ['\r', '\n']
  | _ => none

/-- The lexeme at the front of a text: what it is and its characters. -/
def lexeme? : List Char → Option (Lexeme × List Char)
  | [] => none
  | c :: cs =>
    if isWordStart c then
      let word := c :: cs.takeWhile isWordChar
      some (.word (wordKind word), word)
    else if c.isDigit then some (.word .number, c :: cs.takeWhile Char.isDigit)
    else
      match lineEnd? (c :: cs) with
      | some text => some (.lineEnd, text)
      | none =>
        if isGap c then some (.gap, c :: cs.takeWhile isGap)
        else if c = '#' then some (.gap, c :: cs.takeWhile (· != '\n'))
        else if c = '"' ∨ c = '\'' then (literal? c cs).map fun text => (.word .string, text)
        else (operator? (c :: cs)).map fun (kind, text) => (.word kind, text)

/-- What a word token of this text carries: a literal drops its quotes. -/
def wordValue (kind : Kind) (text : List Char) : String :=
  match kind with
  | .string => String.ofList text.tail.dropLast
  | _ => String.ofList text

theorem literal?_front {quote : Char} {cs text : List Char} (h : literal? quote cs = some text) :
    text ≠ [] ∧ text <+: quote :: cs := by
  unfold literal? at h
  simp only [Option.ite_none_right_eq_some, Option.some.injEq] at h
  obtain ⟨hq, rfl⟩ := h
  have hp := List.takeWhile_prefix (fun c => c != quote && c != '\n') (l := cs)
  obtain ⟨rest, hr⟩ := hp
  generalize List.takeWhile (fun c => c != quote && c != '\n') cs = body at hq hr
  subst hr
  simp only [List.drop_left] at hq
  cases rest with
  | nil => simp at hq
  | cons d rest =>
    simp only [List.head?_cons, Option.some.injEq] at hq
    subst hq
    exact ⟨by simp, ⟨rest, by simp⟩⟩

theorem operator?_front {cs text : List Char} {kind : Kind}
    (h : operator? cs = some (kind, text)) : text ≠ [] ∧ text <+: cs := by
  unfold operator? at h
  split at h <;> simp only [Option.some.injEq, Prod.mk.injEq, reduceCtorEq] at h <;>
    obtain ⟨-, rfl⟩ := h <;> simp

theorem lineEnd?_front {cs text : List Char} (h : lineEnd? cs = some text) :
    text ≠ [] ∧ text <+: cs := by
  unfold lineEnd? at h
  split at h <;> simp only [Option.some.injEq, reduceCtorEq] at h <;> subst h <;> simp

/-- A lexeme is not empty and stands at the front. -/
theorem lexeme?_front {cs text : List Char} {lexeme : Lexeme} (h : lexeme? cs = some (lexeme, text)) :
    text ≠ [] ∧ text <+: cs := by
  have run (p : Char → Bool) (c : Char) (cs : List Char) :
      c :: cs.takeWhile p ≠ [] ∧ c :: cs.takeWhile p <+: c :: cs :=
    ⟨by simp, by simpa using List.takeWhile_prefix p⟩
  cases cs with
  | nil => simp [lexeme?] at h
  | cons c cs =>
    simp only [lexeme?] at h
    split at h
    · cases h; exact run ..
    · split at h
      · cases h; exact run ..
      · split at h
        · rename_i htext
          cases h
          exact lineEnd?_front htext
        · split at h
          · cases h; exact run ..
          · split at h
            · cases h; exact run ..
            · split at h
              · simp only [Option.map_eq_some_iff, Prod.mk.injEq] at h
                obtain ⟨t, ht, -, rfl⟩ := h
                exact literal?_front ht
              · simp only [Option.map_eq_some_iff, Prod.mk.injEq] at h
                obtain ⟨⟨k, t⟩, ht, -, rfl⟩ := h
                exact operator?_front ht

end StackScript.Token
