import StackScript.Token.Lexeme

/-!
Scanning a unit into tokens.

The scanner is a state that `step` moves by one lexeme or by one line start. At a line start outside
parentheses it measures the indentation: blank lines and comment lines are skipped whole, the first
other line fixes the outermost column, and from then on a deeper column opens a level and a
shallower one closes levels until its own column is found again.
-/

namespace StackScript.Token

structure Scanner where
  file : String
  offset : Nat
  rest : List Char
  lineStart : Bool
  /-- Columns of the open levels, innermost first. -/
  levels : List Nat
  /-- Open parentheses; lines do not end inside them. -/
  parens : Nat
  /-- The tokens so far, newest first. -/
  tokens : List Token

namespace Scanner

def start (source file : String) : Scanner :=
  ⟨file, 0, source.toList, true, [], 0, []⟩

def here (s : Scanner) : Position := ⟨s.offset, s.file⟩

/-- The span of the next `text`. -/
def spanOf (s : Scanner) (text : List Char) : Span :=
  ⟨s.offset, s.offset + Text.byteLength text, s.file⟩

/-- Moves past the `text` that stands at the front. -/
def skip (s : Scanner) (text : List Char) : Scanner :=
  { s with offset := s.offset + Text.byteLength text, rest := s.rest.drop text.length }

def push (s : Scanner) (kind : Kind) (value : String) (text : List Char) : Scanner :=
  { s with tokens := ⟨kind, value, s.spanOf text⟩ :: s.tokens }

def pushDedents (s : Scanner) : Nat → Scanner
  | 0 => s
  | n + 1 => (s.push .dedent "<dedent>" []).pushDedents n

/-- Ends the logical line, unless nothing stands on it. -/
def pushNewline (s : Scanner) (text : List Char) : Scanner :=
  match s.tokens with
  | [] => s
  | t :: _ => if t.kind = .newline then s else s.push .newline "\n" text

end Scanner

def isIndent (c : Char) : Bool := c == ' ' || c == '\t'

/-- The column after leading blanks; a tab goes to the next multiple of eight. -/
def columnOf (blanks : List Char) : Nat :=
  blanks.foldl (fun column c => if c = '\t' then (column / 8 + 1) * 8 else column + 1) 0

/-- Whether a line whose leading blanks are gone holds no word. -/
def isBlankLine : List Char → Bool
  | [] => true
  | '\n' :: _ => true
  | '\r' :: '\n' :: _ => true
  | '#' :: _ => true
  | _ => false

/-- A text up to its first line end, with it. -/
def lineText : List Char → List Char
  | [] => []
  | c :: cs => if c = '\n' then [c] else c :: lineText cs

/-- Closes the levels deeper than a column, but never the outermost one: how many, and the rest. -/
def closeLevels (column : Nat) : List Nat → Nat × List Nat
  | top :: below :: outer =>
    if column < top then
      let (closed, open_) := closeLevels column (below :: outer)
      (closed + 1, open_)
    else (0, top :: below :: outer)
  | levels => (0, levels)

namespace Scanner

/-- Puts a line with words at its level. -/
def indentTo (s : Scanner) (column : Nat) : Except Diagnostic Scanner :=
  match s.levels with
  | [] => .ok { s with levels := [column] }
  | top :: outer =>
    if top < column then
      .ok ({ s with levels := column :: top :: outer }.push .indent "<indent>" [])
    else
      let (closed, levels) := closeLevels column (top :: outer)
      if levels.head? = some column then .ok ({ s with levels }.pushDedents closed)
      else .error ⟨.inconsistentIndentation, s.here⟩

/-- One line start. -/
def startLine (s : Scanner) : Except Diagnostic Scanner :=
  let blanks := s.rest.takeWhile isIndent
  let words := s.rest.drop blanks.length
  if isBlankLine words then .ok (s.skip (blanks ++ lineText words))
  else { s.skip blanks with lineStart := false }.indentTo (columnOf blanks)

def takeWord (s : Scanner) (kind : Kind) (text : List Char) : Scanner :=
  let parens :=
    match kind with
    | .openParen => s.parens + 1
    | .closeParen => s.parens - 1
    | _ => s.parens
  { (s.push kind (wordValue kind text) text).skip text with parens }

/-- A line end; inside parentheses it is a gap. -/
def takeLineEnd (s : Scanner) (text : List Char) : Scanner :=
  if s.parens = 0 then { (s.pushNewline text).skip text with lineStart := true } else s.skip text

def takeLexeme (s : Scanner) : Except Diagnostic Scanner :=
  match lexeme? s.rest with
  | some (.word kind, text) => .ok (s.takeWord kind text)
  | some (.lineEnd, text) => .ok (s.takeLineEnd text)
  | some (.gap, text) => .ok (s.skip text)
  | none => .error ⟨.unrecognisedToken (String.ofList (s.rest.take 1)), s.here⟩

def step (s : Scanner) : Except Diagnostic Scanner :=
  if s.lineStart ∧ s.parens = 0 then s.startLine else s.takeLexeme

/-- Twice the text left, and one for a line start: `step` makes it smaller. -/
def measure (s : Scanner) : Nat := 2 * s.rest.length + s.lineStart.toNat

@[simp] theorem push_rest (s : Scanner) (kind : Kind) (value : String) (text : List Char) :
    (s.push kind value text).rest = s.rest := rfl

@[simp] theorem push_lineStart (s : Scanner) (kind : Kind) (value : String) (text : List Char) :
    (s.push kind value text).lineStart = s.lineStart := rfl

@[simp] theorem pushDedents_rest (s : Scanner) (n : Nat) : (s.pushDedents n).rest = s.rest := by
  induction n generalizing s with
  | zero => rfl
  | succ n ih => simp [pushDedents, ih]

@[simp] theorem pushDedents_lineStart (s : Scanner) (n : Nat) :
    (s.pushDedents n).lineStart = s.lineStart := by
  induction n generalizing s with
  | zero => rfl
  | succ n ih => simp [pushDedents, ih]

@[simp] theorem pushNewline_rest (s : Scanner) (text : List Char) :
    (s.pushNewline text).rest = s.rest := by
  unfold pushNewline
  split
  · rfl
  · split <;> simp

theorem indentTo_measure {s t : Scanner} {column : Nat} (h : s.indentTo column = .ok t) :
    t.measure = s.measure := by
  unfold indentTo at h
  split at h
  · cases h; rfl
  · split at h
    · cases h; simp [measure]
    · dsimp only at h
      split at h
      · cases h; simp [measure]
      · simp at h

theorem lineText_pos {cs : List Char} (h : cs ≠ []) : 0 < (lineText cs).length := by
  cases cs with
  | nil => contradiction
  | cons c cs =>
    unfold lineText
    split <;> simp

theorem startLine_measure {s t : Scanner} (hs : s.rest ≠ []) (hl : s.lineStart = true)
    (h : s.startLine = .ok t) : t.measure < s.measure := by
  unfold startLine at h
  dsimp only at h
  generalize hb : s.rest.takeWhile isIndent = blanks at h
  have hlen : blanks.length ≤ s.rest.length := by
    rw [← hb]; exact (List.takeWhile_prefix _).length_le
  split at h
  · cases h
    have hpos : 0 < s.rest.length := List.length_pos_iff.mpr hs
    have : 0 < blanks.length + (lineText (s.rest.drop blanks.length)).length := by
      by_cases hd : s.rest.drop blanks.length = []
      · have := List.drop_eq_nil_iff.mp hd; omega
      · have := lineText_pos hd; omega
    simp only [measure, skip, List.length_drop, List.length_append]
    omega
  · have := indentTo_measure h
    simp [measure, skip, hl] at this ⊢
    omega

theorem takeLexeme_measure {s t : Scanner} (h : s.takeLexeme = .ok t) :
    t.measure < s.measure := by
  unfold takeLexeme at h
  split at h
  · rename_i kind text hx
    obtain ⟨hne, hp⟩ := lexeme?_front hx
    have := List.length_pos_iff.mpr hne
    have := hp.length_le
    cases h
    simp [measure, takeWord, skip]
    omega
  · rename_i text hx
    obtain ⟨hne, hp⟩ := lexeme?_front hx
    have := List.length_pos_iff.mpr hne
    have := hp.length_le
    cases h
    unfold takeLineEnd
    split <;> simp [measure, skip] <;> omega
  · rename_i text hx
    obtain ⟨hne, hp⟩ := lexeme?_front hx
    have := List.length_pos_iff.mpr hne
    have := hp.length_le
    cases h
    simp [measure, skip]
    omega
  · simp at h

theorem step_measure {s t : Scanner} (hs : s.rest ≠ []) (h : s.step = .ok t) :
    t.measure < s.measure := by
  unfold step at h
  split at h
  · rename_i hc
    exact startLine_measure hs hc.1 h
  · exact takeLexeme_measure h

/-- Steps to the end of the text. -/
def run (s : Scanner) : Except Diagnostic Scanner :=
  if hs : s.rest = [] then .ok s
  else
    match h : s.step with
    | .error d => .error d
    | .ok t =>
      have := step_measure hs h
      run t
termination_by s.measure

/-- Ends the last line, closes the open levels and marks the end. -/
def finish (s : Scanner) : List Token :=
  (((s.pushNewline []).pushDedents (s.levels.length - 1)).push .eof "EOF" []).tokens.reverse

end Scanner

/-- The tokens of a unit. -/
def scan (source file : String) : Except Diagnostic (List Token) :=
  (Scanner.start source file).run.map Scanner.finish

end StackScript.Token
