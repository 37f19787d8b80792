import StackScript.Form

/-!
Reading forms from text.

Text is blanks, comments from `;;` to the end of the line, parentheses, quoted atoms and bare atoms.
The reader keeps the lists that are still open, innermost first.
-/

namespace StackScript.Form

/-- What a piece of module text is to the reader. -/
inductive Piece where
  | gap
  | opening
  | closing
  | atom
  deriving DecidableEq, Repr

def isBlank (c : Char) : Bool := c == ' ' || c == '\t' || c == '\r' || c == '\n'

/-- The characters of a bare atom. -/
def isBare (c : Char) : Bool := !(isBlank c || c == '(' || c == ')' || c == '"' || c == ';')

/-- The piece at the front of a text: what it is and its characters. -/
def piece? : List Char → Option (Piece × List Char)
  | [] => none
  | c :: cs =>
    if isBlank c then some (.gap, c :: cs.takeWhile isBlank)
    else if c = ';' then
      if cs.head? = some ';' then some (.gap, c :: cs.takeWhile (· != '\n')) else none
    else if c = '(' then some (.opening, [c])
    else if c = ')' then some (.closing, [c])
    else if c = '"' then
      let body := cs.takeWhile fun d => d != '"' && d != '\n'
      if (cs.drop body.length).head? = some '"' then some (.atom, c :: body ++ ['"']) else none
    else some (.atom, c :: cs.takeWhile isBare)

theorem piece?_front {cs text : List Char} {piece : Piece} (h : piece? cs = some (piece, text)) :
    text ≠ [] ∧ text <+: cs := by
  have run (p : Char → Bool) (c : Char) (cs : List Char) :
      c :: cs.takeWhile p ≠ [] ∧ c :: cs.takeWhile p <+: c :: cs :=
    ⟨by simp, by simpa using List.takeWhile_prefix p⟩
  cases cs with
  | nil => simp [piece?] at h
  | cons c cs =>
    simp only [piece?] at h
    split at h
    · cases h; exact run ..
    · split at h
      · split at h
        · cases h; exact run ..
        · simp at h
      · split at h
        · cases h; simp
        · split at h
          · cases h; simp
          · split at h
            · rename_i hq
              split at h
              · rename_i hc
                cases h
                obtain ⟨rest, hr⟩ :=
                  List.takeWhile_prefix (fun d => d != '"' && d != '\n') (l := cs)
                generalize List.takeWhile (fun d => d != '"' && d != '\n') cs = body at hc hr
                subst hr
                simp only [List.drop_left] at hc
                cases rest with
                | nil => simp at hc
                | cons d rest =>
                  simp only [List.head?_cons, Option.some.injEq] at hc
                  subst hc
                  exact ⟨by simp, ⟨rest, by simp⟩⟩
              · simp at h
            · cases h; exact run ..

theorem piece?_rest_shorter {cs text : List Char} {piece : Piece}
    (h : piece? cs = some (piece, text)) : cs.length - text.length < cs.length := by
  obtain ⟨hne, hp⟩ := piece?_front h
  have := List.length_pos_iff.mpr hne
  have := hp.length_le
  omega

/-- A list that is still open: where it starts and its items so far, newest first. -/
structure Open where
  offset : Nat
  items : List Form

/-- The lists still open, and the forms outside all of them, newest first. -/
structure Reading where
  opens : List Open
  done : List Form

namespace Reading

/-- Puts a form behind the last one at the place of the reader. -/
def add (r : Reading) (f : Form) : Reading :=
  match r.opens with
  | [] => { r with done := f :: r.done }
  | o :: os => { r with opens := { o with items := f :: o.items } :: os }

def opening (r : Reading) (offset : Nat) : Reading :=
  { r with opens := ⟨offset, []⟩ :: r.opens }

/-- Closes the innermost list. -/
def closing (r : Reading) (offset : Nat) : Except LoadError Reading :=
  match r.opens with
  | [] => .error ⟨.unbalancedClose, offset⟩
  | o :: os => .ok ({ r with opens := os }.add (.list o.offset o.items.reverse))

/-- Takes a piece at an offset. -/
def take (r : Reading) (offset : Nat) (piece : Piece) (text : List Char) :
    Except LoadError Reading :=
  match piece with
  | .gap => .ok r
  | .opening => .ok (r.opening offset)
  | .closing => r.closing offset
  | .atom => .ok (r.add (.atom offset (String.ofList text)))

def finish (r : Reading) : Except LoadError (List Form) :=
  match r.opens with
  | [] => .ok r.done.reverse
  | o :: _ => .error ⟨.unclosedOpen, o.offset⟩

end Reading

/-- Reads on from an offset. -/
def readFrom (r : Reading) (offset : Nat) (cs : List Char) : Except LoadError (List Form) :=
  match cs with
  | [] => r.finish
  | c :: rest =>
    match h : piece? (c :: rest) with
    | none => .error ⟨.unexpectedCharacter c, offset⟩
    | some (piece, text) =>
      match r.take offset piece text with
      | .error e => .error e
      | .ok r =>
        have := piece?_rest_shorter h
        readFrom r (offset + Text.byteLength text) ((c :: rest).drop text.length)
termination_by cs.length

/-- The forms of a text. -/
def read (text : String) : Except LoadError (List Form) := readFrom ⟨[], []⟩ 0 text.toList

end StackScript.Form
