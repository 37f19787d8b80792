/-!
Byte positions in a text. Positions count the bytes of the UTF-8 form, so a slice exists only
when both of its ends fall between two characters.
-/

namespace StackScript.Text

/-- Number of bytes of the UTF-8 form. -/
def byteLength : List Char → Nat
  | [] => 0
  | c :: cs => c.utf8Size + byteLength cs

/-- The text is shorter than 4 GiB, so that its offsets are numbers of 32 bits. -/
def Short (cs : List Char) : Prop := byteLength cs < 4294967296

/-- What follows the first `n` bytes, if they end between two characters. -/
def dropBytes : Nat → List Char → Option (List Char)
  | 0, cs => some cs
  | _ + 1, [] => none
  | n + 1, c :: cs => if c.utf8Size ≤ n + 1 then dropBytes (n + 1 - c.utf8Size) cs else none

/-- The first `n` bytes, if they end between two characters. -/
def takeBytes : Nat → List Char → Option (List Char)
  | 0, _ => some []
  | _ + 1, [] => none
  | n + 1, c :: cs =>
    if c.utf8Size ≤ n + 1 then (takeBytes (n + 1 - c.utf8Size) cs).map (c :: ·) else none

/-- The characters from byte `start` up to byte `stop`. -/
def slice? (cs : List Char) (start stop : Nat) : Option (List Char) :=
  if start ≤ stop then (dropBytes start cs).bind (takeBytes (stop - start)) else none

/-- The slice as text; a range that is no slice reads as the empty text. -/
def slice (text : String) (start stop : Nat) : String :=
  String.ofList ((slice? text.toList start stop).getD [])

@[simp] theorem byteLength_nil : byteLength [] = 0 := rfl

@[simp] theorem byteLength_append (a b : List Char) :
    byteLength (a ++ b) = byteLength a + byteLength b := by
  induction a with
  | nil => simp
  | cons c cs ih => simp [byteLength, ih, Nat.add_assoc]

theorem length_le_byteLength (cs : List Char) : cs.length ≤ byteLength cs := by
  induction cs with
  | nil => simp
  | cons c cs ih =>
    have := Char.utf8Size_pos c
    simp [byteLength]
    omega

@[simp] theorem dropBytes_append (a b : List Char) : dropBytes (byteLength a) (a ++ b) = some b := by
  induction a with
  | nil => simp [dropBytes]
  | cons c cs ih =>
    have hc := Char.utf8Size_pos c
    obtain ⟨n, hn⟩ : ∃ n, c.utf8Size + byteLength cs = n + 1 := ⟨c.utf8Size + byteLength cs - 1, by omega⟩
    simp only [byteLength, List.cons_append, hn, dropBytes]
    rw [if_pos (by omega), show n + 1 - c.utf8Size = byteLength cs from by omega, ih]

@[simp] theorem takeBytes_append (a b : List Char) : takeBytes (byteLength a) (a ++ b) = some a := by
  induction a with
  | nil => simp [takeBytes]
  | cons c cs ih =>
    have hc := Char.utf8Size_pos c
    obtain ⟨n, hn⟩ : ∃ n, c.utf8Size + byteLength cs = n + 1 := ⟨c.utf8Size + byteLength cs - 1, by omega⟩
    simp only [byteLength, List.cons_append, hn, takeBytes]
    rw [if_pos (by omega), show n + 1 - c.utf8Size = byteLength cs from by omega, ih]
    rfl

/-- A slice between two places of a text is what stands there. -/
theorem slice?_append (a b c : List Char) :
    slice? (a ++ b ++ c) (byteLength a) (byteLength a + byteLength b) = some b := by
  simp [slice?, List.append_assoc]

theorem le_byteLength_of_dropBytes {n : Nat} {cs rest : List Char}
    (h : dropBytes n cs = some rest) : n ≤ byteLength cs := by
  fun_induction dropBytes n cs with
  | case1 => exact Nat.zero_le _
  | case2 => cases h
  | case3 n c cs hc ih =>
    have hrest := ih h
    rw [byteLength]
    omega
  | case4 => cases h

theorem le_byteLength_of_slice? {cs text : List Char} {start stop : Nat}
    (h : slice? cs start stop = some text) : start ≤ byteLength cs := by
  unfold slice? at h
  split at h
  · obtain ⟨rest, hrest, _⟩ := Option.bind_eq_some_iff.mp h
    exact le_byteLength_of_dropBytes hrest
  · cases h

end StackScript.Text
