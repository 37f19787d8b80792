import Mathlib.Algebra.Group.Nat.Defs
import StackScript.Machine
import StackScript.Proofs.Slots

namespace StackScript

namespace Memory

theorem byteOf_wordOf (a b c d : UInt8) :
    byteOf (wordOf a b c d) 1 = a ∧ byteOf (wordOf a b c d) 256 = b ∧
      byteOf (wordOf a b c d) 65536 = c ∧ byteOf (wordOf a b c d) 16777216 = d := by
  have ha := a.toNat_lt
  have hb := b.toNat_lt
  have hc := c.toNat_lt
  have hd := d.toNat_lt
  have hword : (wordOf a b c d).toUInt32.toNat =
      a.toNat + 256 * b.toNat + 65536 * c.toNat + 16777216 * d.toNat := by
    unfold wordOf
    rw [← UInt32.toNat_toBitVec]
    change (Int32.ofNat _).toBitVec.toNat = _
    rw [Int32.toBitVec_ofNat', BitVec.toNat_ofNat]
    omega
  simp only [byteOf, hword, ← UInt8.toNat_inj, UInt8.toNat_ofNat']
  omega

/-- The bytes of the word at a place are those that stand there, the lowest first. -/
theorem byteOf_wordAt (m : Memory) (j : Nat) {k : Nat} (hk : k < 4) :
    byteOf (m.wordAt j) (256 ^ k) = m.byte (j + k) := by
  obtain ⟨h₀, h₁, h₂, h₃⟩ :=
    byteOf_wordOf (m.byte j) (m.byte (j + 1)) (m.byte (j + 2)) (m.byte (j + 3))
  obtain rfl | rfl | rfl | rfl : k = 0 ∨ k = 1 ∨ k = 2 ∨ k = 3 := by omega
  · exact h₀
  · exact h₁
  · exact h₂
  · exact h₃

/-- A write puts the bytes of its word at four places in a row, the lowest first. -/
theorem byte_setWord_eq (m : Memory) (i j : Nat) (v : Word) :
    (m.setWord i v).byte j =
      if i ≤ j ∧ j < i + 4 then byteOf v (256 ^ (j - i)) else m.byte j := by
  rw [byte_setWord]
  by_cases h : i ≤ j ∧ j < i + 4
  · obtain ⟨k, rfl⟩ := Nat.exists_eq_add_of_le h.1
    rw [if_pos h, Nat.add_sub_cancel_left]
    obtain rfl | rfl | rfl | rfl : k = 0 ∨ k = 1 ∨ k = 2 ∨ k = 3 := by omega
    all_goals simp
  · rw [if_neg h, if_neg (by omega), if_neg (by omega), if_neg (by omega), if_neg (by omega)]

/-- A word read after a write: the bytes that lie in the written word, at their places there, and the
bytes of the old word for the rest. -/
theorem byteOf_wordAt_setWord (m : Memory) (i j : Nat) (v : Word) {k : Nat} (hk : k < 4) :
    byteOf ((m.setWord i v).wordAt j) (256 ^ k) =
      if i ≤ j + k ∧ j + k < i + 4 then byteOf v (256 ^ (j + k - i))
      else byteOf (m.wordAt j) (256 ^ k) := by
  rw [byteOf_wordAt _ _ hk, byteOf_wordAt _ _ hk, byte_setWord_eq]

/-- Memories are equal if they have the same bytes. -/
theorem ext_bytes {m n : Memory} (hsize : m.size = n.size)
    (hwritten : m.written.size = n.written.size) (hbyte : ∀ j, m.byte j = n.byte j) : m = n := by
  obtain ⟨size, bytes⟩ := m
  obtain ⟨size', bytes'⟩ := n
  obtain rfl : size = size' := hsize
  have hwritten : bytes.size = bytes'.size := hwritten
  have hbytes : bytes = bytes' := by
    apply Array.ext hwritten
    intro j hj hj'
    have hj := hbyte j
    simpa [byte, Array.getD, *] using hj
  rw [hbytes]

theorem size_written_setWord (m : Memory) (i : Nat) (v : Word) :
    (m.setWord i v).written.size = max m.written.size (i + 4) := by
  simp only [setWord, grown, Array.size_setIfInBounds, Array.size_append, Array.size_replicate]
  omega

theorem setWord_comm (m : Memory) {i j : Nat} (v w : Word) (h : i + 4 ≤ j ∨ j + 4 ≤ i) :
    (m.setWord i v).setWord j w = (m.setWord j w).setWord i v := by
  apply ext_bytes
  · simp only [size_setWord]
  · simp only [size_written_setWord]
    omega
  · intro k
    simp only [byte_setWord_eq]
    by_cases hi : i ≤ k ∧ k < i + 4
    · rw [if_neg (by omega), if_pos hi, if_pos hi]
    · rw [if_neg hi, if_neg hi]

section Access

variable {m : Memory} {a b v w : Word}

theorem not_holds_iff : ¬ m.Holds a ↔ a.toInt < 0 ∨ m.size < a.toInt + 4 := by
  unfold Holds
  omega

theorem load?_eq_none_iff : m.load? a = none ↔ a.toInt < 0 ∨ m.size < a.toInt + 4 := by
  rw [← not_holds_iff]
  simp [load?]

theorem store?_eq_none_iff : m.store? a v = none ↔ a.toInt < 0 ∨ m.size < a.toInt + 4 := by
  rw [← not_holds_iff]
  simp [store?]

theorem load?_eq_some_iff : m.load? a = some v ↔ m.Holds a ∧ m.wordAt a.toInt.toNat = v := by
  simp [load?]

@[simp] theorem holds_setWord (i : Nat) : (m.setWord i v).Holds a ↔ m.Holds a := by
  simp [Holds]

/-- Two words of a memory at addresses that are four or more apart have no byte in common. -/
theorem Holds.apart (ha : m.Holds a) (hb : m.Holds b) (h : 4 ≤ (a.toInt - b.toInt).natAbs) :
    a.toInt.toNat + 4 ≤ b.toInt.toNat ∨ b.toInt.toNat + 4 ≤ a.toInt.toNat := by
  have ha := ha.1
  have hb := hb.1
  omega

theorem load?_setWord_apart (ha : m.Holds a) (h : 4 ≤ (a.toInt - b.toInt).natAbs) :
    (m.setWord a.toInt.toNat v).load? b = m.load? b := by
  by_cases hb : m.Holds b
  · rw [load?, load?, if_pos hb, if_pos ((holds_setWord _).mpr hb),
      wordAt_setWord_ne _ _ (ha.apart hb h)]
  · rw [load?, load?, if_neg hb, if_neg (mt (holds_setWord _).mp hb)]

/-- Stores that are apart succeed or fail alike in both orders, and leave the same memory. -/
theorem store?_comm (h : 4 ≤ (a.toInt - b.toInt).natAbs) :
    (m.store? a v).bind (·.store? b w) = (m.store? b w).bind (·.store? a v) := by
  by_cases ha : m.Holds a <;> by_cases hb : m.Holds b
  · have hcomm := setWord_comm m v w (ha.apart hb h)
    simpa [store?, ha, hb] using hcomm
  all_goals simp [store?, ha, hb]

end Access

/-- Memory is an array of words, the lowest byte of each first. Loads and stores fail exactly where
the word would not lie in the memory, and a store that fails ends a run with the memory as it was.
After a store its address holds the word, words that are apart from it are as before, and a word that
overlaps it has the bytes they share from the stored word and the others from the old one. Stores
that are apart commute, and none changes the size. -/
theorem stores_replace_words (m : Memory) (a b v w : Word) :
    (m.load? a = none ↔ a.toInt < 0 ∨ m.size < a.toInt + 4) ∧
    (m.store? a v = none ↔ a.toInt < 0 ∨ m.size < a.toInt + 4) ∧
    (m.store? a v = none → ∀ module limit host frame callers stack,
      frame.stack = v :: a :: stack →
      Machine.exec module limit m host frame callers .store =
        .done ⟨.error (.outOfBounds a), m, host⟩) ∧
    (∀ m', m.store? a v = some m' →
      m'.size = m.size ∧
      m'.load? a = some v ∧
      (4 ≤ (a.toInt - b.toInt).natAbs → m'.load? b = m.load? b) ∧
      ∀ old, m.load? b = some old → ∃ new, m'.load? b = some new ∧ ∀ k : Nat, k < 4 →
        byteOf new (256 ^ k) =
          if a.toInt ≤ b.toInt + k ∧ b.toInt + k < a.toInt + 4 then
            byteOf v (256 ^ (b.toInt + k - a.toInt).toNat)
          else byteOf old (256 ^ k)) ∧
    (4 ≤ (a.toInt - b.toInt).natAbs →
      (m.store? a v).bind (·.store? b w) = (m.store? b w).bind (·.store? a v)) := by
  refine ⟨load?_eq_none_iff, store?_eq_none_iff, ?fails, ?stored, store?_comm⟩
  case fails =>
    intro h module limit host frame callers stack hstack
    simp only [Machine.exec, hstack, h]
  case stored =>
    intro m' h
    obtain ⟨ha, rfl⟩ := store?_eq_some.mp h
    refine ⟨size_setWord .., ?_, load?_setWord_apart ha, ?_⟩
    · exact load?_eq_some_iff.mpr ⟨(holds_setWord _).mpr ha, wordAt_setWord_self ..⟩
    · intro old hold
      obtain ⟨hb, rfl⟩ := load?_eq_some_iff.mp hold
      refine ⟨_, load?_eq_some_iff.mpr ⟨(holds_setWord _).mpr hb, rfl⟩, fun k hk => ?_⟩
      have ha := ha.1
      have hb := hb.1
      have hplace : b.toInt.toNat + k - a.toInt.toNat = (b.toInt + k - a.toInt).toNat := by omega
      have hshared : (a.toInt.toNat ≤ b.toInt.toNat + k ∧ b.toInt.toNat + k < a.toInt.toNat + 4) ↔
          a.toInt ≤ b.toInt + k ∧ b.toInt + k < a.toInt + 4 := by omega
      rw [byteOf_wordAt_setWord _ _ _ _ hk, hplace]
      simp only [hshared]

/-- At the end of a page: the last address with a word takes it, the next one does not. A load two
bytes below has the lower half of the word in its upper half. -/
theorem stores_replace_words_at_end :
    let m := ofPages 1
    (m.store? 65533 (-2) = none ∧
      Machine.exec ⟨[], none⟩ 1 m .reliable ⟨0, .empty, [-2, 65533], []⟩ [] .store =
        .done ⟨.error (.outOfBounds 65533), m, .reliable⟩) ∧
    ∃ m' new, m.store? 65532 (-2) = some m' ∧ m'.load? 65532 = some (-2) ∧
      (m'.load? 65530 = some new ∧ byteOf new (256 ^ 1) = 0 ∧ byteOf new (256 ^ 2) = 254) ∧
      m'.load? 4 = m.load? 4 ∧ m'.store? 4 7 = (m.store? 4 7).bind (·.store? 65532 (-2)) := by
  intro m
  have hholds : m.Holds 65532 ∧ m.Holds 65530 := by decide
  have hstore : m.store? 65532 (-2) = some (m.setWord 65532 (-2)) := store?_of_holds hholds.1 _
  have hload : m.load? 65530 = some 0 := by
    rw [load?, if_pos hholds.2]
    rfl
  obtain ⟨-, hnone, hfails, -⟩ := stores_replace_words m 65533 0 (-2) 0
  have hnone := hnone.mpr (by decide)
  obtain ⟨-, -, -, hstored, -⟩ := stores_replace_words m 65532 65530 (-2) 7
  obtain ⟨-, hsame, -, hoverlap⟩ := hstored _ hstore
  obtain ⟨new, hnew, hbytes⟩ := hoverlap 0 hload
  obtain ⟨-, -, -, hapart, hcomm⟩ := stores_replace_words m 65532 4 (-2) 7
  have hcomm := hcomm (by decide)
  rw [hstore] at hcomm
  refine ⟨⟨hnone, hfails hnone _ _ _ _ _ [] rfl⟩, _, new, hstore, hsame,
    ⟨hnew, hbytes 1 (by decide), hbytes 2 (by decide)⟩, ?_, hcomm⟩
  exact (hapart _ hstore).2.2.1 (by decide)

end Memory

end StackScript
