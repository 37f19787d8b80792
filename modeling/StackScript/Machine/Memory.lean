import StackScript.Code

/-!
Memory: bytes that are read and written as words of four, the lowest byte first.

All bytes are zero at the start, and only those up to the last one written are kept. What a memory
holds is `byte`, which `byte_setWord` gives after a write.
-/

namespace StackScript

structure Memory where
  size : Nat
  /-- The bytes up to the last one written. -/
  written : Array UInt8

namespace Memory

def pageSize : Nat := 65536

def ofPages (pages : Nat) : Memory := ⟨pages * pageSize, #[]⟩

/-- Whether all four bytes of a word at an address lie in the memory. -/
def Holds (m : Memory) (address : Word) : Prop :=
  0 ≤ address.toInt ∧ address.toInt + 4 ≤ m.size

instance (m : Memory) (address : Word) : Decidable (m.Holds address) :=
  inferInstanceAs (Decidable (_ ∧ _))

def byte (m : Memory) (i : Nat) : UInt8 := m.written.getD i 0

/-- The word of four bytes, lowest first. -/
def wordOf (a b c d : UInt8) : Word :=
  Int32.ofNat (a.toNat + 256 * b.toNat + 65536 * c.toNat + 16777216 * d.toNat)

/-- The word whose lowest byte is at `i`. -/
def wordAt (m : Memory) (i : Nat) : Word :=
  wordOf (m.byte i) (m.byte (i + 1)) (m.byte (i + 2)) (m.byte (i + 3))

/-- The byte of a word that counts `weight` times. -/
def byteOf (v : Word) (weight : Nat) : UInt8 := UInt8.ofNat (v.toUInt32.toNat / weight)

/-- Keeps at least the first `n` bytes. -/
def grown (bytes : Array UInt8) (n : Nat) : Array UInt8 :=
  bytes ++ Array.replicate (n - bytes.size) 0

/-- Writes a word with its lowest byte at `i`. -/
def setWord (m : Memory) (i : Nat) (v : Word) : Memory where
  size := m.size
  written :=
    ((((grown m.written (i + 4)).setIfInBounds i (byteOf v 1)).setIfInBounds (i + 1)
      (byteOf v 256)).setIfInBounds (i + 2) (byteOf v 65536)).setIfInBounds (i + 3)
      (byteOf v 16777216)

def load? (m : Memory) (address : Word) : Option Word :=
  if m.Holds address then some (m.wordAt address.toInt.toNat) else none

def store? (m : Memory) (address value : Word) : Option Memory :=
  if m.Holds address then some (m.setWord address.toInt.toNat value) else none

theorem store?_of_holds {m : Memory} {address : Word} (h : m.Holds address) (value : Word) :
    m.store? address value = some (m.setWord address.toInt.toNat value) := if_pos h

theorem store?_of_not_holds {m : Memory} {address : Word} (h : ¬m.Holds address) (value : Word) :
    m.store? address value = none := if_neg h

theorem store?_eq_some {m m' : Memory} {address value : Word} :
    m.store? address value = some m' ↔
      m.Holds address ∧ m' = m.setWord address.toInt.toNat value := by
  by_cases h : m.Holds address
  · simp [store?_of_holds h, h, eq_comm]
  · simp [store?_of_not_holds h, h]

theorem grown_getD (bytes : Array UInt8) (n i : Nat) : (grown bytes n).getD i 0 = bytes.getD i 0 := by
  simp only [grown, Array.getD_eq_getD_getElem?, Array.getElem?_append]
  split
  · rfl
  · rename_i h
    rw [Array.getElem?_eq_none (Nat.le_of_not_lt h), Array.getElem?_replicate]
    split <;> rfl

theorem le_size_grown (bytes : Array UInt8) (n : Nat) : n ≤ (grown bytes n).size := by
  simp only [grown, Array.size_append, Array.size_replicate]
  omega

theorem getD_set {bytes : Array UInt8} {k : Nat} (h : k < bytes.size) (b : UInt8) (j : Nat) :
    (bytes.setIfInBounds k b).getD j 0 = if j = k then b else bytes.getD j 0 := by
  simp only [Array.getD_eq_getD_getElem?, Array.getElem?_setIfInBounds]
  by_cases hj : j = k
  · subst hj
    simp [h]
  · simp [hj, Ne.symm hj]

/-- A write changes its own four bytes and no other. -/
theorem byte_setWord (m : Memory) (i j : Nat) (v : Word) :
    (m.setWord i v).byte j =
      if j = i + 3 then byteOf v 16777216
      else if j = i + 2 then byteOf v 65536
      else if j = i + 1 then byteOf v 256
      else if j = i then byteOf v 1
      else m.byte j := by
  have h := le_size_grown m.written (i + 4)
  simp only [setWord, byte]
  rw [getD_set (by simp; omega), getD_set (by simp; omega), getD_set (by simp; omega),
    getD_set (by omega), grown_getD]

@[simp] theorem size_setWord (m : Memory) (i : Nat) (v : Word) :
    (m.setWord i v).size = m.size := by
  simp only [setWord]

end Memory

end StackScript
