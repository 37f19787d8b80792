import StackScript.Code
import StackScript.Program
import StackScript.Table

/-!
Where top-level variables live in memory.

Slots are given out in the order of the declarations and never again, so a layout goes on from unit
to unit. A variable that is declared again moves to its new slot.
-/

namespace StackScript

structure Layout where
  slots : Table Nat
  /-- The next free slot. -/
  next : Nat

namespace Layout

def empty : Layout := ⟨.empty, 0⟩

def add (l : Layout) (name : String) : Layout := ⟨l.slots.insert name l.next, l.next + 1⟩

/-- Gives every top-level variable of a unit a fresh slot. -/
def extend (l : Layout) : List Stmt → Layout
  | [] => l
  | .init _ name _ _ :: stmts => (l.add name).extend stmts
  | _ :: stmts => l.extend stmts

def slotSize : Nat := 4

/-- The address of a variable: its slot, four bytes each. -/
def address? (l : Layout) (name : String) : Option Word :=
  (l.slots.get? name).map fun slot => Int32.ofNat (slot * slotSize)

end Layout

end StackScript
