import StackScript.Text.Slice

/-!
Lines of a text, and the line that holds a byte position.
-/

namespace StackScript.Text

/-- A line as a reader finds it: counted from one, with its line feed, and a byte column in it. -/
structure Line where
  number : Nat
  text : List Char
  column : Nat

/-- The lines of a text, each with the line feed that ends it. -/
def lines : List Char → List (List Char)
  | [] => []
  | c :: cs =>
    if c = '\n' then [c] :: lines cs
    else
      match lines cs with
      | [] => [[c]]
      | l :: ls => (c :: l) :: ls

/-- Walks down the lines to the one that holds byte `offset`. -/
def locate (number offset : Nat) : List (List Char) → Line
  | [] => ⟨number, [], 0⟩
  | l :: ls =>
    if offset < byteLength l then ⟨number, l, offset⟩
    else locate (number + 1) (offset - byteLength l) ls

/-- The line of byte `offset`; an offset past the end stands for the last byte. -/
def lineAt (text : String) (offset : Nat) : Line :=
  locate 1 (min offset (byteLength text.toList - 1)) (lines text.toList)

end StackScript.Text
