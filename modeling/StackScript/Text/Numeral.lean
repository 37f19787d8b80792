/-!
Decimal numerals of 32-bit numbers.
-/

namespace StackScript.Text

def digitsValue (cs : List Char) : Nat :=
  cs.foldl (fun n c => n * 10 + (c.toNat - '0'.toNat)) 0

/-- A digit string without a sign; there must be a digit. -/
def digits? (cs : List Char) : Option Nat :=
  if cs ≠ [] ∧ cs.all Char.isDigit then some (digitsValue cs) else none

/-- A signed 32-bit number: a sign may stand before the digits. -/
def int32? (text : String) : Option Int32 :=
  let number : Option Int :=
    match text.toList with
    | '+' :: cs => (digits? cs).map Int.ofNat
    | '-' :: cs => (digits? cs).map fun n => -Int.ofNat n
    | cs => (digits? cs).map Int.ofNat
  number.bind fun n => if -2147483648 ≤ n ∧ n ≤ 2147483647 then some (Int32.ofInt n) else none

/-- An unsigned 32-bit number: a plus may stand before the digits. -/
def nat32? (text : String) : Option Nat :=
  let number : Option Nat :=
    match text.toList with
    | '+' :: cs => digits? cs
    | cs => digits? cs
  number.bind fun n => if n ≤ 4294967295 then some n else none

def decimal (n : Int32) : String := toString n.toInt

end StackScript.Text
