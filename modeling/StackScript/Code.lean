import StackScript.Text.Numeral

/-!
Stack code: instructions on 32-bit words, and their text.
-/

namespace StackScript

/-- A value of the machine: 32 bits, read as a signed number. -/
abbrev Word := Int32

/-- Operations that take two words and leave one. -/
inductive NumOp where
  | add
  | sub
  | mul
  | div
  | rem
  | lt
  | le
  | gt
  | ge
  | eq
  | ne
  deriving DecidableEq, Repr

namespace NumOp

def mnemonic : NumOp → String
  | add => "i32.add"
  | sub => "i32.sub"
  | mul => "i32.mul"
  | div => "i32.div_s"
  | rem => "i32.rem_s"
  | lt => "i32.lt_s"
  | le => "i32.le_s"
  | gt => "i32.gt_s"
  | ge => "i32.ge_s"
  | eq => "i32.eq"
  | ne => "i32.ne"

def ofMnemonic? (text : String) : Option NumOp :=
  match text with
  | "i32.add" => some add
  | "i32.sub" => some sub
  | "i32.mul" => some mul
  | "i32.div_s" => some div
  | "i32.rem_s" => some rem
  | "i32.lt_s" => some lt
  | "i32.le_s" => some le
  | "i32.gt_s" => some gt
  | "i32.ge_s" => some ge
  | "i32.eq" => some eq
  | "i32.ne" => some ne
  | _ => none

end NumOp

inductive Instr where
  | const (value : Word)
  /-- The address of a top-level variable; it runs as a constant. -/
  | address (offset : Word) (name : String)
  | num (op : NumOp)
  | load
  | store
  | localGet (name : String)
  | localSet (name : String)
  | call (name : String) (params results : Nat)
  | drop
  | nop
  | ret
  | br (depth : Nat)
  | brIf (depth : Nat)
  /-- A branch to a block goes behind its end. -/
  | block (body : List Instr)
  /-- A branch to a loop goes back to its start. -/
  | loop (body : List Instr)

namespace Instr

def mnemonic : Instr → String
  | const _ | address .. => "i32.const"
  | num op => op.mnemonic
  | load => "i32.load"
  | store => "i32.store"
  | localGet _ => "local.get"
  | localSet _ => "local.set"
  | call .. => "call"
  | drop => "drop"
  | nop => "nop"
  | ret => "return"
  | br _ => "br"
  | brIf _ => "br_if"
  | block _ => "block"
  | loop _ => "loop"

/-- How many words an instruction takes off the stack. Of a block only the entry counts. -/
def pops : Instr → Nat
  | num _ | store => 2
  | load | localSet _ | drop | ret | brIf _ => 1
  | call _ params _ => params
  | const _ | address .. | localGet _ | nop | br _ | block _ | loop _ => 0

/-- How many words an instruction leaves on the stack. -/
def pushes : Instr → Nat
  | const _ | address .. | localGet _ | num _ | load => 1
  | call _ _ results => results
  | store | localSet _ | drop | ret | brIf _ | nop | br _ | block _ | loop _ => 0

def indentation (depth : Nat) : String := String.ofList (List.replicate (2 * depth) ' ')

mutual

/-- The text of an instruction, a line for each. -/
def render (depth : Nat) : Instr → String
  | const value => indentation depth ++ s!"(i32.const {Text.decimal value})\n"
  | address offset name => indentation depth ++ s!"(i32.const {Text.decimal offset}) ;; {name}\n"
  | num op => indentation depth ++ s!"({op.mnemonic})\n"
  | load => indentation depth ++ "(i32.load)\n"
  | store => indentation depth ++ "(i32.store)\n"
  | localGet name => indentation depth ++ s!"(local.get ${name})\n"
  | localSet name => indentation depth ++ s!"(local.set ${name})\n"
  | call name _ _ => indentation depth ++ s!"(call ${name})\n"
  | drop => indentation depth ++ "(drop)\n"
  | nop => indentation depth ++ "(nop)\n"
  | ret => indentation depth ++ "(return)\n"
  | br n => indentation depth ++ s!"(br {n})\n"
  | brIf n => indentation depth ++ s!"(br_if {n})\n"
  | block body =>
    indentation depth ++ "(block\n" ++ renderAll (depth + 1) body ++ indentation depth ++ ")\n"
  | loop body =>
    indentation depth ++ "(loop\n" ++ renderAll (depth + 1) body ++ indentation depth ++ ")\n"

def renderAll (depth : Nat) : List Instr → String
  | [] => ""
  | i :: is => i.render depth ++ renderAll depth is

end

end Instr

end StackScript
