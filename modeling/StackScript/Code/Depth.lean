import StackScript.Code
import StackScript.Diagnostic

/-!
Counting the words on the stack while code is written down, instruction by instruction.
-/

namespace StackScript.Instr

/-- The depth after an instruction, or the cause if there are not enough words for it. -/
def depthAfter (depth : Nat) (i : Instr) : Except Cause Nat :=
  if depth < i.pops then .error (.stackUnderflow i.mnemonic i.pops depth)
  else .ok (depth - i.pops + i.pushes)

end StackScript.Instr
