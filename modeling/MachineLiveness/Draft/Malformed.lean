import MachineLiveness.Block

/-!
Defects of a unit under construction: each names the block, and the instruction if there is one,
that is at fault.
-/

namespace MachineLiveness

inductive Malformed where
  | emptyBlock (block : BlockId)
  | missingTerminator (block : BlockId) (opcode : Opcode)
  | terminatorNotLast (block : BlockId) (inst : Nat) (opcode : Opcode)
  | successorCount (block : BlockId) (opcode : Opcode) (expected found : Nat)
  | successorOutOfRange (block successor : BlockId) (blocks : Nat)
  /-- A temporary under an operand of the other bank. -/
  | bankMismatch (block : BlockId) (inst : Nat) (temp : Temp) (bank : Bank)
  | baseNotGp (block : BlockId) (inst : Nat) (base : Temp)
  /-- A virtual temporary at or above the `count` of its bank. -/
  | tempOutOfRange (block : BlockId) (inst : Nat) (temp : Temp) (count : Nat)
  /-- A register at or above the `count` of its bank. -/
  | registerOutOfRange (block : BlockId) (inst : Nat) (temp : Temp) (count : Nat)
  | slotOutOfRange (block : BlockId) (inst : Nat) (slot : SlotId) (count : Nat)
  deriving DecidableEq, Repr

namespace Malformed

/-- The block that is at fault. -/
def block : Malformed → BlockId
  | emptyBlock b | missingTerminator b _ | terminatorNotLast b _ _ | successorCount b _ _ _
  | successorOutOfRange b _ _ | bankMismatch b _ _ _ | baseNotGp b _ _ | tempOutOfRange b _ _ _
  | registerOutOfRange b _ _ _ | slotOutOfRange b _ _ _ => b

/-- How a message begins that is about an instruction. -/
def place (block : BlockId) (inst : Nat) : String :=
  "block " ++ block.text ++ ", inst " ++ toString inst ++ ": "

def message : Malformed → String
  | emptyBlock b => "block " ++ b.text ++ " has no instructions"
  | missingTerminator b op =>
    "block " ++ b.text ++ " does not end in a terminator (found `" ++ op.name ++ "`)"
  | terminatorNotLast b i op =>
    "block " ++ b.text ++ ": terminator `" ++ op.name ++ "` at " ++ toString i
      ++ " is not the last instruction"
  | successorCount b op expected found =>
    "block " ++ b.text ++ ": `" ++ op.name ++ "` expects " ++ toString expected
      ++ " successor(s), found " ++ toString found
  | successorOutOfRange b s blocks =>
    "block " ++ b.text ++ " names successor " ++ s.text ++ ", but there are only "
      ++ toString blocks ++ " blocks"
  | bankMismatch b i t bank =>
    place b i ++ t.text ++ " is in the " ++ t.bank.text ++ " bank but the operand is " ++ bank.text
  | baseNotGp b i base =>
    place b i ++ "address base " ++ base.text ++ " is not a general-purpose temp"
  | tempOutOfRange b i t count =>
    place b i ++ t.text ++ " was never allocated (" ++ toString count ++ " " ++ t.bank.text
      ++ " temps)"
  | registerOutOfRange b i t count =>
    place b i ++ t.text ++ " does not exist (" ++ toString count ++ " " ++ t.bank.text
      ++ " registers)"
  | slotOutOfRange b i s count =>
    place b i ++ s.text ++ " was never allocated (" ++ toString count ++ " stack slots)"

end Malformed

end MachineLiveness
