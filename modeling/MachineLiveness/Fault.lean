import MachineLiveness.Block

/-!
Faults: why an operation stopped, with the message that says so.
-/

namespace MachineLiveness

inductive Fault where
  /-- A table of `size` entries has none at `index`. -/
  | noEntry (size index : Nat)
  /-- A temporary of another bank than that of the universe. -/
  | foreignTemp (temp : Temp) (bank : Bank)
  /-- A register that the target does not have. -/
  | noRegister (temp : Temp)
  /-- A temporary outside a universe of `size` entities. -/
  | tempOutside (temp : Temp) (size : Nat)
  /-- A slot outside a universe of `size` slots. -/
  | slotOutside (slot : SlotId) (size : Nat)
  /-- No temporary has this index. -/
  | noTemp (index size : Nat)
  /-- No slot has this index. -/
  | noSlot (index size : Nat)
  /-- An index set over `size` indices is asked about another index. -/
  | outsideSet (index size : Nat)
  /-- A scratch set is not of the size of the universe that it serves. -/
  | scratchSize (found expected : Nat)
  /-- A cursor at `position` cannot move up to `inst`. -/
  | outOfOrder (inst : Nat) (block : BlockId) (position : Nat)
  /-- A block without instructions has no terminator. -/
  | noTerminator (block : BlockId)
  /-- One of these indices is already recorded at the head of the block. -/
  | alreadyRecorded (block : BlockId) (indices : List Nat)
  /-- All the block numbers are taken. -/
  | tooManyBlocks
  /-- All the numbers for temporaries of this bank are taken. -/
  | tooManyTemps (bank : Bank)
  /-- All the slot numbers are taken. -/
  | tooManySlots
  /-- A table would take more bytes than can be addressed. -/
  | tooLarge
  deriving DecidableEq, Repr

namespace Fault

/-- Two values that should have been equal, under what was to be shown. -/
def unequal (claim left right : String) : String :=
  "assertion `left == right` failed" ++ claim ++ "\n  left: " ++ left ++ "\n right: " ++ right

def message : Fault → String
  | noEntry size index =>
    "index out of bounds: the len is " ++ toString size ++ " but the index is " ++ toString index
  | foreignTemp t u =>
    unequal (": " ++ t.text ++ " does not belong to the " ++ u.text ++ " liveness universe")
      t.bank.tag u.tag
  | noRegister t => t.text ++ " is not a register"
  | tempOutside t size => t.text ++ " is out of range (" ++ toString size ++ " entities)"
  | slotOutside s size => s.text ++ " is out of range (" ++ toString size ++ " stack slots)"
  | noTemp index size =>
    "index " ++ toString index ++ " is out of range (" ++ toString size ++ " entities)"
  | noSlot index size =>
    "index " ++ toString index ++ " is out of range (" ++ toString size ++ " stack slots)"
  | outsideSet index size =>
    "index " ++ toString index ++ " is outside the workset universe of " ++ toString size
  | scratchSize found expected => unequal "" (toString found) (toString expected)
  | outOfOrder inst block position =>
    "instruction " ++ toString inst ++ " of " ++ block.text ++ " executed out of order (cursor at "
      ++ toString position ++ ")"
  | noTerminator block => "block " ++ block.text ++ " has no terminator"
  | alreadyRecorded block indices =>
    "head of " ++ block.text ++ " already records one of ["
      ++ String.intercalate ", " (indices.map toString) ++ "]"
  | tooManyBlocks => "block count exceeds u32::MAX"
  | tooManyTemps bank => bank.text ++ " temp count exceeds u32::MAX"
  | tooManySlots => "stack slot count exceeds u32::MAX"
  | tooLarge => "capacity overflow"

end Fault

end MachineLiveness
