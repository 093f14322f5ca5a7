/-!
Abstract stack slots of a compilation unit.
-/

namespace MachineLiveness

/-- A stack slot, named by its position among the slots of the unit. -/
structure SlotId where
  num : UInt32
  deriving DecidableEq, Repr

namespace SlotId

/-- The number as a position in a table. -/
def index (s : SlotId) : Nat := s.num.toNat

def text (s : SlotId) : String := "stack" ++ toString s.index

/-- Slots are ordered by their numbers. -/
instance : LT SlotId := ⟨fun s t => s.num < t.num⟩

instance : DecidableLT SlotId := fun s t => inferInstanceAs (Decidable (s.num < t.num))

end SlotId

/-- Who owns a slot: lowering, so that it never shares its place, or the register allocator. -/
inductive SlotKind where
  | locked
  | spill
  deriving DecidableEq, Repr

/-- What is known of a slot. -/
structure Slot where
  byteSize : UInt32
  kind : SlotKind
  deriving DecidableEq, Repr

end MachineLiveness
