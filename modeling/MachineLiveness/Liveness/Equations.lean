import MachineLiveness.Tables
import MachineLiveness.Universe

/-!
Liveness as a system of equations between sets, and the plain way to solve it: begin with empty sets
and recompute every block from its successors, round after round.
-/

namespace MachineLiveness

/-- A set of indices for the tail and one for the head of each block of a unit. -/
structure Sets where
  tail : Nat → Indices
  head : Nat → Indices

namespace Sets

variable (c : Code) (u : Universe)

/-- The indices of those entities that belong to the unit. -/
def indices (es : List u.Entity) : List Nat := es.filterMap fun e => (u.indexOf c e).toOption

/-- What is live above an instruction, from what is live below it and what is used late above it. -/
def through (i : Inst) (late : List Nat) (below : Indices) : Indices :=
  (((indices c u (u.defines i)).foldl (·.erase ·) below).insertMany
    (indices c u (u.earlyUses i))).insertMany late

/-- What is live above a list of instructions that end at the tail; `late` is used late above them. -/
def above (tail : Indices) (late : List Nat) : List Inst → Indices
  | [] => tail
  | i :: is => through c u i late (above tail (indices c u (u.lateUses i)) is)

/-- What is used late at the end of a block. -/
def lateAtTail (b : Block) : List Nat :=
  match b.insts.back? with
  | none => []
  | some last => indices c u (u.lateUses last)

/-- What the equations say of the tail of a block. -/
def tailOf (s : Sets) (b : Block) : Indices :=
  b.successors.foldl (fun t succ => t.insertMany (s.head succ.index).toList)
    ((∅ : Indices).insertMany (lateAtTail c u b))

/-- What the equations say of the head of a block with this tail. -/
def headOf (b : Block) (tail : Indices) : Indices := above c u tail [] b.insts.toList

/-- Every block's sets are what the equations say. -/
structure Solves (s : Sets) : Prop where
  tail : ∀ k b, c.blocks[k]? = some b → s.tail k = tailOf c u s b
  head : ∀ k b, c.blocks[k]? = some b → s.head k = headOf c u b (s.tail k)

/-- Inclusion at every block. -/
def Le (s t : Sets) : Prop := ∀ k, (∀ i ∈ s.tail k, i ∈ t.tail k) ∧ ∀ i ∈ s.head k, i ∈ t.head k

/-- The solution that every solution includes. -/
def Least (s : Sets) : Prop := Solves c u s ∧ ∀ t, Solves c u t → Le s t

/-! ## Round after round -/

def empty : Sets := ⟨fun _ => ∅, fun _ => ∅⟩

/-- Recompute the sets of the block at position `k`. -/
def update (s : Sets) (b : Block) (k : Nat) : Sets :=
  let tail := tailOf c u s b
  let head := headOf c u b tail
  ⟨fun j => if j = k then tail else s.tail j, fun j => if j = k then head else s.head j⟩

/-- Recompute every block, the first one first. -/
def round (s : Sets) : Sets := c.blocks.toList.zipIdx.foldl (fun s (b, k) => s.update c u b k) s

/-- What some rounds make of empty sets. -/
def rounds : Nat → Sets
  | 0 => empty
  | n + 1 => (rounds n).round c u

end Sets

end MachineLiveness
