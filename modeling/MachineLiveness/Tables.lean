import MachineLiveness.Outcome
import Std.Data.ExtTreeSet

/-!
What an analysis knows of each block: the indices live at its tail, and those already found at its
head, in the order in which they were found. Both only grow.
-/

namespace MachineLiveness

/-- A set of indices without a bound, listed in ascending order. -/
abbrev Indices := Std.ExtTreeSet Nat

structure Tables where
  tails : Array Indices
  heads : Array (List Nat)

namespace Tables

/-- Nothing is known yet of `n` blocks. -/
def empty (n : Nat) : Tables := ⟨.replicate n ∅, .replicate n []⟩

/-- Empty tables, unless one of 32 bytes for each block could not be addressed. -/
def create (n : Nat) : Except Fault Tables :=
  if 32 * n < 1 <<< 63 then .ok (empty n) else .error .tooLarge

/-- The indices live at the tail of a block. -/
def tail (t : Tables) (b : BlockId) : Except Fault Indices := entry t.tails b.index

/-- The indices found at the head of a block so far. -/
def head (t : Tables) (b : BlockId) : Except Fault (List Nat) := entry t.heads b.index

/-- Add an index to the tail of a block and tell whether it is new there. -/
def addToTail (t : Tables) (b : BlockId) (i : Nat) : Except Fault (Bool × Tables) :=
  if h : b.index < t.tails.size then
    .ok (!t.tails[b.index].contains i,
      { t with tails := t.tails.set b.index (t.tails[b.index].insert i) })
  else .error (.noEntry t.tails.size b.index)

/-- Record indices at the head of a block; none of them may be recorded there already. -/
def extendHead (t : Tables) (b : BlockId) (is : List Nat) : Except Fault Tables :=
  if h : b.index < t.heads.size then
    if is.any (t.heads[b.index].contains ·) then .error (.alreadyRecorded b is)
    else .ok { t with heads := t.heads.set b.index (t.heads[b.index] ++ is) }
  else .error (.noEntry t.heads.size b.index)

end Tables

end MachineLiveness
