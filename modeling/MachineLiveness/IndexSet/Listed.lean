import MachineLiveness.IndexSet

/-!
A set of indices as no more than the list of its members: what an `IndexSet` shows.
-/

namespace MachineLiveness

structure ListedSet where
  bound : Nat
  members : List Nat
  deriving DecidableEq, Repr

namespace ListedSet

def empty (bound : Nat) : ListedSet := ⟨bound, []⟩

/-- An absent index comes to stand at the end. -/
def insert (s : ListedSet) (i : Nat) : ListedSet :=
  if i ∈ s.members then s else { s with members := s.members ++ [i] }

/-- The last member takes the place of the one that leaves. -/
def erase (s : ListedSet) (i : Nat) : ListedSet :=
  match s.members.getLast? with
  | some last =>
    if i ∈ s.members then
      { s with members := (s.members.map fun j => if j = i then last else j).dropLast }
    else s
  | none => s

/-- One index after another, up to the first at or above the bound. -/
def each (f : ListedSet → Nat → ListedSet) (s : ListedSet) : List Nat → IndexSet.Answer × ListedSet
  | [] => (.ok none, s)
  | i :: is => if i < s.bound then each f (f s i) is else (.error (.outsideSet i s.bound), s)

/-- An answer and a change for an index below the bound. -/
def one (s : ListedSet) (i : Nat) (told : Bool) (t : ListedSet) : IndexSet.Answer × ListedSet :=
  if i < s.bound then (.ok (some told), t) else (.error (.outsideSet i s.bound), s)

def perform (s : ListedSet) : IndexSet.Command → IndexSet.Answer × ListedSet
  | .add i => s.one i (i ∉ s.members) (s.insert i)
  | .remove i => s.one i (i ∈ s.members) (s.erase i)
  | .contains i => s.one i (i ∈ s.members) s
  | .clear => (.ok none, { s with members := [] })
  | .resetFrom is => each insert { s with members := [] } is
  | .removeAll is => each erase s is

end ListedSet

end MachineLiveness
