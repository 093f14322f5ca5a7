import MachineLiveness.Block

/-!
Edges that lead back, and how many of them a path without repetition can have.
-/

namespace MachineLiveness.Code

/-- There is an edge from the block at one position to the block at another. -/
def Edge (c : Code) (source target : Nat) : Prop :=
  ∃ b, c.blocks[source]? = some b ∧ ∃ s ∈ b.successors, s.index = target

/-- Edges lead from each position of a list to the next. -/
def Walk (c : Code) : List Nat → Prop
  | [] => True
  | [k] => k < c.blocks.size
  | j :: k :: ks => c.Edge j k ∧ Walk c (k :: ks)

/-- How many steps of a list do not lead upward in number. -/
def retreats : List Nat → Nat
  | [] => 0
  | [_] => 0
  | j :: k :: ks => (if k ≤ j then 1 else 0) + retreats (k :: ks)

/-- No path without repetition has more than `d` edges that lead back. -/
def RetreatsAtMost (c : Code) (d : Nat) : Prop :=
  ∀ ks : List Nat, ks.Nodup → c.Walk ks → retreats ks ≤ d

/-- Every edge leads to a later block. -/
def Forward (c : Code) : Prop := ∀ j k, c.Edge j k → j < k

end MachineLiveness.Code
