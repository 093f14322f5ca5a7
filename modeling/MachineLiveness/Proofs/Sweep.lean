import MachineLiveness.Proofs.Run

/-!
Where a sweep stands. A sweep that has come down to position `j` has the blocks below `j` ahead of it.
What holds of a state and such a position before the first visit, and is kept by every visit and by
the beginning of every further sweep, holds where the run ends (`SweepInvariant.exists_run`).
-/

namespace MachineLiveness.Propagation

variable {c : Code} {u : Universe} {p q : Propagation} {b : Block} {j : Nat}

/-- The blocks that a sweep has ahead when it has come down to a position. -/
def blocksAhead (c : Code) (j : Nat) : List Block := (c.blocks.toList.take j).reverse

theorem blocksAhead_succ (hb : c.blocks[j]? = some b) :
    blocksAhead c (j + 1) = b :: blocksAhead c j := by
  rw [blocksAhead, List.take_add_one, Array.getElem?_toList, hb, Option.toList_some,
    List.reverse_append, List.reverse_singleton, List.singleton_append, blocksAhead]

theorem blocksAhead_size (c : Code) : blocksAhead c c.blocks.size = c.blocks.toList.reverse := by
  rw [blocksAhead, List.take_of_length_le (Nat.le_of_eq Array.length_toList)]

/-- A property of states and of the positions down to which their sweeps have come that the whole run
keeps. -/
structure SweepInvariant (c : Code) (u : Universe) (P : Propagation → Nat → Prop) : Prop where
  first : ∀ p, Begins c u p → P p.beginSweep c.blocks.size
  visit : ∀ p q j b, Consistent c u p → c.blocks[j]? = some b → Explored c u j b p q →
    P p (j + 1) → P q j
  sweep : ∀ p, Consistent c u p → p.changed = true → P p 0 → P p.beginSweep c.blocks.size

namespace SweepInvariant

variable {P : Propagation → Nat → Prop} {m n : Moment}

/-- The moment belongs to a sweep that has come down to a position at which the property holds. -/
def HoldsAt (c : Code) (P : Propagation → Nat → Prop) (m : Moment) : Prop :=
  ∃ j ≤ c.blocks.size, m.ahead = blocksAhead c j ∧ P m.state j

theorem holdsAt_sweepOf (h : P p.beginSweep c.blocks.size) : HoldsAt c P (.sweepOf c p) :=
  ⟨c.blocks.size, Nat.le_refl _, (blocksAhead_size c).symm, h⟩

theorem eq_zero_of_blocksAhead (hj : j ≤ c.blocks.size) (h : [] = blocksAhead c j) : j = 0 := by
  have hlength := congrArg List.length h
  rw [blocksAhead, List.length_reverse, List.length_take_of_le (by simpa using hj)] at hlength
  exact hlength.symm

theorem holdsAt_of_next (hc : c.WellFormed) (h : SweepInvariant c u P) (hm : m.Sound c u)
    (hP : HoldsAt c P m) (hn : Moment.Next c u m n) : HoldsAt c P n := by
  obtain ⟨j, hj, hahead, hP⟩ := hP
  cases hn with
  | @visit p q b bs hv =>
    cases j with
    | zero =>
      rw [blocksAhead, List.take_zero] at hahead
      cases hahead
    | succ j =>
      have hblock : c.blocks[j]? = some c.blocks[j] := Array.getElem?_eq_getElem hj
      rw [blocksAhead_succ hblock] at hahead
      cases hahead
      have hexplored := explored_of_visit hc hm.consistent hblock hv
      exact ⟨j, Nat.le_of_succ_le hj, rfl, h.visit p q j _ hm.consistent hblock hexplored hP⟩
  | @sweep p hchanged =>
    cases eq_zero_of_blocksAhead hj hahead
    exact holdsAt_sweepOf (h.sweep p hm.consistent hchanged hP)

theorem holdsAt_of_later (hc : c.WellFormed) (h : SweepInvariant c u P) (hm : m.Sound c u)
    (hP : HoldsAt c P m) (hl : Moment.Later c u m n) : HoldsAt c P n := by
  induction hl with
  | refl => exact hP
  | step hl hn ih => exact holdsAt_of_next hc h (Moment.sound_of_later hc hm hl) ih hn

theorem holdsAt_of_ofRun (hc : c.WellFormed) (h : SweepInvariant c u P) (hm : m.OfRun c u) :
    HoldsAt c P m := by
  obtain ⟨p, hp, hl⟩ := hm
  have hsound := Moment.sound_sweepOf hc (consistent_of_begins hc hp)
  exact holdsAt_of_later hc h hsound (holdsAt_sweepOf (h.first p hp)) hl

/-- The run ends at the end of a sweep, and there the property holds. -/
theorem exists_run (hc : c.WellFormed) (h : SweepInvariant c u P) :
    ∃ q, run c u = .ok q ∧ q.changed = false ∧ Moment.OfRun c u ⟨q, []⟩ ∧ P q 0 := by
  obtain ⟨q, hq, hchanged, hm⟩ := Propagation.exists_run (u := u) hc
  obtain ⟨j, hj, hahead, hP⟩ := holdsAt_of_ofRun hc h hm
  cases eq_zero_of_blocksAhead hj hahead
  exact ⟨q, hq, hchanged, hm, hP⟩

end SweepInvariant

end MachineLiveness.Propagation
