import MachineLiveness.Propagation

/-!
Runs step by step. `Schedule` visits dirty blocks in any order whatever; `Moment` follows the sweeps
and stops between any two visits.
-/

namespace MachineLiveness.Propagation

variable (c : Code) (u : Universe)

/-- Visits of dirty blocks, told by their positions, that lead from one state to another. -/
inductive Schedule : Propagation → List Nat → Propagation → Prop where
  | done (p : Propagation) : Schedule p [] p
  | visit {p q r : Propagation} {b : Block} {k : Nat} {ks : List Nat}
      (hb : c.blocks[k]? = some b) (hd : p.dirty[k]? = some true) (hv : p.visit c u b = .ok q)
      (rest : Schedule q ks r) : Schedule p (k :: ks) r

/-- The state to which visits of dirty blocks lead, told by their positions; none if a block is not
dirty or a visit stops. -/
def follow (p : Propagation) : List Nat → Option Propagation
  | [] => some p
  | k :: ks =>
    match c.blocks[k]?, p.dirty[k]? with
    | some b, some true =>
      match p.visit c u b with
      | .ok q => follow q ks
      | .error _ => none
    | _, _ => none

/-- The state of a run before the first visit. -/
def Begins (p : Propagation) : Prop := ∃ t, seed c u = .ok t ∧ p = ofTables c u t

/-- No visit is due. -/
def Quiet (p : Propagation) : Prop := ∀ d ∈ p.dirty, d = false

/-- A moment of a run: the state, and the blocks that the sweep has still to look at. -/
structure Moment where
  state : Propagation
  ahead : List Block

/-- A sweep is about to begin. -/
def Moment.sweepOf (p : Propagation) : Moment := ⟨p.beginSweep, c.blocks.toList.reverse⟩

/-- From one moment to the next: to the next block, or into the next sweep. -/
inductive Moment.Next : Moment → Moment → Prop where
  | visit {p q : Propagation} {b : Block} {bs : List Block} (hv : p.visit c u b = .ok q) :
      Next ⟨p, b :: bs⟩ ⟨q, bs⟩
  | sweep {p : Propagation} (hc : p.changed = true) : Next ⟨p, []⟩ (.sweepOf c p)

/-- What some steps lead to. -/
inductive Moment.Later : Moment → Moment → Prop where
  | refl (m : Moment) : Later m m
  | step {m n o : Moment} (h : Later m n) (hn : Moment.Next c u n o) : Later m o

/-- The moments of the run over a unit. -/
def Moment.OfRun (m : Moment) : Prop := ∃ p, Begins c u p ∧ Moment.Later c u (.sweepOf c p) m

end MachineLiveness.Propagation
