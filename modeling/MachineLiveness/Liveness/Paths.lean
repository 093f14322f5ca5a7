import MachineLiveness.Universe

/-!
What it means that an entity is live somewhere: from there a path leads to a use of it and crosses no
instruction that defines it. Nothing here mentions an analysis.
-/

namespace MachineLiveness

/-- A place in a unit: just above the instruction at `pos` of a block or, with as many instructions
as there are above it, the block's tail. -/
structure Point where
  block : BlockId
  pos : Nat
  deriving DecidableEq, Repr

namespace Point

variable (c : Code) (u : Universe)

/-- The instruction just below a point; there is none below a tail. -/
def instBelow? (p : Point) : Option Inst :=
  c.blocks[p.block.index]?.bind fun b => b.insts[p.pos]?

/-- The instruction just above a point; there is none above a head. -/
def instAbove? (p : Point) : Option Inst :=
  match p.pos with
  | 0 => none
  | n + 1 => instBelow? c ⟨p.block, n⟩

/-- An entity is used at a point early by the instruction below or late by the one above. -/
def Used (e : u.Entity) (p : Point) : Prop :=
  (∃ i, p.instBelow? c = some i ∧ e ∈ u.earlyUses i) ∨
    ∃ i, p.instAbove? c = some i ∧ e ∈ u.lateUses i

/-- A path that crosses no definition of an entity. -/
inductive Clear (e : u.Entity) : Point → Point → Prop where
  | here (p : Point) : Clear e p p
  /-- Across an instruction. -/
  | across {p q : Point} {i : Inst} (hi : p.instBelow? c = some i) (hd : e ∉ u.defines i)
      (rest : Clear e ⟨p.block, p.pos + 1⟩ q) : Clear e p q
  /-- From a tail along an edge. -/
  | along {p q : Point} {b : Block} {s : BlockId} (hb : c.blocks[p.block.index]? = some b)
      (ht : p.pos = b.insts.size) (hs : s ∈ b.successors) (rest : Clear e ⟨s, 0⟩ q) :
      Clear e p q

/-- A clear path leads from the point to a use. -/
def Live (e : u.Entity) (p : Point) : Prop := ∃ q, Clear c u e p q ∧ Used c u e q

variable {c u}

theorem Clear.trans {e : u.Entity} {p q r : Point} (hpq : Clear c u e p q)
    (hqr : Clear c u e q r) : Clear c u e p r := by
  induction hpq with
  | here => exact hqr
  | across hi hd _ ih => exact .across hi hd (ih hqr)
  | along hb ht hs _ ih => exact .along hb ht hs (ih hqr)

theorem Live.of_clear {e : u.Entity} {p q : Point} (h : Clear c u e p q) (hq : Live c u e q) :
    Live c u e p := by
  obtain ⟨r, hr, hu⟩ := hq
  exact ⟨r, h.trans hr, hu⟩

end Point

end MachineLiveness
