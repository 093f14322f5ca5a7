import Mathlib.Data.List.Sort
import MachineLiveness.Proofs.Edges
import MachineLiveness.Proofs.Fixpoint
import MachineLiveness.Proofs.Reached
import MachineLiveness.Proofs.RoundTrip

/-!
Which units there are. Those that a history builds are the well formed ones with predecessors in order
(`Code.built_iff`), since such a unit can be taken apart into a draft that is finished as the same
unit. Reading a unit from its JSON form makes any other unit as well, with nothing checked, so what is
built has its liveness in every universe and what is read need not.
-/

namespace MachineLiveness

namespace Code

variable {c : Code}

/-- A history ends in a draft that is finished as this unit. -/
def Built (c : Code) : Prop :=
  ∃ (registers : RegisterFile) (ss : List Draft.Step),
    ((Draft.empty registers).performAll ss).2.finish = .ok c

/-! ## Taken apart -/

/-- The unit as a draft again. -/
def draft (c : Code) (hblocks : c.blocks.size ≤ UInt32.size) (hslots : c.slots.size ≤ UInt32.size) :
    Draft where
  registers := c.registers
  blocks := c.blocks.map Block.draft
  temps := c.temps
  slots := c.slots
  blocks_le := by rwa [Array.size_map]
  slots_le := hslots

/-- Blocks named by their positions are no more than there are numbers. -/
theorem WellFormed.size_le (h : c.WellFormed) : c.blocks.size ≤ UInt32.size := by
  refine Nat.not_lt.mp fun hlt => ?_
  have hid := h.ids UInt32.size _ (Array.getElem?_eq_getElem hlt)
  exact Nat.ne_of_lt (UInt32.toNat_lt_size _) hid

theorem WellFormed.ofIndex_eq (h : c.WellFormed) {k : Nat} {b : Block} (hb : c.blocks[k]? = some b) :
    BlockId.ofIndex k = b.id := by
  rw [← h.block_id hb, BlockId.ofIndex, BlockId.index, UInt32.ofNat_toNat]

section Draft

variable (hblocks : c.blocks.size ≤ UInt32.size) (hslots : c.slots.size ≤ UInt32.size)

theorem allocated_draft : (c.draft hblocks hslots).allocated = c.allocated := by
  simp [Draft.allocated, allocated, draft]

theorem wellFormed_draft (h : c.WellFormed) : (c.draft hblocks hslots).WellFormed := by
  intro source hsource
  obtain ⟨b, hb, rfl⟩ := Array.mem_map.mp hsource
  rw [allocated_draft]
  exact h.blocks b hb

theorem mem_predecessors_draft (h : c.WellFormed) {b : Block} (hb : b ∈ c.blocks) {p : BlockId} :
    p ∈ (c.draft hblocks hslots).predecessors b.id ↔ p ∈ b.predecessors := by
  rw [Draft.mem_predecessors, h.mem_predecessors b hb]
  simp only [draft, Array.getElem?_map, Option.map_eq_some_iff]
  constructor
  · rintro ⟨k, -, ⟨source, hk, rfl⟩, hedge, rfl⟩
    exact ⟨source, Array.mem_of_getElem? hk, (h.ofIndex_eq hk).symm, hedge⟩
  · rintro ⟨source, hsource, rfl, hedge⟩
    obtain ⟨k, hk⟩ := Array.mem_iff_getElem?.mp hsource
    exact ⟨k, source.draft, ⟨source, hk, rfl⟩, hedge, (h.ofIndex_eq hk).symm⟩

/-- What was taken apart is put together again. -/
theorem freeze_draft (h : c.WellFormed) (ha : c.Ascending) : (c.draft hblocks hslots).freeze = c := by
  have hfrozen : (c.draft hblocks hslots).freeze.blocks = c.blocks := by
    refine Array.ext_getElem? fun k => ?_
    rw [Draft.getElem?_freeze, draft, Array.getElem?_map, Option.map_map]
    cases hk : c.blocks[k]? with
    | none => rfl
    | some b =>
      have hb := Array.mem_of_getElem? hk
      have hpredecessors : (c.draft hblocks hslots).predecessors b.id = b.predecessors :=
        (Draft.predecessors_ascending b.id).eq_of_mem_iff (ha b hb) fun p =>
          mem_predecessors_draft hblocks hslots h hb
      rw [Option.map_some, Function.comp_apply, h.ofIndex_eq hk]
      exact congrArg (fun ps => some (Block.mk b.id b.insts b.successors ps)) hpredecessors
  exact congrArg (fun bs => Code.mk bs c.temps c.slots c.registers) hfrozen

end Draft

/-! ## Built and read -/

theorem built_iff_exists_draft : c.Built ↔ ∃ d : Draft, d.finish = .ok c := by
  constructor
  · rintro ⟨registers, ss, h⟩
    exact ⟨_, h⟩
  · rintro ⟨d, h⟩
    obtain ⟨ss, hss⟩ := d.exists_history
    exact ⟨d.registers, ss, by rw [hss, h]⟩

theorem built_iff :
    c.Built ↔ c.WellFormed ∧ c.Ascending ∧ c.slots.size ≤ UInt32.size := by
  rw [built_iff_exists_draft]
  constructor
  · rintro ⟨d, h⟩
    refine ⟨Draft.wellFormed_of_finish h, ?_, Draft.slots_le_of_finish h⟩
    obtain ⟨-, rfl⟩ := Draft.finish_eq_ok.mp h
    exact d.ascending_freeze
  · rintro ⟨h, ha, hslots⟩
    exact ⟨c.draft h.size_le hslots, Draft.finish_eq_ok.mpr
      ⟨Draft.defect?_eq_none.mpr (wellFormed_draft h.size_le hslots h),
        freeze_draft h.size_le hslots h ha⟩⟩

theorem WellFormed.exists_compute (h : c.WellFormed) (u : Universe) :
    ∃ l, Liveness.compute c u = .ok l := by
  obtain ⟨q, hq, -⟩ := Propagation.exists_run (u := u) h
  exact ⟨Liveness.ofRun c u q, map_eq_ok.mpr ⟨q, faultOnly_eq_ok.mpr hq, rfl⟩⟩

/-- A history builds exactly the well formed units with predecessors in order and no more slots than
numbers; over these, and over well formed units in whatever order, no universe stops. Any other unit
is there as well: it is read from its JSON form. -/
theorem circulation (c : Code) :
    (c.Built ↔ c.WellFormed ∧ c.Ascending ∧ c.slots.size ≤ UInt32.size) ∧
      (c.WellFormed → ∀ u, ∃ l, Liveness.compute c u = .ok l) ∧
      Code.ofJson? c.toJson = some c :=
  ⟨built_iff, WellFormed.exists_compute, ofJson?_toJson c⟩

/-- The form of a unit whose one block is empty. -/
def hollow : Json := .obj [
  ("blocks", .arr [.obj [("id", .int 0), ("insts", .arr []), ("successors", .arr []),
    ("predecessors", .arr [])]]),
  ("num_tmps", .arr [.int 0, .int 0]),
  ("stack_slots", .arr []),
  ("registers", .obj [("gp", .int 1), ("fp", .int 1)])]

/-- It is read as a unit that is not well formed, and every universe stops at its block. -/
theorem hollow_read : ∃ c, Code.ofJson? hollow = some c ∧ ¬ c.WellFormed ∧
    ∀ u, Liveness.compute c u = .error (.noTerminator ⟨0⟩) := by
  refine ⟨⟨#[⟨⟨0⟩, #[], [], []⟩], ⟨0, 0⟩, #[], ⟨1, 1⟩⟩, ?_, ?_, ?_⟩
  · decide +kernel
  · intro h
    obtain ⟨last, hlast, -⟩ := (h.blocks ⟨⟨0⟩, #[], [], []⟩ (by simp)).terminated
    cases hlast
  · intro u
    rfl

end Code

end MachineLiveness
