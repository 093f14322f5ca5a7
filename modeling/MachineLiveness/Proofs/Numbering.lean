import MachineLiveness.Proofs.Fixpoint

/-!
The numbering of a universe is an isomorphism of orders. Registers are numbered from 0 and the virtual
temporaries from where the registers end, both in the order of their own numbers, and that is the
order of temporaries; slots keep their numbers. So a set of indices and the entities that it lists can
be asked for one another.
-/

namespace MachineLiveness

namespace Universe

variable {c : Code} {u : Universe}

theorem exists_entityAt_iff {i : Nat} : (∃ e, u.entityAt c i = .ok e) ↔ i < u.size c := by
  constructor
  · rintro ⟨e, he⟩
    cases u with
    | temps b =>
      refine Nat.lt_of_not_le fun hle => ?_
      have hregs : ¬ i < c.registerCount b := by
        rw [size] at hle
        omega
      rw [entityAt, tempAt, if_neg hregs, if_neg (Nat.not_lt.mpr hle)] at he
      cases he
    | slots =>
      refine Nat.lt_of_not_le fun hle => ?_
      have hout : ¬ i < c.slots.size := Nat.not_lt.mpr hle
      rw [entityAt, slotAt, if_neg hout] at he
      cases he
  · exact exists_entityAt

theorem exists_error_iff {α : Type} {x : Except Fault α} :
    (∃ f, x = .error f) ↔ ¬ ∃ a, x = .ok a := by
  cases x with
  | error f => simp
  | ok a => simp

/-! ## The order -/

theorem tempIndex_lt_iff {b : Bank} {s t : Temp} {i j : Nat} (hs : tempIndex c b s = .ok i)
    (ht : tempIndex c b t = .ok j) : s < t ↔ i < j := by
  change Temp.lt s t ↔ i < j
  -- The index of a register is below the number of registers, that of a virtual temporary is not.
  rcases tempIndex_eq_ok.mp hs with ⟨r, rfl, hr, hlt, rfl⟩ | ⟨m, rfl, -, rfl⟩ <;>
    rcases tempIndex_eq_ok.mp ht with ⟨r', rfl, hr', hlt', rfl⟩ | ⟨n, rfl, -, rfl⟩
  · simp [Temp.lt, hr, hr', Reg.index, UInt8.lt_iff_toNat_lt]
  · simp only [Temp.lt, true_iff]
    omega
  · simp only [Temp.lt, false_iff]
    omega
  · simp [Temp.lt, UInt32.lt_iff_toNat_lt]

theorem slotIndex_lt_iff {s t : SlotId} {i j : Nat} (hs : slotIndex c s = .ok i)
    (ht : slotIndex c t = .ok j) : s < t ↔ i < j := by
  obtain ⟨-, rfl⟩ := slotIndex_eq_ok.mp hs
  obtain ⟨-, rfl⟩ := slotIndex_eq_ok.mp ht
  exact UInt32.lt_iff_toNat_lt

theorem indexOf_lt_iff {e e' : u.Entity} {i i' : Nat} (h : u.indexOf c e = .ok i)
    (h' : u.indexOf c e' = .ok i') : e < e' ↔ i < i' := by
  cases u with
  | temps b => exact tempIndex_lt_iff h h'
  | slots => exact slotIndex_lt_iff h h'

/-- Entities are given the indices below the size of the universe, each one another, in their order;
anything else has no index, and no other index an entity. -/
structure Numbered (c : Code) (u : Universe) : Prop where
  indexed : ∀ e, (∃ i, u.indexOf c e = .ok i) ↔ u.Owns c e
  unindexed : ∀ e, (∃ f, u.indexOf c e = .error f) ↔ ¬ u.Owns c e
  named : ∀ i, (∃ e, u.entityAt c i = .ok e) ↔ i < u.size c
  unnamed : ∀ i, (∃ f, u.entityAt c i = .error f) ↔ u.size c ≤ i
  inverse : ∀ e i, u.indexOf c e = .ok i ↔ u.entityAt c i = .ok e
  ordered : ∀ e e' i i', u.indexOf c e = .ok i → u.indexOf c e' = .ok i' → (e < e' ↔ i < i')

theorem numbered (hs : c.slots.size ≤ UInt32.size) : Numbered c u where
  indexed := fun _ => exists_indexOf
  unindexed := fun _ => exists_error_iff.trans (not_congr exists_indexOf)
  named := fun _ => exists_entityAt_iff
  unnamed := fun _ => exists_error_iff.trans ((not_congr exists_entityAt_iff).trans Nat.not_lt)
  inverse := fun _ _ => ⟨entityAt_indexOf, indexOf_entityAt hs⟩
  ordered := fun _ _ _ _ => indexOf_lt_iff

end Universe

namespace Liveness

variable {c : Code} {u : Universe} {q : Propagation} {b : Block} {k : Nat}

/-- The three ways to ask what is live at the tail of a block agree on every entity of the unit. -/
def TailAgrees (c : Code) (l : Liveness u) (b : Block) : Prop :=
  ∃ t es, l.tailIndices b.id = .ok t ∧ l.atTail b.id = .ok es ∧ (∀ e ∈ es, u.Owns c e) ∧
    ∀ e i, u.indexOf c e = .ok i →
      (e ∈ es ↔ i ∈ t) ∧ (l.isLiveAtTail b.id e = .ok true ↔ i ∈ t) ∧
        (l.isLiveAtTail b.id e = .ok false ↔ i ∉ t)

theorem tailAgrees_ofRun (hc : c.WellFormed) (hs : c.slots.size ≤ UInt32.size)
    (h : q.Consistent c u) (hb : c.blocks[k]? = some b) : (ofRun c u q).TailAgrees c b := by
  obtain ⟨es, hes, hlists⟩ := exists_atTail hc hs h hb
  have htail := tailIndices_eq hc h hb
  refine ⟨q.tailAt k, es, htail, hes, fun e he => ?_, fun e i hi => ⟨?_, ?_⟩⟩
  · obtain ⟨i, -, hi⟩ := (hlists e).mp he
    exact Universe.exists_indexOf.mp ⟨i, hi⟩
  · rw [hlists]
    constructor
    · rintro ⟨j, hj, hij⟩
      rw [hi] at hij
      cases hij
      exact hj
    · exact fun hj => ⟨i, hj, hi⟩
  · have hanswer : (ofRun c u q).isLiveAtTail b.id e = .ok ((q.tailAt k).contains i) :=
      bind_eq_ok.mpr ⟨_, htail, bind_eq_ok.mpr ⟨i, hi, rfl⟩⟩
    rw [hanswer, Except.ok.injEq, Except.ok.injEq, ← Bool.not_eq_true,
      ← Std.ExtTreeSet.mem_iff_contains]
    exact ⟨Iff.rfl, Iff.rfl⟩

/-- Over a finished unit the numbering of a universe is an isomorphism of orders onto the indices below
its size; and at every tail the analysis answers alike for an entity and for its index. -/
theorem numbered_in_order {d : Draft} (u : Universe) (h : d.finish = .ok c) :
    u.Numbered c ∧ ∃ l : Liveness u, compute c u = .ok l ∧
      ∀ (k : Nat) (b : Block), c.blocks[k]? = some b → l.TailAgrees c b := by
  have hc := Draft.wellFormed_of_finish h
  have hs := Draft.slots_le_of_finish h
  obtain ⟨q, hq, hconsistent, -⟩ := Propagation.exists_least_run (u := u) hc
  exact ⟨Universe.numbered hs, ofRun c u q, map_eq_ok.mpr ⟨q, faultOnly_eq_ok.mpr hq, rfl⟩,
    fun _ _ hb => tailAgrees_ofRun hc hs hconsistent hb⟩

/-- Where the two registers end the virtual temporaries begin. -/
theorem numbered_in_order_sample : Draft.sample.finish = .ok Draft.sample.freeze ∧
    Universe.Numbered Draft.sample.freeze (.temps .gp) ∧
    Universe.indexOf Draft.sample.freeze (.temps .gp) (.reg ⟨.gp, 1⟩) = .ok 1 ∧
    Universe.indexOf Draft.sample.freeze (.temps .gp) (.virtual .gp 0) = .ok 2 ∧
    ∃ l : Liveness (.temps .gp), compute Draft.sample.freeze (.temps .gp) = .ok l ∧
      ∀ (k : Nat) (b : Block), Draft.sample.freeze.blocks[k]? = some b →
        l.TailAgrees Draft.sample.freeze b := by
  obtain ⟨hnumbered, hl⟩ := numbered_in_order (.temps .gp) Draft.finish_sample
  exact ⟨Draft.finish_sample, hnumbered, by decide +kernel, by decide +kernel, hl⟩

end Liveness

end MachineLiveness
