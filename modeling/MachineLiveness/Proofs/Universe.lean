import MachineLiveness.Proofs.Finish
import MachineLiveness.Retreat
import MachineLiveness.Universe

/-!
The universes over a well formed unit: the numbering answers for exactly what the unit has allocated,
so every entity that an instruction names in an accepted bank has an index; and the blocks around a
block are those that the edges say.
-/

namespace MachineLiveness

namespace Universe

variable {c : Code}

theorem hasTemp_reg {r : Reg} :
    c.allocated.HasTemp (.reg r) ↔ r.index < c.registerCount r.bank := by
  rw [Allocated.HasTemp]
  cases r.bank <;> rfl

theorem hasTemp_virtual {b : Bank} {n : UInt32} :
    c.allocated.HasTemp (.virtual b n) ↔ n.toNat < c.tempCount b := by
  cases b <;> rfl

theorem exists_tempIndex {b : Bank} {t : Temp} :
    (∃ i, tempIndex c b t = .ok i) ↔ t.bank = b ∧ c.allocated.HasTemp t := by
  constructor
  · rintro ⟨i, hi⟩
    rcases tempIndex_eq_ok.mp hi with ⟨r, rfl, rfl, hr, -⟩ | ⟨n, rfl, hn, -⟩
    · exact ⟨rfl, hasTemp_reg.mpr hr⟩
    · exact ⟨rfl, hasTemp_virtual.mpr hn⟩
  · rintro ⟨rfl, h⟩
    cases t with
    | reg r => exact ⟨_, tempIndex_eq_ok.mpr (.inl ⟨r, rfl, rfl, hasTemp_reg.mp h, rfl⟩)⟩
    | virtual b n => exact ⟨_, tempIndex_eq_ok.mpr (.inr ⟨n, rfl, hasTemp_virtual.mp h, rfl⟩)⟩

theorem exists_slotIndex {s : SlotId} : (∃ i, slotIndex c s = .ok i) ↔ s.index < c.slots.size := by
  simp [slotIndex_eq_ok]

/-- What a universe consists of in a unit: the temporaries of its bank that exist, or the slots. -/
def Owns (c : Code) : (u : Universe) → u.Entity → Prop
  | .temps b, t => Temp.bank t = b ∧ c.allocated.HasTemp t
  | .slots, s => SlotId.index s < c.slots.size

theorem exists_indexOf {u : Universe} {e : u.Entity} :
    (∃ i, u.indexOf c e = .ok i) ↔ u.Owns c e := by
  cases u with
  | temps b => exact exists_tempIndex
  | slots => exact exists_slotIndex

/-- Every entity of a list belongs to the unit. -/
def Known (c : Code) (u : Universe) (es : List u.Entity) : Prop :=
  ∀ e ∈ es, ∃ i, u.indexOf c e = .ok i

/-- Only the bank of a temporary is checked against the operand's; a base brings its own. -/
theorem owns_of_namedBy {u : Universe} {o : Operand} {r : Role} {e : u.Entity}
    (h : c.allocated.Admits o) (he : u.NamedBy o r e) : u.Owns c e := by
  unfold Allocated.Admits at h
  cases u with
  | temps b =>
    rcases he with ⟨harg, hbank, -⟩ | ⟨⟨offset, harg⟩, hbank, -⟩
    · rw [harg] at h
      exact ⟨h.1.trans hbank, h.2⟩
    · rw [harg] at h
      exact ⟨hbank, h.2⟩
  | slots =>
    rw [he.1] at h
    exact h

theorem known_named {u : Universe} {i : Inst} (h : ∀ o ∈ i.operands, c.allocated.Admits o)
    (kind : Role → Bool) : u.Known c (u.named kind i) := by
  intro e he
  obtain ⟨o, ho, r, hnamed, -⟩ := mem_named.mp he
  exact exists_indexOf.mpr (owns_of_namedBy (h o ho) hnamed)

theorem tempIndex_tempAt {b : Bank} {t : Temp} {i : Nat} (h : tempAt c b i = .ok t) :
    tempIndex c b t = .ok i := by
  have hregs : c.registerCount b < UInt8.size := UInt8.toNat_lt _
  have htemps : c.tempCount b < UInt32.size := UInt32.toNat_lt _
  unfold tempAt at h
  split at h
  · rename_i hi
    cases h
    have hn : Reg.index ⟨b, UInt8.ofNat i⟩ = i := UInt8.toNat_ofNat_of_lt' (by omega)
    exact tempIndex_eq_ok.mpr (.inl ⟨_, rfl, rfl, hn.symm ▸ hi, hn⟩)
  · split at h
    · rename_i hi hlt
      cases h
      rw [size] at hlt
      have hn : (UInt32.ofNat (i - c.registerCount b)).toNat = i - c.registerCount b :=
        UInt32.toNat_ofNat_of_lt' (by omega)
      exact tempIndex_eq_ok.mpr (.inr ⟨_, rfl, by omega, by omega⟩)
    · cases h

theorem slotIndex_slotAt {s : SlotId} {i : Nat} (hs : c.slots.size ≤ UInt32.size)
    (h : slotAt c i = .ok s) : slotIndex c s = .ok i := by
  unfold slotAt at h
  split at h
  · rename_i hi
    cases h
    have hn : SlotId.index ⟨UInt32.ofNat i⟩ = i :=
      UInt32.toNat_ofNat_of_lt' (Nat.lt_of_lt_of_le hi hs)
    exact slotIndex_eq_ok.mpr ⟨hn.symm ▸ hi, hn⟩
  · cases h

/-- The index leads back to the entity and, as long as a slot number holds every slot, the entity to
the index. -/
theorem indexOf_entityAt {u : Universe} {e : u.Entity} {i : Nat} (hs : c.slots.size ≤ UInt32.size)
    (h : u.entityAt c i = .ok e) : u.indexOf c e = .ok i := by
  cases u with
  | temps b => exact tempIndex_tempAt h
  | slots => exact slotIndex_slotAt hs h

theorem indexOf_inj {u : Universe} {e e' : u.Entity} {i : Nat} (h : u.indexOf c e = .ok i)
    (h' : u.indexOf c e' = .ok i) : e = e' := by
  have he := entityAt_indexOf h
  rw [entityAt_indexOf h'] at he
  cases he
  rfl

theorem exists_entityAt {u : Universe} {i : Nat} (h : i < u.size c) :
    ∃ e, u.entityAt c i = .ok e := by
  cases u with
  | temps b =>
    simp only [entityAt, tempAt]
    by_cases hi : i < c.registerCount b
    · exact ⟨_, if_pos hi⟩
    · exact ⟨_, by rw [if_neg hi, if_pos h]⟩
  | slots => exact ⟨_, if_pos h⟩

/-- A list of indices of the universe names as many entities, those with an index in the list. -/
theorem mapM_entityAt {u : Universe} (hs : c.slots.size ≤ UInt32.size) {is : List Nat}
    (h : ∀ i ∈ is, i < u.size c) :
    ∃ es, is.mapM (u.entityAt c) = .ok es ∧ ∀ e, e ∈ es ↔ ∃ i ∈ is, u.indexOf c e = .ok i := by
  induction is with
  | nil => exact ⟨[], rfl, by simp⟩
  | cons i is ih =>
    obtain ⟨e, he⟩ := exists_entityAt (h i (by simp))
    obtain ⟨es, hes, hmem⟩ := ih fun j hj => h j (by simp [hj])
    refine ⟨e :: es, ?_, fun e' => ?_⟩
    · rw [List.mapM_cons, he, hes]
      rfl
    · simp only [List.mem_cons, hmem, exists_eq_or_imp]
      constructor
      · rintro (rfl | h')
        · exact .inl (indexOf_entityAt hs he)
        · exact .inr h'
      · rintro (h' | h')
        · have := entityAt_indexOf h'
          rw [he] at this
          exact .inl (by simpa using this.symm)
        · exact .inr h'

end Universe

/-! ## Around a block -/

namespace Code.WellFormed

variable {c : Code} {b : Block} {k : Nat}

theorem block_id (h : c.WellFormed) (hb : c.blocks[k]? = some b) : b.id.index = k := h.ids k b hb

theorem exists_last (h : c.WellFormed) (hb : c.blocks[k]? = some b) :
    ∃ last, b.insts.back? = some last := by
  obtain ⟨⟨last, hl, -⟩, -, -, -⟩ := h.blocks b (Array.mem_of_getElem? hb)
  exact ⟨last, by rw [← Array.getLast?_toList, hl]⟩

theorem known (h : c.WellFormed) {u : Universe} (hb : c.blocks[k]? = some b) {i : Inst}
    (hi : i ∈ b.insts) (kind : Role → Bool) : u.Known c (u.named kind i) :=
  Universe.known_named
    ((h.blocks b (Array.mem_of_getElem? hb)).operands_admitted i (Array.mem_toList_iff.mpr hi)) kind

theorem successor_exists (h : c.WellFormed) (hb : c.blocks[k]? = some b) {s : BlockId}
    (hs : s ∈ b.successors) : ∃ b', c.blocks[s.index]? = some b' := by
  have := (h.blocks b (Array.mem_of_getElem? hb)).successors_exist s hs
  exact ⟨_, Array.getElem?_eq_getElem this⟩

/-- The predecessors of a block are the blocks with an edge to it. -/
theorem edge_iff_predecessor (h : c.WellFormed) (hb : c.blocks[k]? = some b) {j : Nat} :
    c.Edge j k ↔ ∃ p ∈ b.predecessors, p.index = j := by
  have hid := h.block_id hb
  constructor
  · rintro ⟨a, ha, s, hs, hsk⟩
    have hsid : s = b.id := BlockId.index_inj.mp (hsk.trans hid.symm)
    refine ⟨a.id, ?_, h.block_id ha⟩
    rw [h.mem_predecessors b (Array.mem_of_getElem? hb)]
    exact ⟨a, Array.mem_of_getElem? ha, rfl, hsid ▸ hs⟩
  · rintro ⟨p, hp, rfl⟩
    rw [h.mem_predecessors b (Array.mem_of_getElem? hb)] at hp
    obtain ⟨a, ha, rfl, hs⟩ := hp
    obtain ⟨j, hj⟩ := Array.mem_iff_getElem?.mp ha
    exact ⟨a, by rw [h.block_id hj]; exact hj, b.id, hs, hid⟩

theorem predecessor_lt (h : c.WellFormed) (hb : c.blocks[k]? = some b) {p : BlockId}
    (hp : p ∈ b.predecessors) : p.index < c.blocks.size := by
  obtain ⟨a, ha, -⟩ := (h.edge_iff_predecessor hb).mpr ⟨p, hp, rfl⟩
  exact (Array.getElem?_eq_some_iff.mp ha).1

end Code.WellFormed

end MachineLiveness
