import MachineLiveness.Draft.WellFormed

/-!
What a finished unit can be relied on for. Each check of `Draft.finish` finds nothing exactly when
what it checks is in order, so a draft is accepted exactly when it is well formed; and freezing a well
formed draft gives a well formed unit.
-/

namespace MachineLiveness

/-! ## Well formed, check by check -/

namespace Allocated

variable (a : Allocated)

/-- What no single instruction is to blame for: the block ends as it should, with as many edges as it
should have, and these lead to blocks. -/
structure Framed (insts : List Inst) (successors : List BlockId) : Prop where
  terminated : ∃ last, insts.getLast? = some last ∧
    last.opcode.successorCount? = some successors.length
  successors_exist : ∀ s ∈ successors, s.index < a.blocks

/-- An instruction at a position of a block of some size is in order: it does not end the block early,
and its operands are admitted. -/
structure InOrder (size k : Nat) (i : Inst) : Prop where
  placed : i.isTerminal = true → k + 1 = size
  admitted : ∀ o ∈ i.operands, a.Admits o

theorem blockWellFormed_iff {a : Allocated} {insts : List Inst} {successors : List BlockId} :
    a.BlockWellFormed insts successors ↔ a.Framed insts successors ∧
      ∀ (k : Nat) (i : Inst), insts[k]? = some i → a.InOrder insts.length k i := by
  constructor
  · rintro ⟨ht, hl, hs, ho⟩
    exact ⟨⟨ht, hs⟩, fun k i hi => ⟨hl k i hi, ho i (List.mem_of_getElem? hi)⟩⟩
  · rintro ⟨⟨ht, hs⟩, h⟩
    refine ⟨ht, fun k i hi => (h k i hi).placed, hs, fun i hi => ?_⟩
    obtain ⟨k, hk⟩ := List.mem_iff_getElem?.mp hi
    exact (h k i hk).admitted

end Allocated

/-! ## The checks -/

namespace Draft

variable {d : Draft}

theorem tempDefect?_eq_none {b : BlockId} {k : Nat} {t : Temp} :
    d.tempDefect? b k t = none ↔ d.allocated.HasTemp t := by
  have hregs (c : Bank) : d.allocated.registers.get c = (d.registers.get c).toNat := by
    cases c <;> rfl
  have htemps (c : Bank) : d.allocated.temps.get c = (d.temps.get c).toNat := by
    cases c <;> rfl
  cases t with
  | reg r =>
    by_cases h : r.index < (d.registers.get r.bank).toNat
    · simp [tempDefect?, Allocated.HasTemp, hregs, h]
    · simp [tempDefect?, Allocated.HasTemp, hregs, h]
  | virtual c n =>
    by_cases h : n.toNat < (d.temps.get c).toNat
    · simp [tempDefect?, Allocated.HasTemp, htemps, h]
    · simp [tempDefect?, Allocated.HasTemp, htemps, h]

theorem operandDefect?_eq_none {b : BlockId} {k : Nat} {o : Operand} :
    d.operandDefect? b k o = none ↔ d.allocated.Admits o := by
  unfold operandDefect? Allocated.Admits
  cases o.arg with
  | temp t =>
    by_cases hb : t.bank = o.bank
    · simp [hb, tempDefect?_eq_none]
    · simp [hb]
  | slot s => simp [allocated]
  | imm v => simp
  | addr base offset =>
    by_cases hb : base.bank = .gp
    · simp [hb, tempDefect?_eq_none]
    · simp [hb]

theorem instDefect?_eq_none {b : BlockId} {last k : Nat} {i : Inst} :
    d.instDefect? b last k i = none ↔
      (i.isTerminal = true → k = last) ∧ ∀ o ∈ i.operands, d.allocated.Admits o := by
  unfold instDefect?
  split
  · rename_i h
    simp [h.1, h.2]
  · rename_i h
    rw [List.findSome?_eq_none_iff]
    simp only [operandDefect?_eq_none]
    constructor
    · intro ho
      exact ⟨fun ht => Classical.not_not.mp fun hk => h ⟨ht, hk⟩, ho⟩
    · exact And.right

theorem edgeDefect?_eq_none {b : BlockId} {op : Opcode} {n : Nat} {ss : List BlockId} :
    d.edgeDefect? b op n ss = none ↔ ss.length = n ∧ ∀ s ∈ ss, s.index < d.blocks.size := by
  unfold edgeDefect?
  by_cases h : ss.length = n
  · simp [h]
  · simp [h]

theorem inOrder_iff {id : BlockId} {size k : Nat} {i : Inst} (hk : k < size) :
    d.instDefect? id (size - 1) k i = none ↔ d.allocated.InOrder size k i := by
  rw [instDefect?_eq_none]
  constructor
  · rintro ⟨hplaced, hadmitted⟩
    exact ⟨fun ht => by have := hplaced ht; omega, hadmitted⟩
  · rintro ⟨hplaced, hadmitted⟩
    exact ⟨fun ht => by have := hplaced ht; omega, hadmitted⟩

theorem instDefects_eq_none {id : BlockId} {b : DraftBlock} :
    (b.insts.toList.zipIdx.findSome? fun (i, n) => d.instDefect? id (b.insts.size - 1) n i) = none ↔
      ∀ (k : Nat) (i : Inst), b.insts.toList[k]? = some i →
        d.allocated.InOrder b.insts.toList.length k i := by
  simp only [List.findSome?_eq_none_iff, Prod.forall, List.mk_mem_zipIdx_iff_getElem?,
    Array.length_toList]
  constructor
  · intro h k i hi
    have hk : k < b.insts.size := by simpa using (List.getElem?_eq_some_iff.mp hi).1
    exact (inOrder_iff hk).mp (h i k hi)
  · intro h i k hi
    have hk : k < b.insts.size := by simpa using (List.getElem?_eq_some_iff.mp hi).1
    exact (inOrder_iff hk).mpr (h k i hi)

theorem framed_iff {b : DraftBlock} {last : Inst} {expected : Nat}
    (hlast : b.insts.back? = some last) (hcount : last.opcode.successorCount? = some expected) :
    d.allocated.Framed b.insts.toList b.successors ↔
      b.successors.length = expected ∧ ∀ s ∈ b.successors, s.index < d.blocks.size := by
  rw [← Array.getLast?_toList] at hlast
  constructor
  · rintro ⟨⟨last', hlast', hcount'⟩, hsuccessors⟩
    rw [hlast] at hlast'
    cases hlast'
    rw [hcount] at hcount'
    cases hcount'
    exact ⟨rfl, hsuccessors⟩
  · rintro ⟨rfl, hsuccessors⟩
    exact ⟨⟨last, hlast, hcount⟩, hsuccessors⟩

theorem blockDefect?_eq_none {id : BlockId} {b : DraftBlock} :
    d.blockDefect? id b = none ↔ d.allocated.BlockWellFormed b.insts.toList b.successors := by
  rw [Allocated.blockWellFormed_iff]
  unfold blockDefect?
  cases hlast : b.insts.back? with
  | none =>
    rw [← Array.getLast?_toList] at hlast
    constructor
    · intro h
      cases h
    · rintro ⟨⟨⟨last, hl, -⟩, -⟩, -⟩
      rw [hl] at hlast
      cases hlast
  | some last =>
    cases hcount : last.opcode.successorCount? with
    | none =>
      rw [← Array.getLast?_toList] at hlast
      simp only [hcount]
      constructor
      · intro h
        cases h
      · rintro ⟨⟨⟨last', hl', hcount'⟩, -⟩, -⟩
        rw [hlast] at hl'
        cases hl'
        rw [hcount] at hcount'
        cases hcount'
    | some expected =>
      simp only [hcount, Option.or_eq_none_iff, edgeDefect?_eq_none, instDefects_eq_none,
        framed_iff hlast hcount]

theorem defect?_eq_none : d.defect? = none ↔ d.WellFormed := by
  simp only [defect?, List.findSome?_eq_none_iff, Prod.forall, List.mk_mem_zipIdx_iff_getElem?,
    blockDefect?_eq_none, WellFormed]
  constructor
  · intro h b hb
    obtain ⟨k, hk⟩ := Array.mem_iff_getElem?.mp hb
    exact h b k (by simpa using hk)
  · intro h b k hk
    exact h b (Array.mem_of_getElem? (by simpa using hk))

/-! ## Freezing -/

theorem getElem?_freeze (k : Nat) :
    d.freeze.blocks[k]? = d.blocks[k]?.map fun b =>
      ⟨.ofIndex k, b.insts, b.successors, d.predecessors (.ofIndex k)⟩ := by
  simp [freeze]

theorem allocated_freeze : d.freeze.allocated = d.allocated := by
  simp [Code.allocated, allocated, freeze]

theorem lt_of_block {k : Nat} {b : DraftBlock} (h : d.blocks[k]? = some b) : k < UInt32.size :=
  Nat.lt_of_lt_of_le (Array.getElem?_eq_some_iff.mp h).1 d.blocks_le

theorem mem_predecessors {b p : BlockId} :
    p ∈ d.predecessors b ↔
      ∃ k source, d.blocks[k]? = some source ∧ b ∈ source.successors ∧ p = .ofIndex k := by
  simp only [predecessors, List.mem_filterMap, Prod.exists, List.mk_mem_zipIdx_iff_getElem?,
    Array.getElem?_toList, Option.ite_none_right_eq_some, Option.some.injEq]
  constructor
  · rintro ⟨source, k, hk, hb, rfl⟩
    exact ⟨k, source, hk, hb, rfl⟩
  · rintro ⟨k, source, hk, hb, rfl⟩
    exact ⟨source, k, hk, hb, rfl⟩

theorem predecessors_ascending (b : BlockId) :
    (d.predecessors b).Pairwise fun p q => p.index < q.index := by
  unfold predecessors
  rw [List.pairwise_filterMap]
  have hidx : d.blocks.toList.zipIdx.Pairwise fun x y => x.2 < y.2 := by
    rw [← List.pairwise_map (f := Prod.snd), List.zipIdx_map_snd]
    exact List.pairwise_lt_range'
  refine hidx.imp_of_mem ?_
  rintro ⟨source, j⟩ ⟨source', k⟩ hj hk hlt p hp q hq
  -- The number of an entry survives as an id because there are no more blocks than numbers.
  have hj := lt_of_block (by simpa using List.mk_mem_zipIdx_iff_getElem?.mp hj)
  have hk := lt_of_block (by simpa using List.mk_mem_zipIdx_iff_getElem?.mp hk)
  simp only [Option.ite_none_right_eq_some, Option.some.injEq] at hp hq
  obtain ⟨-, rfl⟩ := hp
  obtain ⟨-, rfl⟩ := hq
  rw [BlockId.index_ofIndex hj, BlockId.index_ofIndex hk]
  exact hlt

theorem predecessors_nodup (b : BlockId) : (d.predecessors b).Nodup :=
  List.nodup_iff_pairwise_ne.mpr <| (predecessors_ascending b).imp fun hlt heq =>
    Nat.ne_of_lt hlt (congrArg BlockId.index heq)

theorem exists_of_getElem?_freeze {k : Nat} {b : Block} (h : d.freeze.blocks[k]? = some b) :
    ∃ source, d.blocks[k]? = some source ∧
      b = ⟨.ofIndex k, source.insts, source.successors, d.predecessors (.ofIndex k)⟩ := by
  rw [getElem?_freeze, Option.map_eq_some_iff] at h
  obtain ⟨source, hsource, rfl⟩ := h
  exact ⟨source, hsource, rfl⟩

theorem exists_of_mem_freeze {b : Block} (h : b ∈ d.freeze.blocks) :
    ∃ k source, d.blocks[k]? = some source ∧
      b = ⟨.ofIndex k, source.insts, source.successors, d.predecessors (.ofIndex k)⟩ := by
  obtain ⟨k, hk⟩ := Array.mem_iff_getElem?.mp h
  exact ⟨k, exists_of_getElem?_freeze hk⟩

theorem wellFormed_freeze (h : d.WellFormed) : d.freeze.WellFormed where
  blocks := by
    intro b hb
    obtain ⟨k, source, hk, rfl⟩ := exists_of_mem_freeze hb
    rw [allocated_freeze]
    exact h source (Array.mem_of_getElem? hk)
  ids := by
    intro k b hk
    obtain ⟨source, hsource, rfl⟩ := exists_of_getElem?_freeze hk
    exact BlockId.index_ofIndex (lt_of_block hsource)
  predecessors_nodup := by
    intro b hb
    obtain ⟨k, source, -, rfl⟩ := exists_of_mem_freeze hb
    exact predecessors_nodup _
  mem_predecessors := by
    intro b hb p
    obtain ⟨k, target, -, rfl⟩ := exists_of_mem_freeze hb
    rw [mem_predecessors]
    constructor
    · rintro ⟨j, source, hj, hs, rfl⟩
      have hm := getElem?_freeze (d := d) j
      rw [hj] at hm
      exact ⟨_, Array.mem_of_getElem? hm, rfl, hs⟩
    · rintro ⟨b, hb, rfl, hs⟩
      obtain ⟨j, source, hj, rfl⟩ := exists_of_mem_freeze hb
      exact ⟨j, source, hj, hs, rfl⟩

theorem wellFormed_of_finish {c : Code} (h : d.finish = .ok c) : c.WellFormed := by
  obtain ⟨hd, rfl⟩ := finish_eq_ok.mp h
  exact wellFormed_freeze (defect?_eq_none.mp hd)

theorem slots_le_of_finish {c : Code} (h : d.finish = .ok c) : c.slots.size ≤ UInt32.size := by
  obtain ⟨-, rfl⟩ := finish_eq_ok.mp h
  exact d.slots_le

/-! ## A unit with loops -/

/-- A block that loops on itself within a larger loop; its operands take every role, and one of them
is an address. -/
def sample : Draft := ((Draft.empty ⟨2, 1⟩).performAll [
  .addTemp .gp, .addTemp .gp, .addTemp .fp, .addSlot ⟨8, .spill⟩,
  .addBlock, .addBlock, .addBlock, .addBlock,
  .push ⟨0⟩ ⟨.move, [.ofTemp (.virtual .gp 0) .define, .ofImm 7]⟩,
  .push ⟨0⟩ ⟨.jump, []⟩,
  .push ⟨1⟩ ⟨.load, [.ofTemp (.virtual .fp 0) .define, ⟨.addr (.virtual .gp 0) 8, .earlyUse, .fp⟩]⟩,
  .push ⟨1⟩ ⟨.add, [.ofTemp (.virtual .gp 1) .useDefine, .ofTemp (.reg ⟨.gp, 0⟩) .scratch]⟩,
  .push ⟨1⟩ ⟨.branch, [.ofTemp (.virtual .gp 1) .lateUse]⟩,
  .push ⟨2⟩ ⟨.store, [⟨.slot ⟨0⟩, .define, .fp⟩, .ofTemp (.virtual .fp 0) .lateUse]⟩,
  .push ⟨2⟩ ⟨.branch, [.ofTemp (.virtual .gp 0) .earlyUse]⟩,
  .push ⟨3⟩ ⟨.ret, [⟨.slot ⟨0⟩, .lateUse, .gp⟩, .ofTemp (.reg ⟨.gp, 1⟩) .earlyUse]⟩,
  .addSuccessor ⟨0⟩ ⟨1⟩, .addSuccessor ⟨1⟩ ⟨1⟩, .addSuccessor ⟨1⟩ ⟨2⟩,
  .addSuccessor ⟨2⟩ ⟨0⟩, .addSuccessor ⟨2⟩ ⟨3⟩]).2

theorem finish_sample : sample.finish = .ok sample.freeze :=
  finish_eq_ok.mpr ⟨by decide +kernel, rfl⟩

end Draft

end MachineLiveness
