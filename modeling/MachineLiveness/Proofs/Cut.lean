import MachineLiveness.Draft.Cut
import MachineLiveness.Proofs.Finish

/-!
What cutting a block in two makes of a unit. Unless there is no number left for another block, the
cut gives a draft with one block more (`cut_cases`), which is accepted if the draft before it was: of
the two parts the upper one ends in its new jump and the lower one in the old terminator.
-/

namespace MachineLiveness

/-! ## Well formed parts -/

namespace Allocated.BlockWellFormed

variable {a : Allocated} {insts : List Inst} {successors : List BlockId} {k : Nat}

/-- Room for another block harms no block. -/
theorem addBlock (h : a.BlockWellFormed insts successors) :
    { a with blocks := a.blocks + 1 }.BlockWellFormed insts successors where
  terminated := h.terminated
  terminal_last := h.terminal_last
  successors_exist := fun s hs => Nat.lt_succ_of_lt (h.successors_exist s hs)
  operands_admitted := h.operands_admitted

theorem upper (h : a.BlockWellFormed insts successors) (hk : k < insts.length) {new : BlockId}
    (hnew : new.index < a.blocks) :
    a.BlockWellFormed (insts.take k ++ [⟨.jump, []⟩]) [new] where
  terminated := ⟨⟨.jump, []⟩, by simp, rfl⟩
  terminal_last := by
    intro j i hi hterminal
    have hlength : (insts.take k).length = k := List.length_take_of_le (Nat.le_of_lt hk)
    rcases Nat.lt_or_ge j k with hj | hj
    · rw [List.getElem?_append_left (by omega), List.getElem?_take_of_lt hj] at hi
      have := h.terminal_last j i hi hterminal
      omega
    · have hlt := (List.getElem?_eq_some_iff.mp hi).1
      simp only [List.length_append, List.length_singleton, hlength] at hlt ⊢
      omega
  successors_exist := by
    intro s hs
    rw [List.mem_singleton.mp hs]
    exact hnew
  operands_admitted := by
    intro i hi
    rcases List.mem_append.mp hi with hi | hi
    · exact h.operands_admitted i (List.mem_of_mem_take hi)
    · rw [List.mem_singleton.mp hi]
      intro o ho
      cases ho

theorem lower (h : a.BlockWellFormed insts successors) (hk : k < insts.length) :
    a.BlockWellFormed (insts.drop k) successors where
  terminated := by
    obtain ⟨last, hlast, hcount⟩ := h.terminated
    exact ⟨last, by rw [List.getLast?_drop, if_neg (Nat.not_le.mpr hk), hlast], hcount⟩
  terminal_last := by
    intro j i hi hterminal
    rw [List.getElem?_drop] at hi
    have := h.terminal_last (k + j) i hi hterminal
    rw [List.length_drop]
    omega
  successors_exist := h.successors_exist
  operands_admitted := fun i hi => h.operands_admitted i (List.mem_of_mem_drop hi)

end Allocated.BlockWellFormed

/-! ## The cut draft -/

namespace Draft

variable {d : Draft} {x : BlockId} {source : DraftBlock} {k : Nat}

/-- Two drafts with the same registers, temporaries and slots. -/
structure SameStock (d d' : Draft) : Prop where
  registers : d'.registers = d.registers
  temps : d'.temps = d.temps
  slots : d'.slots = d.slots

theorem SameStock.trans {d d' d'' : Draft} (h : SameStock d d') (h' : SameStock d' d'') :
    SameStock d d'' :=
  ⟨h'.registers.trans h.registers, h'.temps.trans h.temps, h'.slots.trans h.slots⟩

theorem addBlock_cases (d : Draft) :
    d.addBlock = .error .tooManyBlocks ∧ d.blocks.size = UInt32.size ∨
      d.blocks.size < UInt32.size ∧ ∃ d', d.addBlock = .ok (.ofIndex d.blocks.size, d') ∧
        SameStock d d' ∧ d'.blocks = d.blocks.push ⟨#[], []⟩ := by
  unfold addBlock
  split
  · rename_i h
    exact .inr ⟨h, _, rfl, ⟨rfl, rfl, rfl⟩, rfl⟩
  · rename_i h
    exact .inl ⟨rfl, Nat.le_antisymm d.blocks_le (Nat.not_lt.mp h)⟩

theorem exists_editBlock (h : x.index < d.blocks.size) (edit : DraftBlock → DraftBlock) :
    ∃ d', d.editBlock x edit = .ok d' ∧ SameStock d d' ∧
      ∀ j, d'.blocks[j]? = if x.index = j then d.blocks[j]?.map edit else d.blocks[j]? := by
  refine ⟨_, dif_pos h, ⟨rfl, rfl, rfl⟩, fun j => ?_⟩
  rw [Array.getElem?_set]
  split
  · rename_i hj
    subst hj
    rw [Array.getElem?_eq_getElem h, Option.map_some]
  · rfl

/-- The upper part of a cut block: what stands above the cut, and a jump. -/
def upperPart (b : DraftBlock) (k : Nat) (new : BlockId) : DraftBlock :=
  ⟨(b.insts.extract 0 k).push ⟨.jump, []⟩, [new]⟩

/-- The lower part: what stands below, and the edges. -/
def lowerPart (b : DraftBlock) (k : Nat) : DraftBlock :=
  ⟨b.insts.extract k b.insts.size, b.successors⟩

theorem toList_upperPart (b : DraftBlock) (k : Nat) (new : BlockId) :
    (upperPart b k new).insts.toList = b.insts.toList.take k ++ [⟨.jump, []⟩] := by
  simp [upperPart, List.extract_eq_take_drop]

theorem toList_lowerPart (b : DraftBlock) (k : Nat) :
    (lowerPart b k).insts.toList = b.insts.toList.drop k := by
  simp only [lowerPart, Array.toList_extract, List.extract_eq_take_drop]
  exact List.take_of_length_le (by simp)

/-- The draft after a cut: the upper part where the block was, the lower part behind all blocks. -/
structure IsCut (d d' : Draft) (x : BlockId) (source : DraftBlock) (k : Nat) : Prop where
  room : d.blocks.size < UInt32.size
  stock : SameStock d d'
  blocks : ∀ j, d'.blocks[j]? =
    if j = x.index then some (upperPart source k (.ofIndex d.blocks.size))
    else if j = d.blocks.size then some (lowerPart source k) else d.blocks[j]?

theorem cut_cases (hx : d.blocks[x.index]? = some source) (k : Nat) :
    d.cut x k = .error .tooManyBlocks ∧ d.blocks.size = UInt32.size ∨
      ∃ d', d.cut x k = .ok (.ofIndex d.blocks.size, d') ∧ d.IsCut d' x source k := by
  have hentry : entry d.blocks x.index = .ok source := by simp [entry, hx]
  rcases d.addBlock_cases with ⟨hadd, hfull⟩ | ⟨hroom, d₁, hadd, hstock₁, hblocks₁⟩
  · refine .inl ⟨?_, hfull⟩
    simp only [cut, hentry, hadd]
    rfl
  · have hlt : x.index < d.blocks.size := (Array.getElem?_eq_some_iff.mp hx).1
    have hnew : (BlockId.ofIndex d.blocks.size).index = d.blocks.size :=
      BlockId.index_ofIndex hroom
    obtain ⟨d₂, hedit₂, hstock₂, hblocks₂⟩ := exists_editBlock (d := d₁)
      (x := .ofIndex d.blocks.size) (by simp [hnew, hblocks₁]) fun _ => lowerPart source k
    have hlt₂ : x.index < d₂.blocks.size := by
      have := hblocks₂ x.index
      rw [hnew, if_neg (by omega), hblocks₁, Array.getElem?_push, if_neg (by omega), hx] at this
      exact (Array.getElem?_eq_some_iff.mp this).1
    obtain ⟨d₃, hedit₃, hstock₃, hblocks₃⟩ :=
      exists_editBlock hlt₂ fun _ => upperPart source k (.ofIndex d.blocks.size)
    refine .inr ⟨d₃, ?_, hroom, (hstock₁.trans hstock₂).trans hstock₃, fun j => ?_⟩
    · exact bind_eq_ok.mpr ⟨source, hentry, bind_eq_ok.mpr ⟨_, hadd,
        bind_eq_ok.mpr ⟨d₂, hedit₂, bind_eq_ok.mpr ⟨d₃, hedit₃, rfl⟩⟩⟩⟩
    · rw [hblocks₃, hblocks₂, hblocks₁, hnew, Array.getElem?_push]
      by_cases hj : j = x.index
      · simp [hj, hx, Nat.ne_of_gt hlt, Nat.ne_of_lt hlt]
      · by_cases hj' : j = d.blocks.size
        · simp [hj', Nat.ne_of_lt hlt, Nat.ne_of_gt hlt]
        · simp [hj, hj', Ne.symm hj, Ne.symm hj']

namespace IsCut

variable {d' : Draft}

theorem size (h : d.IsCut d' x source k) (hx : x.index < d.blocks.size) :
    d'.blocks.size = d.blocks.size + 1 := by
  have hlast := h.blocks d.blocks.size
  have hend := h.blocks (d.blocks.size + 1)
  rw [if_neg (Nat.ne_of_gt hx), if_pos rfl] at hlast
  rw [if_neg (by omega), if_neg (by omega), Array.getElem?_eq_none (Nat.le_succ _)] at hend
  have := (Array.getElem?_eq_some_iff.mp hlast).1
  have := Array.getElem?_eq_none_iff.mp hend
  omega

theorem allocated (h : d.IsCut d' x source k) (hx : x.index < d.blocks.size) :
    d'.allocated = { d.allocated with blocks := d.allocated.blocks + 1 } := by
  simp [Draft.allocated, h.stock.registers, h.stock.temps, h.stock.slots, h.size hx]

/-- A well formed draft stays so when a block is cut between two of its instructions or above the
first. -/
theorem wellFormed (h : d.IsCut d' x source k) (hd : d.WellFormed)
    (hx : d.blocks[x.index]? = some source) (hk : k < source.insts.size) : d'.WellFormed := by
  have hlt : x.index < d.blocks.size := (Array.getElem?_eq_some_iff.mp hx).1
  have hsource := (hd source (Array.mem_of_getElem? hx)).addBlock
  intro b hb
  rw [h.allocated hlt]
  obtain ⟨j, hj⟩ := Array.mem_iff_getElem?.mp hb
  rw [h.blocks] at hj
  split at hj
  · cases hj
    have hnew : (BlockId.ofIndex d.blocks.size).index < d.blocks.size + 1 := by
      rw [BlockId.index_ofIndex h.room]
      exact Nat.lt_succ_self _
    rw [toList_upperPart]
    exact hsource.upper hk hnew
  · split at hj
    · cases hj
      rw [toList_lowerPart]
      exact hsource.lower hk
    · exact (hd b (Array.mem_of_getElem? hj)).addBlock

end IsCut

end Draft

/-! ## The cut unit -/

/-- A unit before and after a cut above position `k` of a block: the upper part stands in the
block's place and jumps to the lower part, which is the last block and has the edges; nothing else
is different but for predecessors. -/
structure Code.IsCut (c c' : Code) (b : Block) (k : Nat) (upper lower : Block) : Prop where
  registers : c'.registers = c.registers
  temps : c'.temps = c.temps
  slots : c'.slots = c.slots
  size : c'.blocks.size = c.blocks.size + 1
  upper_at : c'.blocks[b.id.index]? = some upper
  upper_id : upper.id = b.id
  upper_insts : upper.insts = (b.insts.extract 0 k).push ⟨.jump, []⟩
  upper_successors : upper.successors = [lower.id]
  lower_at : c'.blocks[c.blocks.size]? = some lower
  lower_id : lower.id.index = c.blocks.size
  lower_insts : lower.insts = b.insts.extract k b.insts.size
  lower_successors : lower.successors = b.successors
  others : ∀ j a, j ≠ b.id.index → c.blocks[j]? = some a → ∃ a', c'.blocks[j]? = some a' ∧
    a'.id = a.id ∧ a'.insts = a.insts ∧ a'.successors = a.successors

namespace Draft

variable {d d' : Draft} {x : BlockId} {source : DraftBlock} {k : Nat} {b : Block}

theorem size_freeze (d : Draft) : d.freeze.blocks.size = d.blocks.size := by simp [freeze]

theorem IsCut.freeze (h : d.IsCut d' x source k) (hx : d.blocks[x.index]? = some source)
    (hb : d.freeze.blocks[x.index]? = some b) :
    ∃ upper lower, lower.id = .ofIndex d.blocks.size ∧
      d.freeze.IsCut d'.freeze b k upper lower := by
  have hlt : x.index < d.blocks.size := (Array.getElem?_eq_some_iff.mp hx).1
  have hid : (BlockId.ofIndex x.index).index = x.index :=
    BlockId.index_ofIndex (Nat.lt_trans hlt h.room)
  have hnew : (BlockId.ofIndex d.blocks.size).index = d.blocks.size :=
    BlockId.index_ofIndex h.room
  rw [getElem?_freeze, hx] at hb
  cases hb
  let whole (j : Nat) (b : DraftBlock) : Block :=
    ⟨.ofIndex j, b.insts, b.successors, d'.predecessors (.ofIndex j)⟩
  refine ⟨whole x.index (upperPart source k (.ofIndex d.blocks.size)),
    whole d.blocks.size (lowerPart source k), rfl, ?_⟩
  constructor
  case registers => exact h.stock.registers
  case temps => exact h.stock.temps
  case slots => exact h.stock.slots
  case size => simp only [size_freeze, h.size hlt]
  case upper_at => simp [getElem?_freeze, hid, h.blocks, whole]
  case lower_at => simp [getElem?_freeze, size_freeze, h.blocks, Nat.ne_of_gt hlt, whole]
  case lower_id => rw [size_freeze]; exact hnew
  case others =>
    intro j a hj ha
    obtain ⟨source', hsource', rfl⟩ := exists_of_getElem?_freeze ha
    have hlast : j ≠ d.blocks.size := Nat.ne_of_lt (Array.getElem?_eq_some_iff.mp hsource').1
    refine ⟨whole j source', ?_, rfl, rfl, rfl⟩
    rw [getElem?_freeze, h.blocks, if_neg (hid ▸ hj), if_neg hlast, hsource']
    rfl
  all_goals rfl

/-- Unless there is no number left for a block, cutting a block of a finished unit gives a draft
that is finished as well. -/
theorem exists_cut {c : Code} (h : d.finish = .ok c) {n : Nat} (hb : c.blocks[n]? = some b)
    (hk : k < b.insts.size) :
    d.cut b.id k = .error .tooManyBlocks ∧ c.blocks.size = UInt32.size ∨
      ∃ d' c' upper lower, d.cut b.id k = .ok (lower.id, d') ∧ d'.finish = .ok c' ∧
        c.IsCut c' b k upper lower := by
  obtain ⟨hd, rfl⟩ := finish_eq_ok.mp h
  have hwell := defect?_eq_none.mp hd
  have hid : b.id.index = n := (wellFormed_freeze hwell).ids n b hb
  subst hid
  obtain ⟨source, hsource, hblock⟩ := exists_of_getElem?_freeze hb
  rcases cut_cases hsource k with ⟨hcut, hfull⟩ | ⟨d', hcut, hiscut⟩
  · exact .inl ⟨hcut, (size_freeze d).trans hfull⟩
  · have hsize : k < source.insts.size := by
      rw [hblock] at hk
      exact hk
    obtain ⟨upper, lower, hlower, hcode⟩ := hiscut.freeze hsource hb
    refine .inr ⟨d', d'.freeze, upper, lower, hlower ▸ hcut, ?_, hcode⟩
    exact finish_eq_ok.mpr ⟨defect?_eq_none.mpr (hiscut.wellFormed hwell hsource hsize), rfl⟩

end Draft

end MachineLiveness
