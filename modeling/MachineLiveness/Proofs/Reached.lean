import MachineLiveness.Proofs.Cut

/-!
Every draft is what some history leaves. As long as a draft holds anything, there is a step that came
last (`empty_or_lastStep`): undone, it leaves a draft that holds one thing less. So to speak of every
draft is to speak of every history, and of nothing that cannot be built.
-/

namespace MachineLiveness.Draft

variable {d : Draft}

theorem eq_of_sameStock {d d' : Draft} (h : SameStock d d') (hblocks : d'.blocks = d.blocks) :
    d' = d := by
  cases d
  cases d'
  simp only [mk.injEq]
  exact ⟨h.registers, hblocks, h.temps, h.slots⟩

/-! ## The last step -/

/-- How many steps a block holds. -/
def heldBy (b : DraftBlock) : Nat := b.insts.size + b.successors.length + 1

/-- How many steps a draft holds. -/
def held (d : Draft) : Nat :=
  (d.temps.get .gp).toNat + (d.temps.get .fp).toNat + d.slots.size
    + d.blocks.foldl (fun n b => n + heldBy b) 0

/-- A step that may have been the last: before it the draft held one thing less. -/
structure LastStep (d₀ d : Draft) (s : Step) : Prop where
  registers : d₀.registers = d.registers
  held : d₀.held + 1 = d.held
  performed : ∃ issued, d₀.perform s = (.ok issued, d)

theorem exists_lastStep_addTemp {b : Bank} (h : d.temps.get b ≠ 0) :
    ∃ d₀, LastStep d₀ d (.addTemp b) := by
  have hnext : d.temps.get b - 1 + 1 = d.temps.get b := by simp
  have hset : (d.temps.set b (d.temps.get b - 1)).set b (d.temps.get b) = d.temps :=
    PerBank.ext_get fun b' => by
      by_cases hb : b = b'
      · simp [PerBank.get_set, hb]
      · simp [PerBank.get_set, hb]
  refine ⟨{ d with temps := d.temps.set b (d.temps.get b - 1) }, rfl, ?_,
    .temp (.virtual b (d.temps.get b - 1)), ?_⟩
  · have hnum : (d.temps.get b - 1).toNat + 1 = (d.temps.get b).toNat := by
      have hpos : (1 : UInt32) ≤ d.temps.get b := by
        rw [UInt32.le_iff_toNat_le]
        exact Nat.pos_of_ne_zero fun h0 => h (UInt32.toNat_inj.mp h0)
      rw [UInt32.toNat_sub_of_le _ _ hpos]
      exact Nat.sub_add_cancel hpos
    cases b with
    | gp =>
      simp only [held, PerBank.get_set, if_true, reduceCtorEq, if_false]
      omega
    | fp =>
      simp only [held, PerBank.get_set, if_true, reduceCtorEq, if_false]
      omega
  · simp [perform, perform.issue, addTemp, PerBank.get_set, hset, h]

theorem exists_lastStep_addSlot (h : d.slots.size ≠ 0) :
    ∃ d₀ s, LastStep d₀ d (.addSlot s) := by
  obtain ⟨slots, s, hslots⟩ := Array.eq_push_of_size_ne_zero h
  have hroom : slots.size < UInt32.size := by
    have := d.slots_le
    rw [hslots, Array.size_push] at this
    exact this
  refine ⟨{ d with slots := slots, slots_le := Nat.le_of_lt hroom }, s, rfl, ?_,
    .slot ⟨UInt32.ofNat slots.size⟩, ?_⟩
  · simp only [held, hslots, Array.size_push]
    omega
  · simp only [perform, addSlot, dif_pos hroom, perform.issue]
    exact congrArg _ (eq_of_sameStock ⟨rfl, rfl, hslots.symm⟩ rfl)

section LastBlock

variable {blocks : Array DraftBlock} {b : DraftBlock}

theorem held_of_push (h : d.blocks = blocks.push b) :
    d.held = (d.temps.get .gp).toNat + (d.temps.get .fp).toNat + d.slots.size
      + blocks.foldl (fun n b => n + heldBy b) 0 + heldBy b := by
  simp [held, h, Nat.add_assoc]

/-- An edit of the last block undone. -/
theorem exists_lastStep_edit (h : d.blocks = blocks.push b) (b₀ : DraftBlock)
    (edit : DraftBlock → DraftBlock) (s : Step) (hedit : edit b₀ = b)
    (hheld : heldBy b₀ + 1 = heldBy b)
    (hs : ∀ d₀ d' : Draft, d₀.editBlock (.ofIndex blocks.size) edit = .ok d' →
      d₀.perform s = (.ok .nothing, d')) : ∃ d₀, LastStep d₀ d s := by
  have hle : blocks.size + 1 ≤ UInt32.size := by
    have := d.blocks_le
    rwa [h, Array.size_push] at this
  have hindex : (BlockId.ofIndex blocks.size).index = blocks.size := BlockId.index_ofIndex hle
  let d₀ : Draft := { d with blocks := blocks.push b₀, blocks_le := by rwa [Array.size_push] }
  obtain ⟨d', hd', hstock, hblocks⟩ := exists_editBlock (d := d₀) (x := .ofIndex blocks.size)
    (by rw [hindex, Array.size_push]; exact Nat.lt_succ_self _) edit
  have heq : d' = d := by
    refine eq_of_sameStock ⟨hstock.registers, hstock.temps, hstock.slots⟩ ?_
    refine Array.ext_getElem? fun j => ?_
    rw [hblocks, hindex, h, Array.getElem?_push, Array.getElem?_push]
    by_cases hj : blocks.size = j
    · simp [hj, hedit]
    · simp [hj, Ne.symm hj]
  refine ⟨d₀, rfl, ?_, .nothing, hs d₀ d (heq ▸ hd')⟩
  rw [held_of_push h, held_of_push (d := d₀) rfl, ← hheld]
  rfl

end LastBlock

theorem exists_lastStep_block (h : d.blocks.size ≠ 0) : ∃ d₀ s, LastStep d₀ d s := by
  obtain ⟨blocks, b, hb⟩ := Array.eq_push_of_size_ne_zero h
  obtain ⟨insts, successors⟩ := b
  by_cases hsuccessors : successors.length = 0
  · by_cases hinsts : insts.size = 0
    · cases List.length_eq_zero_iff.mp hsuccessors
      cases Array.size_eq_zero_iff.mp hinsts
      have hle : blocks.size + 1 ≤ UInt32.size := by
        have := d.blocks_le
        rwa [hb, Array.size_push] at this
      refine ⟨{ d with blocks := blocks, blocks_le := Nat.le_of_lt hle }, .addBlock, rfl, ?_,
        .block (.ofIndex blocks.size), ?_⟩
      · rw [held_of_push hb]
        rfl
      · simp only [perform, addBlock, dif_pos (show blocks.size < UInt32.size from hle),
          perform.issue]
        exact congrArg _ (eq_of_sameStock ⟨rfl, rfl, rfl⟩ hb.symm)
    · obtain ⟨before, i, rfl⟩ := Array.eq_push_of_size_ne_zero hinsts
      obtain ⟨d₀, hd₀⟩ := exists_lastStep_edit hb ⟨before, successors⟩
        (fun block => { block with insts := block.insts.push i })
        (.push (.ofIndex blocks.size) i) rfl (by simp [heldBy]; omega)
        fun d₀ d' hd' => by rw [perform, push, hd']; rfl
      exact ⟨d₀, _, hd₀⟩
  · obtain ⟨before, target, rfl⟩ :=
      (List.eq_nil_or_concat successors).resolve_left fun h => hsuccessors (by rw [h]; rfl)
    rw [List.concat_eq_append] at hb
    obtain ⟨d₀, hd₀⟩ := exists_lastStep_edit hb ⟨insts, before⟩
      (fun block => { block with successors := block.successors ++ [target] })
      (.addSuccessor (.ofIndex blocks.size) target) rfl (by simp [heldBy]; omega)
      fun d₀ d' hd' => by rw [perform, addSuccessor, hd']; rfl
    exact ⟨d₀, _, hd₀⟩

/-- A draft holds nothing, or some step was the last. -/
theorem empty_or_lastStep (d : Draft) : d = empty d.registers ∨ ∃ d₀ s, LastStep d₀ d s := by
  by_cases hgp : d.temps.get .gp = 0
  · by_cases hfp : d.temps.get .fp = 0
    · by_cases hslots : d.slots.size = 0
      · by_cases hblocks : d.blocks.size = 0
        · refine .inl (eq_of_sameStock ⟨rfl, PerBank.ext_get fun b => ?_, ?_⟩ ?_)
          · cases b with
            | gp => exact hgp
            | fp => exact hfp
          · exact Array.size_eq_zero_iff.mp hslots
          · exact Array.size_eq_zero_iff.mp hblocks
        · exact .inr (exists_lastStep_block hblocks)
      · exact .inr ((exists_lastStep_addSlot hslots).imp fun _ ⟨s, h⟩ => ⟨_, h⟩)
    · exact .inr ((exists_lastStep_addTemp hfp).imp fun _ h => ⟨_, h⟩)
  · exact .inr ((exists_lastStep_addTemp hgp).imp fun _ h => ⟨_, h⟩)

/-! ## Histories -/

/-- Every draft is what some history leaves. -/
theorem exists_history (d : Draft) : ∃ ss, ((empty d.registers).performAll ss).2 = d := by
  rcases d.empty_or_lastStep with hempty | ⟨d₀, s, hlast⟩
  · exact ⟨[], hempty.symm⟩
  · obtain ⟨ss, hss⟩ := d₀.exists_history
    obtain ⟨issued, hs⟩ := hlast.performed
    refine ⟨ss ++ [s], ?_⟩
    rw [performAll_append, ← hlast.registers, hss, performAll_cons, hs, performAll_nil]
termination_by d.held
decreasing_by
  have := hlast.held
  omega

end MachineLiveness.Draft
