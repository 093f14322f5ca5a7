import MachineLiveness.Proofs.Cut

/-!
What a history leaves in a draft. A step that is refused changes nothing; one that goes through appends
to at most one block, either an instruction or an edge. So a block holds the instructions and the
edges of the steps that went through and name it, in the order of the steps.
-/

namespace MachineLiveness.Draft

/-! ## What is appended -/

/-- The instruction that a step appends to a block. -/
def Step.inst? (b : BlockId) : Step → Option Inst
  | .push b' i => if b' = b then some i else none
  | .addTemp _ | .addSlot _ | .addBlock | .addSuccessor _ _ => none

/-- The target of the edge that a step appends to a block. -/
def Step.target? (b : BlockId) : Step → Option BlockId
  | .addSuccessor b' target => if b' = b then some target else none
  | .addTemp _ | .addSlot _ | .addBlock | .push _ _ => none

/-- The steps of a history that go through. -/
def performed (d : Draft) : List Step → List Step
  | [] => []
  | s :: ss =>
    match d.perform s with
    | (.ok _, d') => s :: d'.performed ss
    | (.error _, d') => d'.performed ss

/-- What a block holds so far; one that is not there yet holds nothing. -/
def blockAt (d : Draft) (b : BlockId) : DraftBlock := d.blocks[b.index]?.getD ⟨#[], []⟩

/-! ## One step -/

/-- Every block has grown by what a step appends to it. -/
structure Grown (d d' : Draft) (s : Step) : Prop where
  insts : ∀ b, (d'.blockAt b).insts.toList = (d.blockAt b).insts.toList ++ (s.inst? b).toList
  successors : ∀ b, (d'.blockAt b).successors = (d.blockAt b).successors ++ (s.target? b).toList

variable {d d' : Draft} {s : Step}

theorem grown_of_same (h : d'.blockAt = d.blockAt) (hinst : ∀ b, s.inst? b = none)
    (htarget : ∀ b, s.target? b = none) : Grown d d' s where
  insts := fun b => by rw [h, hinst, Option.toList_none, List.append_nil]
  successors := fun b => by rw [h, htarget, Option.toList_none, List.append_nil]

theorem blockAt_of_addBlock (h : d'.blocks = d.blocks.push ⟨#[], []⟩) : d'.blockAt = d.blockAt := by
  funext b
  rw [blockAt, blockAt, h, Array.getElem?_push]
  split
  · rename_i hb
    rw [hb, Array.getElem?_eq_none (Nat.le_refl _)]
    rfl
  · rfl

theorem editBlock_cases (d : Draft) (x : BlockId) (edit : DraftBlock → DraftBlock) :
    (∃ f, d.editBlock x edit = .error f) ∨ ∃ d', d.editBlock x edit = .ok d' ∧
      ∀ b, d'.blockAt b = if x = b then edit (d.blockAt b) else d.blockAt b := by
  by_cases hx : x.index < d.blocks.size
  · obtain ⟨d', hd', -, hblocks⟩ := exists_editBlock hx edit
    refine .inr ⟨d', hd', fun b => ?_⟩
    simp only [blockAt, hblocks, BlockId.index_inj]
    split
    · rename_i hb
      subst hb
      rw [Array.getElem?_eq_getElem hx]
      rfl
    · rfl
  · exact .inl ⟨_, dif_neg hx⟩

/-- A step is refused, and the draft is as before; or every block grows by what the step appends. -/
def RefusedOrGrown (d : Draft) (s : Step) : Prop :=
  (∃ f, d.perform s = (.error f, d)) ∨ ∃ issued d', d.perform s = (.ok issued, d') ∧ Grown d d' s

/-- A step that edits one block need only be looked at there. -/
theorem refusedOrGrown_of_edit {x : BlockId} {edit : DraftBlock → DraftBlock}
    (hperform : d.perform s =
      perform.issue d (fun _ => .nothing) ((d.editBlock x edit).map ((), ·)))
    (hother : ∀ b, x ≠ b → s.inst? b = none ∧ s.target? b = none)
    (hinst : ∀ block, (edit block).insts.toList = block.insts.toList ++ (s.inst? x).toList)
    (htarget : ∀ block, (edit block).successors = block.successors ++ (s.target? x).toList) :
    d.RefusedOrGrown s := by
  rcases d.editBlock_cases x edit with ⟨f, hf⟩ | ⟨d', hd', hblock⟩
  · exact .inl ⟨f, by rw [hperform, hf]; rfl⟩
  · refine .inr ⟨.nothing, d', by rw [hperform, hd']; rfl, fun b => ?_, fun b => ?_⟩
    · rw [hblock]
      split
      · rename_i hb
        rw [← hb, hinst]
      · rename_i hb
        rw [(hother b hb).1, Option.toList_none, List.append_nil]
    · rw [hblock]
      split
      · rename_i hb
        rw [← hb, htarget]
      · rename_i hb
        rw [(hother b hb).2, Option.toList_none, List.append_nil]

theorem refusedOrGrown (d : Draft) (s : Step) : d.RefusedOrGrown s := by
  cases s with
  | addTemp b =>
    by_cases hfull : d.temps.get b + 1 = 0
    · exact .inl ⟨.tooManyTemps b, by rw [perform, addTemp, if_pos hfull]; rfl⟩
    · refine .inr ⟨_, _, by rw [perform, addTemp, if_neg hfull]; rfl, ?_⟩
      exact grown_of_same rfl (fun _ => rfl) fun _ => rfl
  | addSlot slot =>
    by_cases hroom : d.slots.size < UInt32.size
    · refine .inr ⟨_, _, by rw [perform, addSlot, dif_pos hroom]; rfl, ?_⟩
      exact grown_of_same rfl (fun _ => rfl) fun _ => rfl
    · exact .inl ⟨.tooManySlots, by rw [perform, addSlot, dif_neg hroom]; rfl⟩
  | addBlock =>
    rcases d.addBlock_cases with ⟨hadd, -⟩ | ⟨-, d', hadd, -, hblocks⟩
    · exact .inl ⟨.tooManyBlocks, by rw [perform, hadd]; rfl⟩
    · exact .inr ⟨_, d', by rw [perform, hadd]; rfl,
        grown_of_same (blockAt_of_addBlock hblocks) (fun _ => rfl) fun _ => rfl⟩
  | push x i =>
    exact refusedOrGrown_of_edit rfl (fun b hb => ⟨if_neg hb, rfl⟩)
      (fun block => by simp [Step.inst?]) fun block => by simp [Step.target?]
  | addSuccessor x target =>
    exact refusedOrGrown_of_edit rfl (fun b hb => ⟨rfl, if_neg hb⟩)
      (fun block => by simp [Step.inst?]) fun block => by simp [Step.target?]

/-! ## Histories -/

/-- After a history every block has grown by what the steps that went through append to it. -/
theorem performAll_grown (d : Draft) (ss : List Step) (b : BlockId) :
    ((d.performAll ss).2.blockAt b).insts.toList =
        (d.blockAt b).insts.toList ++ (d.performed ss).filterMap (Step.inst? b) ∧
      ((d.performAll ss).2.blockAt b).successors =
        (d.blockAt b).successors ++ (d.performed ss).filterMap (Step.target? b) := by
  induction ss generalizing d with
  | nil => simp [performAll_nil, performed]
  | cons s ss ih =>
    rcases d.refusedOrGrown s with ⟨f, hf⟩ | ⟨issued, d', hd', hgrown⟩
    · simpa [performAll_cons, performed, hf] using ih d
    · obtain ⟨hinsts, hsuccessors⟩ := ih d'
      rw [hgrown.insts] at hinsts
      rw [hgrown.successors] at hsuccessors
      simp only [performAll_cons, performed, hd', hinsts, hsuccessors, List.filterMap_cons,
        List.append_assoc]
      constructor
      · cases s.inst? b with
        | none => rfl
        | some i => rfl
      · cases s.target? b with
        | none => rfl
        | some target => rfl

end MachineLiveness.Draft
