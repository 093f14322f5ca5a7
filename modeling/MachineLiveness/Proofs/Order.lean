import Mathlib.Data.List.Nodup
import MachineLiveness.Proofs.Reached
import MachineLiveness.Proofs.Record

/-!
The order of lowering is irrelevant. Temporaries of a bank, slots and blocks are each numbered by
their own count, and each block keeps its own instructions and edges. So what a history leaves depends
on how many temporaries and blocks it asks for, on its slots, and on what it appends to each block, but
not on how these steps are mixed.
-/

namespace MachineLiveness.Draft

/-! ## What is numbered -/

/-- The kinds of thing that a draft numbers, each from 0. -/
inductive Kind where
  | temp (b : Bank)
  | slot
  | block
  deriving DecidableEq, Repr

/-- The kind of thing that a step asks for. -/
def Step.kind? : Step → Option Kind
  | .addTemp b => some (.temp b)
  | .addSlot _ => some .slot
  | .addBlock => some .block
  | .push _ _ | .addSuccessor _ _ => none

/-- The slot that a step asks for. -/
def Step.slot? : Step → Option Slot
  | .addSlot s => some s
  | .addTemp _ | .addBlock | .push _ _ | .addSuccessor _ _ => none

/-- The block that a step appends to. -/
def Step.edits? : Step → Option BlockId
  | .push b _ | .addSuccessor b _ => some b
  | .addTemp _ | .addSlot _ | .addBlock => none

namespace Kind

def all : List Kind := [.temp .gp, .temp .fp, .slot, .block]

theorem mem_all (κ : Kind) : κ ∈ all := by
  cases κ with
  | temp b => cases b <;> simp [all]
  | slot => simp [all]
  | block => simp [all]

/-- How many there are in a draft. -/
def count (d : Draft) : Kind → Nat
  | .temp b => (d.temps.get b).toNat
  | .slot => d.slots.size
  | .block => d.blocks.size

/-- How many there can be. How many temporaries there are must be a number itself. -/
def limit : Kind → Nat
  | .temp _ => UInt32.size - 1
  | .slot | .block => UInt32.size

/-- How many a history asks for. -/
def calls (κ : Kind) (ss : List Step) : Nat := (ss.filterMap Step.kind?).count κ

/-- The number of what is handed out, if it is of the kind. -/
def number? : Kind → Issued → Option Nat
  | .temp b, .temp (.virtual b' n) => if b' = b then some n.toNat else none
  | .slot, .slot s => some s.index
  | .block, .block x => some x.index
  | _, _ => none

variable {κ : Kind} {s : Step} {ss : List Step}

theorem calls_cons : κ.calls (s :: ss) = κ.calls ss + if s.kind? = some κ then 1 else 0 := by
  rw [calls, List.filterMap_cons]
  cases s.kind? with
  | none => simp [calls]
  | some κ' => simp [calls, List.count_cons]

theorem calls_temp {b : Bank} : (Kind.temp b).calls ss = ss.count (.addTemp b) := by
  induction ss with
  | nil => rfl
  | cons s ss ih =>
    rw [calls_cons, ih, List.count_cons]
    cases s <;> simp [Step.kind?]

theorem calls_slot : Kind.slot.calls ss = (ss.filterMap Step.slot?).length := by
  induction ss with
  | nil => rfl
  | cons s ss ih =>
    rw [calls_cons, ih]
    cases s <;> simp [Step.kind?, List.filterMap_cons, Step.slot?]

theorem calls_block : Kind.block.calls ss = ss.count .addBlock := by
  induction ss with
  | nil => rfl
  | cons s ss ih =>
    rw [calls_cons, ih, List.count_cons]
    cases s <;> simp [Step.kind?]

end Kind

/-! ## One step -/

variable {d d' : Draft} {s : Step} {ss ts : List Step} {κ : Kind} {n : Nat}

/-- There is a number left for what a step asks for, and the block that it appends to is there. -/
def Heeds (d : Draft) (s : Step) : Prop :=
  (∀ κ, s.kind? = some κ → κ.count d < κ.limit) ∧ ∀ b ∈ s.edits?, b.index < d.blocks.size

theorem heeds_of_kind (hkind : s.kind? = some κ) (hedits : s.edits? = none)
    (h : κ.count d < κ.limit) : d.Heeds s :=
  ⟨fun _ hκ => Option.some.inj (hkind.symm.trans hκ) ▸ h, by simp [hedits]⟩

theorem heeds_of_edits {x : BlockId} (hkind : s.kind? = none) (hedits : s.edits? = some x)
    (h : x.index < d.blocks.size) : d.Heeds s :=
  ⟨by simp [hkind], by simpa [hedits] using h⟩

/-- What a step asks for is handed out under the next number of its kind. -/
structure Allocates (d d' : Draft) (s : Step) (issued : Issued) : Prop where
  registers : d'.registers = d.registers
  count : ∀ κ : Kind, κ.count d' = κ.count d + if s.kind? = some κ then 1 else 0
  number : ∀ κ, κ.number? issued = if s.kind? = some κ then some (κ.count d) else none
  nothing : issued = .nothing ↔ s.kind? = none
  slots : d'.slots.toList = d.slots.toList ++ s.slot?.toList

/-- The last number is never given out. -/
theorem next_eq_zero_iff {n : UInt32} : n + 1 = 0 ↔ ¬ n.toNat < UInt32.size - 1 := by
  have hn : n.toNat < 2 ^ 32 := n.toNat_lt
  have hsize : UInt32.size = 2 ^ 32 := rfl
  rw [← UInt32.toNat_inj, UInt32.toNat_add, UInt32.toNat_one, UInt32.toNat_zero, hsize]
  omega

theorem toNat_next {n : UInt32} (h : n.toNat < UInt32.size - 1) : (n + 1).toNat = n.toNat + 1 := by
  rw [UInt32.toNat_add, UInt32.toNat_one]
  exact Nat.mod_eq_of_lt (Nat.add_lt_of_lt_sub h)

theorem allocates_addTemp {b : Bank} (h : (d.temps.get b).toNat < UInt32.size - 1) :
    ∃ issued d', d.perform (.addTemp b) = (.ok issued, d') ∧
      Allocates d d' (.addTemp b) issued := by
  have hroom : d.temps.get b + 1 ≠ 0 := fun h0 => next_eq_zero_iff.mp h0 h
  refine ⟨_, _, by rw [perform, addTemp, if_neg hroom]; rfl, ?_⟩
  constructor
  case registers => rfl
  case count =>
    intro κ
    cases κ with
    | temp b' =>
      simp only [Kind.count, Step.kind?, PerBank.get_set, Option.some.injEq, Kind.temp.injEq]
      split
      · rename_i hb
        rw [← hb, toNat_next h]
      · rfl
    | slot => rfl
    | block => rfl
  case number =>
    intro κ
    cases κ with
    | temp b' =>
      simp only [Kind.count, Kind.number?, Step.kind?, Option.some.injEq, Kind.temp.injEq]
      split
      · rename_i hb
        rw [← hb]
      · rfl
    | slot => rfl
    | block => rfl
  case nothing => simp [Step.kind?]
  case slots => simp [Step.slot?]

theorem allocates_addSlot {slot : Slot} (h : d.slots.size < UInt32.size) :
    ∃ issued d', d.perform (.addSlot slot) = (.ok issued, d') ∧
      Allocates d d' (.addSlot slot) issued := by
  refine ⟨_, _, by rw [perform, addSlot, dif_pos h]; rfl, ?_⟩
  constructor
  case registers => rfl
  case count =>
    intro κ
    cases κ <;> simp [Kind.count, Step.kind?]
  case number =>
    have hindex : SlotId.index ⟨UInt32.ofNat d.slots.size⟩ = d.slots.size := by
      rw [SlotId.index, UInt32.toNat_ofNat']
      exact Nat.mod_eq_of_lt h
    intro κ
    cases κ <;> simp [Kind.number?, Kind.count, Step.kind?, hindex]
  case nothing => simp [Step.kind?]
  case slots => simp [Step.slot?]

theorem allocates_addBlock (h : d.blocks.size < UInt32.size) :
    ∃ issued d', d.perform .addBlock = (.ok issued, d') ∧ Allocates d d' .addBlock issued := by
  refine ⟨_, _, by rw [perform, addBlock, dif_pos h]; rfl, ?_⟩
  constructor
  case registers => rfl
  case count =>
    intro κ
    cases κ <;> simp [Kind.count, Step.kind?]
  case number =>
    intro κ
    cases κ <;> simp [Kind.number?, Kind.count, Step.kind?, BlockId.index_ofIndex h]
  case nothing => simp [Step.kind?]
  case slots => simp [Step.slot?]

/-- A step that appends to a block allocates nothing. -/
theorem allocates_of_edit {x : BlockId} {edit : DraftBlock → DraftBlock}
    (hperform : d.perform s =
      perform.issue d (fun _ => .nothing) ((d.editBlock x edit).map ((), ·)))
    (hkind : s.kind? = none) (hslot : s.slot? = none) (h : x.index < d.blocks.size) :
    ∃ issued d', d.perform s = (.ok issued, d') ∧ Allocates d d' s issued := by
  refine ⟨_, _, by rw [hperform, editBlock, dif_pos h]; rfl, ?_⟩
  constructor
  case registers => rfl
  case count =>
    intro κ
    cases κ <;> simp [Kind.count, hkind]
  case number =>
    intro κ
    cases κ <;> simp [Kind.number?, hkind]
  case nothing => simp [hkind]
  case slots => simp [hslot]

/-- A step is either heeded or refused, and one that is refused leaves the draft as it was. -/
theorem perform_cases (d : Draft) (s : Step) :
    (d.Heeds s ∧ ∃ issued d', d.perform s = (.ok issued, d') ∧ Allocates d d' s issued) ∨
      ¬ d.Heeds s ∧ ∃ f, d.perform s = (.error f, d) := by
  cases s with
  | addTemp b =>
    by_cases h : (d.temps.get b).toNat < UInt32.size - 1
    · exact .inl ⟨heeds_of_kind rfl rfl h, allocates_addTemp h⟩
    · refine .inr ⟨fun hheeds => h (hheeds.1 _ rfl), .tooManyTemps b, ?_⟩
      rw [perform, addTemp, if_pos (next_eq_zero_iff.mpr h)]
      rfl
  | addSlot slot =>
    by_cases h : d.slots.size < UInt32.size
    · exact .inl ⟨heeds_of_kind rfl rfl h, allocates_addSlot h⟩
    · refine .inr ⟨fun hheeds => h (hheeds.1 _ rfl), .tooManySlots, ?_⟩
      rw [perform, addSlot, dif_neg h]
      rfl
  | addBlock =>
    by_cases h : d.blocks.size < UInt32.size
    · exact .inl ⟨heeds_of_kind rfl rfl h, allocates_addBlock h⟩
    · refine .inr ⟨fun hheeds => h (hheeds.1 _ rfl), .tooManyBlocks, ?_⟩
      rw [perform, addBlock, dif_neg h]
      rfl
  | push x i =>
    by_cases h : x.index < d.blocks.size
    · exact .inl ⟨heeds_of_edits rfl rfl h, allocates_of_edit rfl rfl rfl h⟩
    · refine .inr ⟨fun hheeds => h (hheeds.2 _ rfl), .noEntry d.blocks.size x.index, ?_⟩
      rw [perform, push, editBlock, dif_neg h]
      rfl
  | addSuccessor x target =>
    by_cases h : x.index < d.blocks.size
    · exact .inl ⟨heeds_of_edits rfl rfl h, allocates_of_edit rfl rfl rfl h⟩
    · refine .inr ⟨fun hheeds => h (hheeds.2 _ rfl), .noEntry d.blocks.size x.index, ?_⟩
      rw [perform, addSuccessor, editBlock, dif_neg h]
      rfl

/-! ## Histories -/

/-- What the steps with these answers hand out, in their order. -/
def handedOut (answers : List (Except Fault Issued)) : List Issued :=
  answers.filterMap fun
    | .ok .nothing | .error _ => none
    | .ok issued => some issued

/-- The steps that name no block, or one that is there by then; at first there are `n`. -/
def heeded (n : Nat) : List Step → List Step
  | [] => []
  | s :: ss =>
    if ∀ b ∈ s.edits?, b.index < n then
      s :: heeded (if s.kind? = some .block then n + 1 else n) ss
    else heeded n ss

/-- Only what appends to a block is ever dropped. -/
theorem filterMap_heeded {α : Type} {f : Step → Option α}
    (hf : ∀ s b, s.edits? = some b → f s = none) (n : Nat) (ss : List Step) :
    (heeded n ss).filterMap f = ss.filterMap f := by
  induction ss generalizing n with
  | nil => rfl
  | cons s ss ih =>
    rw [heeded]
    split
    · rw [List.filterMap_cons, List.filterMap_cons, ih]
    · rename_i hdropped
      obtain ⟨b, hb, -⟩ : ∃ b ∈ s.edits?, ¬ b.index < n := by simpa using hdropped
      rw [List.filterMap_cons, hf s b hb, ih]

theorem calls_heeded : κ.calls (heeded n ss) = κ.calls ss := by
  have hkind : ∀ (s : Step) (b : BlockId), s.edits? = some b → s.kind? = none := by
    intro s b hb
    cases s <;> first | rfl | cases hb
  rw [Kind.calls, filterMap_heeded hkind, Kind.calls]

theorem slots_heeded : (heeded n ss).filterMap Step.slot? = ss.filterMap Step.slot? := by
  refine filterMap_heeded (fun s b hb => ?_) n ss
  cases s <;> first | rfl | cases hb

/-- As long as the numbers suffice, the steps that go through are those that do not name a block
which is still to come. -/
theorem performed_eq_heeded (hroom : ∀ κ : Kind, κ.count d + κ.calls ss ≤ κ.limit) :
    d.performed ss = heeded d.blocks.size ss := by
  induction ss generalizing d with
  | nil => rfl
  | cons s ss ih =>
    simp only [Kind.calls_cons] at hroom
    rcases d.perform_cases s with ⟨hheeds, issued, d', hd', halloc⟩ | ⟨hrefused, f, hf⟩
    · have hsize : d'.blocks.size = if s.kind? = some .block then d.blocks.size + 1
          else d.blocks.size := by
        have hcount : d'.blocks.size = d.blocks.size + _ := halloc.count .block
        rw [hcount]
        split <;> rfl
      have hrest : ∀ κ : Kind, κ.count d' + κ.calls ss ≤ κ.limit := by
        intro κ
        have := hroom κ
        rw [halloc.count]
        omega
      rw [heeded, if_pos hheeds.2, ← hsize, ← ih hrest]
      simp only [performed, hd']
    · -- There is a number left for whatever is asked for, so the step names a missing block.
      have hmissing : ¬ ∀ b ∈ s.edits?, b.index < d.blocks.size := by
        refine fun hthere => hrefused ⟨fun κ hκ => ?_, hthere⟩
        have := hroom κ
        rw [if_pos hκ] at this
        omega
      rw [heeded, if_neg hmissing, ← ih fun κ => Nat.le_trans (by omega) (hroom κ)]
      simp only [performed, hf]

/-- What a history leaves and hands out, apart from the blocks. -/
structure Ledger (d : Draft) (ss : List Step) : Prop where
  registers : (d.performAll ss).2.registers = d.registers
  count : ∀ κ : Kind, κ.count (d.performAll ss).2 = κ.count d + κ.calls (d.performed ss)
  slots : (d.performAll ss).2.slots.toList =
    d.slots.toList ++ (d.performed ss).filterMap Step.slot?
  numbers : ∀ κ : Kind, (handedOut (d.performAll ss).1).filterMap κ.number? =
    List.range' (κ.count d) (κ.calls (d.performed ss))
  numbered : ∀ a ∈ handedOut (d.performAll ss).1, ∃ (κ : Kind) (n : Nat), κ.number? a = some n
  repeated : (d.performAll (d.performed ss)).2 = (d.performAll ss).2

theorem Ledger.cons_refused {f : Fault} (hs : d.perform s = (.error f, d))
    (h : Ledger d ss) : Ledger d (s :: ss) := by
  have hperformed : d.performed (s :: ss) = d.performed ss := by simp only [performed, hs]
  have hanswers : handedOut (d.performAll (s :: ss)).1 = handedOut (d.performAll ss).1 := by
    simp only [performAll_cons, hs, handedOut, List.filterMap_cons]
  have hleft : (d.performAll (s :: ss)).2 = (d.performAll ss).2 := by rw [performAll_cons, hs]
  constructor
  case registers => rw [hleft, h.registers]
  case count => simpa only [hleft, hperformed] using h.count
  case slots => rw [hleft, hperformed, h.slots]
  case numbers => simpa only [hanswers, hperformed] using h.numbers
  case numbered => simpa only [hanswers] using h.numbered
  case repeated => rw [hleft, hperformed, h.repeated]

theorem Ledger.cons_heeded {issued : Issued} (hs : d.perform s = (.ok issued, d'))
    (halloc : Allocates d d' s issued) (h : Ledger d' ss) : Ledger d (s :: ss) := by
  have hperformed : d.performed (s :: ss) = s :: d'.performed ss := by simp only [performed, hs]
  have hleft : (d.performAll (s :: ss)).2 = (d'.performAll ss).2 := by rw [performAll_cons, hs]
  have hanswers : handedOut (d.performAll (s :: ss)).1 =
      (if issued = .nothing then [] else [issued]) ++ handedOut (d'.performAll ss).1 := by
    cases issued <;> simp [performAll_cons, hs, handedOut]
  constructor
  case registers => rw [hleft, h.registers, halloc.registers]
  case count =>
    intro κ
    rw [hleft, hperformed, h.count, halloc.count, Kind.calls_cons]
    omega
  case slots =>
    rw [hleft, hperformed, h.slots, halloc.slots, List.append_assoc, List.filterMap_cons]
    cases s.slot? <;> rfl
  case numbers =>
    intro κ
    have hnumber := halloc.number κ
    rw [hanswers, hperformed, List.filterMap_append, h.numbers, halloc.count, Kind.calls_cons]
    by_cases hκ : s.kind? = some κ
    · have hsome : issued ≠ .nothing := fun hnone => by simp [halloc.nothing.mp hnone] at hκ
      rw [if_pos hκ] at hnumber
      simp [hsome, hκ, hnumber, List.range'_succ]
    · rw [if_neg hκ] at hnumber
      simp only [if_neg hκ, Nat.add_zero]
      split <;> simp [hnumber]
  case numbered =>
    rw [hanswers]
    intro a ha
    rcases List.mem_append.mp ha with ha | ha
    · split at ha
      · cases ha
      · rename_i hsome
        obtain ⟨κ, hκ⟩ := Option.ne_none_iff_exists'.mp (mt halloc.nothing.mpr hsome)
        rw [List.mem_singleton.mp ha]
        exact ⟨κ, _, (halloc.number κ).trans (if_pos hκ)⟩
    · exact h.numbered a ha
  case repeated =>
    rw [hperformed, hleft, ← h.repeated]
    rw [performAll_cons, hs]

theorem ledger (d : Draft) (ss : List Step) : Ledger d ss := by
  induction ss generalizing d with
  | nil => constructor <;> simp [performAll_nil, performed, handedOut, Kind.calls]
  | cons s ss ih =>
    rcases d.perform_cases s with ⟨-, issued, d', hd', halloc⟩ | ⟨-, f, hf⟩
    · exact (ih d').cons_heeded hd' halloc
    · exact (ih d).cons_refused hf

/-! ## The same work in another order -/

/-- A draft is no more than its registers, its counts, its slots and what each block holds. -/
theorem eq_of_contents (hregisters : d'.registers = d.registers)
    (hcount : ∀ κ : Kind, κ.count d' = κ.count d) (hslots : d'.slots.toList = d.slots.toList)
    (hblock : ∀ b, d'.blockAt b = d.blockAt b) : d' = d := by
  have htemps : d'.temps = d.temps :=
    PerBank.ext_get fun b => UInt32.toNat_inj.mp (hcount (.temp b))
  refine eq_of_sameStock ⟨hregisters, htemps, Array.toList_inj.mp hslots⟩ ?_
  refine Array.ext (hcount .block) fun i hi' hi => ?_
  have hat := hblock (.ofIndex i)
  rw [blockAt, blockAt, BlockId.index_ofIndex (Nat.lt_of_lt_of_le hi d.blocks_le),
    Array.getElem?_eq_getElem hi', Array.getElem?_eq_getElem hi] at hat
  exact hat

theorem eq_of_toList {b b' : DraftBlock} (hinsts : b'.insts.toList = b.insts.toList)
    (hsuccessors : b'.successors = b.successors) : b' = b := by
  cases b
  cases b'
  simpa using And.intro hinsts hsuccessors

/-- No count is exceeded. -/
def Fits (ss : List Step) : Prop := ∀ κ : Kind, κ.calls ss ≤ κ.limit

instance : Decidable (Fits ss) :=
  decidable_of_iff (∀ κ ∈ Kind.all, κ.calls ss ≤ κ.limit)
    ⟨fun h κ => h κ κ.mem_all, fun h κ _ => h κ⟩

/-- Two histories ask for as many temporaries of each bank, for the same slots and for as many blocks,
and append the same instructions and edges to each block in the same order. What names a block that is
still to come is left out. -/
structure SameWork (ss ts : List Step) : Prop where
  temps : ∀ b, ss.count (.addTemp b) = ts.count (.addTemp b)
  slots : ss.filterMap Step.slot? = ts.filterMap Step.slot?
  blocks : ss.count .addBlock = ts.count .addBlock
  insts : ∀ b, (heeded 0 ss).filterMap (Step.inst? b) = (heeded 0 ts).filterMap (Step.inst? b)
  targets : ∀ b,
    (heeded 0 ss).filterMap (Step.target? b) = (heeded 0 ts).filterMap (Step.target? b)

theorem filterMap_eq_nil_of_edits {α : Type} {f : BlockId → Step → Option α} {b : BlockId}
    (hf : ∀ s, s.edits? ≠ some b → f b s = none) (hb : b ∉ ss.filterMap Step.edits?) :
    ss.filterMap (f b) = [] :=
  List.filterMap_eq_nil_iff.mpr fun s hs =>
    hf s fun hedits => hb (List.mem_filterMap.mpr ⟨s, hs, hedits⟩)

/-- Only the blocks that some step appends to need be looked at. -/
theorem forall_filterMap_eq_iff {α : Type} {f : BlockId → Step → Option α}
    (hf : ∀ s b, s.edits? ≠ some b → f b s = none) :
    (∀ b, ss.filterMap (f b) = ts.filterMap (f b)) ↔
      ∀ b ∈ (ss ++ ts).filterMap Step.edits?, ss.filterMap (f b) = ts.filterMap (f b) := by
  refine ⟨fun h b _ => h b, fun h b => ?_⟩
  by_cases hb : b ∈ (ss ++ ts).filterMap Step.edits?
  · exact h b hb
  · rw [List.filterMap_append, List.mem_append, not_or] at hb
    rw [filterMap_eq_nil_of_edits (hf · b) hb.1, filterMap_eq_nil_of_edits (hf · b) hb.2]

theorem Step.inst?_of_edits {b : BlockId} (h : s.edits? ≠ some b) : s.inst? b = none := by
  cases s with
  | push b' i => exact if_neg fun hb => h (congrArg some hb)
  | _ => rfl

theorem Step.target?_of_edits {b : BlockId} (h : s.edits? ≠ some b) : s.target? b = none := by
  cases s with
  | addSuccessor b' target => exact if_neg fun hb => h (congrArg some hb)
  | _ => rfl

theorem sameWork_iff : SameWork ss ts ↔
    (∀ b ∈ Bank.all, ss.count (.addTemp b) = ts.count (.addTemp b)) ∧
    ss.filterMap Step.slot? = ts.filterMap Step.slot? ∧
    ss.count .addBlock = ts.count .addBlock ∧
    (∀ b ∈ (heeded 0 ss ++ heeded 0 ts).filterMap Step.edits?,
      (heeded 0 ss).filterMap (Step.inst? b) = (heeded 0 ts).filterMap (Step.inst? b)) ∧
    ∀ b ∈ (heeded 0 ss ++ heeded 0 ts).filterMap Step.edits?,
      (heeded 0 ss).filterMap (Step.target? b) = (heeded 0 ts).filterMap (Step.target? b) := by
  rw [← forall_filterMap_eq_iff fun _ _ => Step.inst?_of_edits,
    ← forall_filterMap_eq_iff fun _ _ => Step.target?_of_edits]
  constructor
  · exact fun h => ⟨fun b _ => h.temps b, h.slots, h.blocks, h.insts, h.targets⟩
  · exact fun ⟨htemps, hslots, hblocks, hinsts, htargets⟩ =>
      ⟨fun b => htemps b b.mem_all, hslots, hblocks, hinsts, htargets⟩

instance : Decidable (SameWork ss ts) := decidable_of_iff _ sameWork_iff.symm

theorem SameWork.calls (h : SameWork ss ts) (κ : Kind) : κ.calls ss = κ.calls ts := by
  cases κ with
  | temp b => rw [Kind.calls_temp, Kind.calls_temp, h.temps]
  | slot => rw [Kind.calls_slot, Kind.calls_slot, h.slots]
  | block => rw [Kind.calls_block, Kind.calls_block, h.blocks]

variable {r : RegisterFile}

theorem count_empty (κ : Kind) : κ.count (empty r) = 0 := by
  cases κ with
  | temp b => cases b <;> rfl
  | slot => rfl
  | block => rfl

theorem performed_empty (h : Fits ss) : (empty r).performed ss = heeded 0 ss := by
  refine performed_eq_heeded fun κ => ?_
  rw [count_empty, Nat.zero_add]
  exact h κ

theorem count_of_fits (h : Fits ss) (κ : Kind) :
    κ.count ((empty r).performAll ss).2 = κ.calls ss := by
  rw [(ledger _ ss).count, performed_empty h, calls_heeded, count_empty, Nat.zero_add]

theorem performAll_eq_of_sameWork (hss : Fits ss) (h : SameWork ss ts) :
    ((empty r).performAll ss).2 = ((empty r).performAll ts).2 := by
  have hts : Fits ts := fun κ => h.calls κ ▸ hss κ
  refine eq_of_contents ?_ (fun κ => ?_) ?_ fun b => ?_
  · rw [(ledger _ ss).registers, (ledger _ ts).registers]
  · rw [count_of_fits hss, count_of_fits hts, h.calls]
  · rw [(ledger _ ss).slots, (ledger _ ts).slots, performed_empty hss, performed_empty hts,
      slots_heeded, slots_heeded, h.slots]
  · obtain ⟨hinsts, hsuccessors⟩ := performAll_grown (empty r) ss b
    obtain ⟨hinsts', hsuccessors'⟩ := performAll_grown (empty r) ts b
    rw [performed_empty hss, h.insts, ← performed_empty (r := r) hts, ← hinsts'] at hinsts
    rw [performed_empty hss, h.targets, ← performed_empty (r := r) hts, ← hsuccessors']
      at hsuccessors
    exact eq_of_toList hinsts hsuccessors

/-- What comes of a history that no count stops: all but the steps that name a block which is still to
come go through, and those change nothing; the things of each kind are numbered from 0 in the order of
the steps, up to the count in the end; and nothing is handed out twice. -/
structure InOrder (r : RegisterFile) (ss : List Step) : Prop where
  performed : (empty r).performed ss = heeded 0 ss
  unchanged : ((empty r).performAll (heeded 0 ss)).2 = ((empty r).performAll ss).2
  count : ∀ κ : Kind, κ.count ((empty r).performAll ss).2 = κ.calls ss
  numbers : ∀ κ : Kind, (handedOut ((empty r).performAll ss).1).filterMap κ.number? =
    List.range (κ.calls ss)
  distinct : (handedOut ((empty r).performAll ss).1).Nodup
  below : ∀ a ∈ handedOut ((empty r).performAll ss).1, ∃ (κ : Kind) (n : Nat),
    κ.number? a = some n ∧ n < κ.count ((empty r).performAll ss).2

theorem inOrder_of_fits (r : RegisterFile) (h : Fits ss) : InOrder r ss := by
  have hledger := ledger (empty r) ss
  have hnumbers : ∀ κ : Kind, (handedOut ((empty r).performAll ss).1).filterMap κ.number? =
      List.range (κ.calls ss) := by
    intro κ
    rw [hledger.numbers, performed_empty h, calls_heeded, count_empty, List.range_eq_range']
  constructor
  case performed => exact performed_empty h
  case unchanged => rw [← performed_empty h, hledger.repeated]
  case count => exact count_of_fits h
  case numbers => exact hnumbers
  case distinct =>
    -- What is handed out twice has its number twice among those of its kind.
    refine List.nodup_iff_sublist.mpr fun a htwice => ?_
    obtain ⟨κ, n, hn⟩ := hledger.numbered a (htwice.subset List.mem_cons_self)
    have hsub := htwice.filterMap κ.number?
    rw [hnumbers, List.filterMap_cons_some hn, List.filterMap_cons_some hn, List.filterMap_nil]
      at hsub
    exact List.nodup_iff_sublist.mp List.nodup_range n hsub
  case below =>
    intro a ha
    obtain ⟨κ, n, hn⟩ := hledger.numbered a ha
    have hmem : n ∈ List.range (κ.calls ss) := hnumbers κ ▸ List.mem_filterMap.mpr ⟨a, ha, hn⟩
    exact ⟨κ, n, hn, by rw [count_of_fits h]; exact List.mem_range.mp hmem⟩

/-- Lowering order is irrelevant: two histories of the same work leave the same draft, so that they
finish alike, and each hands out its temporaries, slots and blocks in order. -/
theorem order_irrelevant (r : RegisterFile) (hss : Fits ss) (h : SameWork ss ts) :
    ((empty r).performAll ss).2.finish = ((empty r).performAll ts).2.finish ∧
      InOrder r ss ∧ InOrder r ts :=
  ⟨by rw [performAll_eq_of_sameWork hss h], inOrder_of_fits r hss,
    inOrder_of_fits r fun κ => h.calls κ ▸ hss κ⟩

/-- A return is pushed on the second block before there is one, and another once there is. -/
def hasty : List Step := [
  .addBlock, .addTemp .gp, .push ⟨1⟩ ⟨.ret, []⟩, .addSuccessor ⟨0⟩ ⟨1⟩, .addSlot ⟨8, .spill⟩,
  .push ⟨0⟩ ⟨.move, [.ofTemp (.virtual .gp 1) .define, .ofTemp (.virtual .gp 0) .earlyUse]⟩,
  .addBlock, .push ⟨1⟩ ⟨.ret, [.ofTemp (.virtual .gp 1) .earlyUse]⟩, .addTemp .fp,
  .push ⟨0⟩ ⟨.jump, []⟩, .addTemp .gp]

/-- The same unit, first allocated and then written from its end. -/
def patient : List Step := [
  .addTemp .fp, .addTemp .gp, .addTemp .gp, .addSlot ⟨8, .spill⟩, .addBlock, .addBlock,
  .push ⟨1⟩ ⟨.ret, [.ofTemp (.virtual .gp 1) .earlyUse]⟩,
  .push ⟨0⟩ ⟨.move, [.ofTemp (.virtual .gp 1) .define, .ofTemp (.virtual .gp 0) .earlyUse]⟩,
  .push ⟨0⟩ ⟨.jump, []⟩, .addSuccessor ⟨0⟩ ⟨1⟩]

theorem order_irrelevant_hasty : Fits hasty ∧ SameWork hasty patient ∧
    ((empty ⟨2, 1⟩).performAll hasty).2.finish = ((empty ⟨2, 1⟩).performAll patient).2.finish ∧
    ((empty ⟨2, 1⟩).performAll hasty).2.finish.isOk = true ∧
    InOrder ⟨2, 1⟩ hasty ∧ InOrder ⟨2, 1⟩ patient := by
  have hfits : Fits hasty := by decide +kernel
  have hwork : SameWork hasty patient := by decide +kernel
  obtain ⟨hfinish, hhasty, hpatient⟩ := order_irrelevant ⟨2, 1⟩ hfits hwork
  exact ⟨hfits, hwork, hfinish, by decide +kernel, hhasty, hpatient⟩

end MachineLiveness.Draft
