import MachineLiveness.Cursor
import MachineLiveness.Proofs.Equations
import MachineLiveness.Proofs.IndexSet

/-!
What a cursor shows. Over a block whose entities all have indices, moving above an instruction never
stops, and it changes the live set as `Sets.through` changes sets; so a cursor that has passed the
instructions from the last one down to `i` shows `Sets.liveAt`, and at the head `Sets.headOf`.
-/

namespace MachineLiveness

/-- What is live just above position `i` of a block with this tail. -/
def Sets.liveAt (c : Code) (u : Universe) (b : Block) (tail : Indices) (i : Nat) : Indices :=
  above c u tail (indices c u (Cursor.lateAbove u b i)) (b.insts.toList.drop i)

/-- Every entity that an instruction of the block names belongs to the unit. -/
def Block.Known (c : Code) (u : Universe) (b : Block) : Prop :=
  ∀ i ∈ b.insts, ∀ kind, u.Known c (u.named kind i)

theorem Code.WellFormed.block_known {c : Code} (h : c.WellFormed) (u : Universe) {b : Block}
    {k : Nat} (hb : c.blocks[k]? = some b) : b.Known c u := fun _ hi kind => h.known hb hi kind

namespace Cursor

variable {c : Code} {u : Universe}

/-! ## Across one instruction -/

theorem indices_cons {e : u.Entity} {es : List u.Entity} {i : Nat} (h : u.indexOf c e = .ok i) :
    Sets.indices c u (e :: es) = i :: Sets.indices c u es := by
  simp [Sets.indices, h, Except.toOption]

/-- An operation on the index of each entity in turn is one on all their indices. -/
theorem alter_eq {f : IndexSet → Nat → IndexSet} (hf : ∀ s i, (f s i).bound = s.bound)
    {live : IndexSet} {es : List u.Entity} (hb : live.bound = u.size c) (he : u.Known c es) :
    alter c u f live es = .ok ((Sets.indices c u es).foldl f live) := by
  induction es generalizing live with
  | nil => rfl
  | cons e es ih =>
    obtain ⟨i, hi⟩ := he e (by simp)
    have hlt : i < live.bound := hb ▸ Universe.lt_size_of_indexOf hi
    have hstep : (do let i ← u.indexOf c e; live.guarded i (f live i)) = .ok (f live i) := by
      rw [hi]
      exact IndexSet.guarded_of_lt hlt
    have hrest := ih ((hf live i).trans hb) fun e he' => he e (by simp [he'])
    rw [indices_cons hi, List.foldl_cons, ← hrest, alter, List.foldlM_cons, hstep]
    rfl

theorem kill_eq {live : IndexSet} {es : List u.Entity} (hb : live.bound = u.size c)
    (he : u.Known c es) :
    kill c u live es = .ok ((Sets.indices c u es).foldl IndexSet.erase live) :=
  alter_eq IndexSet.bound_erase hb he

theorem gen_eq {live : IndexSet} {es : List u.Entity} (hb : live.bound = u.size c)
    (he : u.Known c es) :
    gen c u live es = .ok ((Sets.indices c u es).foldl IndexSet.insert live) :=
  alter_eq IndexSet.bound_insert hb he

theorem transfer_shows {inst : Inst} {late : List u.Entity} {live : IndexSet}
    (hb : live.bound = u.size c) (hi : ∀ kind, u.Known c (u.named kind inst))
    (hl : u.Known c late) :
    ∃ live', transfer c u inst late live = .ok live' ∧ live'.bound = u.size c ∧
      ∀ below, live.Shows below →
        live'.Shows (Sets.through c u inst (Sets.indices c u late) below) := by
  have hlt (es : List u.Entity) {s : IndexSet} (hs : s.bound = u.size c) :
      ∀ i ∈ Sets.indices c u es, i < s.bound := by
    intro i hi
    rw [hs]
    exact Sets.lt_size_of_mem_indices hi
  have hkill := kill_eq hb (hi Role.isDefine)
  have hb₁ :=
    (IndexSet.bound_foldl IndexSet.bound_erase live (Sets.indices c u (u.defines inst))).trans hb
  have hearly := gen_eq hb₁ (hi Role.isEarlyUse)
  have hb₂ :=
    (IndexSet.bound_foldl IndexSet.bound_insert _ (Sets.indices c u (u.earlyUses inst))).trans hb₁
  have hlate := gen_eq hb₂ hl
  have hb₃ := (IndexSet.bound_foldl IndexSet.bound_insert _ (Sets.indices c u late)).trans hb₂
  refine ⟨_, ?_, hb₃, fun below hbelow x => ?_⟩
  · exact bind_eq_ok.mpr ⟨_, hkill, bind_eq_ok.mpr ⟨_, hearly, hlate⟩⟩
  · rw [IndexSet.mem_foldl_insert (hlt _ hb₂), IndexSet.mem_foldl_insert (hlt _ hb₁),
      IndexSet.mem_foldl_erase, hbelow x, Sets.mem_through]
    constructor
    · rintro ((h | h) | h)
      · exact .inr (.inr h)
      · exact .inr (.inl h)
      · exact .inl h
    · rintro (h | h | h)
      · exact .inr h
      · exact .inl (.inr h)
      · exact .inl (.inl h)

/-! ## Along a block -/

theorem lateAbove_succ {b : Block} {i : Nat} (h : i < b.insts.size) :
    lateAbove u b (i + 1) = u.lateUses b.insts[i] := by
  simp [lateAbove, h]

theorem known_lateAbove {b : Block} (h : b.Known c u) (i : Nat) : u.Known c (lateAbove u b i) := by
  cases i with
  | zero => simp [lateAbove, Universe.Known]
  | succ i =>
    by_cases hi : i < b.insts.size
    · rw [lateAbove_succ hi]
      exact h _ (Array.getElem_mem hi) Role.isLateUse
    · simp [lateAbove, hi, Universe.Known]

theorem liveAt_size (b : Block) (tail : Indices) :
    Sets.liveAt c u b tail b.insts.size = tail := by
  rw [Sets.liveAt, List.drop_of_length_le (by simp)]
  rfl

theorem liveAt_of_lt {b : Block} {tail : Indices} {i : Nat} (h : i < b.insts.size) :
    Sets.liveAt c u b tail i =
      Sets.through c u b.insts[i] (Sets.indices c u (lateAbove u b i))
        (Sets.liveAt c u b tail (i + 1)) := by
  rw [Sets.liveAt, Sets.liveAt, lateAbove_succ h, List.drop_eq_getElem_cons (by simpa using h)]
  simp [Sets.above]

/-- An instruction above the cursor can always be passed. -/
theorem execute_shows {k : Cursor} {i : Nat} (hb : k.live.bound = u.size c)
    (hk : k.block.Known c u) (hi : i < k.position) (hlt : i < k.block.insts.size) :
    ∃ k', k.execute c u i = .ok k' ∧ k'.block = k.block ∧ k'.position = i ∧
      k'.live.bound = u.size c ∧ ∀ below, k.live.Shows below →
        k'.live.Shows (Sets.through c u k.block.insts[i]
          (Sets.indices c u (lateAbove u k.block i)) below) := by
  obtain ⟨live', hl, hb', hs⟩ := transfer_shows hb (hk _ (Array.getElem_mem hlt))
    (known_lateAbove hk i)
  refine ⟨⟨k.block, live', i, Nat.le_of_lt hlt⟩, ?_, rfl, rfl, hb', hs⟩
  rw [execute, dif_pos hi]
  exact map_eq_ok.mpr ⟨live', within_eq_ok.mpr hl, rfl⟩

/-- The cursor has come from the tail to position `i` and shows what is live there. -/
structure Shows (c : Code) (u : Universe) (b : Block) (tail : Indices) (i : Nat) (k : Cursor) :
    Prop where
  block : k.block = b
  position : k.position = i
  bound : k.live.bound = u.size c
  live : k.live.Shows (Sets.liveAt c u b tail i)

theorem executeDown_shows {b : Block} {tail : Indices} (hb : b.Known c u) {i n : Nat} {k : Cursor}
    (hk : Shows c u b tail (i + n) k) :
    ∃ k', k.executeDown c u i n = .ok k' ∧ Shows c u b tail i k' := by
  induction n generalizing k with
  | zero => exact ⟨k, rfl, hk⟩
  | succ n ih =>
    obtain ⟨rfl, hpos, hbound, hlive⟩ := hk
    have hlt : i + n < k.block.insts.size := by
      have := k.position_le
      omega
    obtain ⟨k₁, hstep, hblock, hpos₁, hbound₁, hlive₁⟩ :=
      execute_shows hbound hb (by omega) hlt
    have hshows : Shows c u k.block tail (i + n) k₁ := by
      refine ⟨hblock, hpos₁, hbound₁, ?_⟩
      rw [liveAt_of_lt hlt]
      exact hlive₁ _ hlive
    obtain ⟨k', hrest, hk'⟩ := ih hshows
    exact ⟨k', bind_eq_ok.mpr ⟨k₁, hstep, hrest⟩, hk'⟩

theorem executeTo_shows {b : Block} {tail : Indices} (hb : b.Known c u) {i j : Nat} {k : Cursor}
    (hk : Shows c u b tail j k) (hi : i ≤ j) :
    ∃ k', k.executeTo c u i = .ok k' ∧ Shows c u b tail i k' := by
  have hpos := hk.position
  apply executeDown_shows hb
  rw [hpos, Nat.add_sub_cancel' hi]
  exact hk

theorem start_shows {b : Block} {tail : Indices} {listed : List Nat} {scratch : IndexSet}
    (hs : scratch.bound = u.size c) (ht : ∀ x ∈ tail, x < u.size c)
    (hl : ∀ x, x ∈ listed ↔ x ∈ tail) :
    ∃ k, start c u b listed scratch = .ok k ∧ Shows c u b tail b.insts.size k := by
  have hlt : ∀ i ∈ listed, i < scratch.bound := fun i hi => hs ▸ ht i ((hl i).mp hi)
  have hreset := IndexSet.resetFrom_eq hlt
  have hbound : (listed.foldl IndexSet.insert scratch.clear).bound = u.size c :=
    (IndexSet.bound_foldl IndexSet.bound_insert _ _).trans hs
  refine ⟨⟨b, listed.foldl IndexSet.insert scratch.clear, b.insts.size, Nat.le_refl _⟩, ?_,
    rfl, rfl, hbound, fun x => ?_⟩
  · rw [start, if_pos hs]
    exact bind_eq_ok.mpr ⟨_, faultOnly_eq_ok.mpr hreset, rfl⟩
  · rw [liveAt_size, IndexSet.mem_foldl_insert (s := scratch.clear) hlt, ← hl]
    simp

/-- A cursor that comes up from a tail, listed in any order, shows at the head what is live there. -/
theorem executeAll_shows {b : Block} {tail : Indices} {listed : List Nat} {scratch : IndexSet}
    (hb : b.Known c u) (hs : scratch.bound = u.size c) (ht : ∀ x ∈ tail, x < u.size c)
    (hl : ∀ x, x ∈ listed ↔ x ∈ tail) :
    ∃ k top, start c u b listed scratch = .ok k ∧ faultOnly (k.executeAll c u) = .ok top ∧
      top.live.bound = u.size c ∧ top.live.Shows (Sets.headOf c u b tail) := by
  obtain ⟨k, hk, hshows⟩ := start_shows (b := b) hs ht hl
  obtain ⟨top, htop, htop'⟩ := executeTo_shows hb hshows (Nat.zero_le _)
  exact ⟨k, top, hk, faultOnly_eq_ok.mpr htop, htop'.bound, htop'.live⟩

/-- What a new cursor shows at the head of a block, after it has come up from this tail. -/
def headShown (c : Code) (u : Universe) (b : Block) (tail : Indices) : Except Fault IndexSet := do
  let start ← start c u b tail.toList (.empty (u.size c))
  let top ← faultOnly (start.executeAll c u)
  .ok top.live

theorem headShown_shows {b : Block} {tail : Indices} (hb : b.Known c u)
    (ht : ∀ x ∈ tail, x < u.size c) :
    ∃ live, headShown c u b tail = .ok live ∧ live.Shows (Sets.headOf c u b tail) := by
  obtain ⟨k, top, hk, htop, -, hshows⟩ := executeAll_shows hb (IndexSet.bound_empty (u.size c)) ht
    fun x => Std.ExtTreeSet.mem_toList
  exact ⟨top.live, bind_eq_ok.mpr ⟨k, hk, bind_eq_ok.mpr ⟨top, htop, rfl⟩⟩, hshows⟩

/-- A cursor lists the entities whose indices it shows. -/
theorem exists_entities {k : Cursor} (hs : c.slots.size ≤ UInt32.size)
    (hk : k.live.bound = u.size c) :
    ∃ es, k.entities c u = .ok es ∧ ∀ e, e ∈ es ↔ ∃ x ∈ k.live.toList, u.indexOf c e = .ok x := by
  have hlt : ∀ x ∈ k.live.ascending, x < u.size c :=
    fun x hx => hk ▸ IndexSet.lt_bound (IndexSet.mem_ascending.mp hx)
  obtain ⟨es, hes, hmem⟩ := Universe.mapM_entityAt hs hlt
  refine ⟨es, hes, fun e => ?_⟩
  rw [hmem]
  simp only [IndexSet.mem_ascending]

theorem entities_congr {k k' : Cursor} (h : ∀ x, x ∈ k.live.toList ↔ x ∈ k'.live.toList) :
    k.entities c u = k'.entities c u := by
  rw [entities, entities, IndexSet.ascending_congr h]

end Cursor

end MachineLiveness
