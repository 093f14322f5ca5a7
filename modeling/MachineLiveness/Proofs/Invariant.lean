import Mathlib.Data.List.Perm.Subperm
import MachineLiveness.Proofs.Visit
import MachineLiveness.Propagation.Schedule

/-!
What every state of a run over a well formed unit keeps (`Consistent`): tails are what the recorded
heads make them, and a recorded head is a part of what its block would show now, and all of it unless
the block is dirty. So a state without dirty blocks solves the equations of liveness.
-/

namespace MachineLiveness.Propagation

/-- The tables have a row for each block and hold indices of the universe. -/
structure Fits (c : Code) (u : Universe) (p : Propagation) : Prop where
  tails : p.tables.tails.size = c.blocks.size
  heads : p.tables.heads.size = c.blocks.size
  dirty : p.dirty.size = c.blocks.size
  scratch : p.scratch.bound = u.size c
  below : ∀ k, ∀ x ∈ p.tailAt k, x < u.size c

structure Consistent (c : Code) (u : Universe) (p : Propagation) : Prop where
  fits : p.Fits c u
  /-- A tail has the late uses of its terminator and what its successors' heads have. -/
  tail : ∀ k b, c.blocks[k]? = some b → ∀ x,
    x ∈ p.tailAt k ↔ x ∈ Sets.lateAtTail c u b ∨ ∃ s ∈ b.successors, x ∈ p.headAt s.index
  head_nodup : ∀ k, (p.headAt k).Nodup
  /-- What is recorded at a head is there now. -/
  head_sub : ∀ k b, c.blocks[k]? = some b → ∀ x ∈ p.headAt k, x ∈ Sets.headOf c u b (p.tailAt k)
  /-- What is at the head of a clean block is recorded. -/
  head_clean : ∀ k b, c.blocks[k]? = some b → p.dirtyAt k = false →
    ∀ x ∈ Sets.headOf c u b (p.tailAt k), x ∈ p.headAt k
  insertions : p.stats.insertions = p.recorded

variable {c : Code} {u : Universe} {order : Listing} {p q : Propagation} {b : Block} {k : Nat}

/-! ## One visit -/

theorem Fits.tail_eq (hc : c.WellFormed) (h : p.Fits c u) (hb : c.blocks[k]? = some b) :
    p.tables.tail b.id = .ok (p.tailAt k) := by
  have hlt : k < c.blocks.size := (Array.getElem?_eq_some_iff.mp hb).1
  rw [Tables.tail_of_lt (by rw [hc.block_id hb, h.tails]; exact hlt), hc.block_id hb]
  rfl

theorem Fits.head_eq (hc : c.WellFormed) (h : p.Fits c u) (hb : c.blocks[k]? = some b) :
    p.tables.head b.id = .ok (p.headAt k) := by
  have hlt : k < c.blocks.size := (Array.getElem?_eq_some_iff.mp hb).1
  rw [Tables.head_of_lt (by rw [hc.block_id hb, h.heads]; exact hlt), hc.block_id hb]
  rfl

theorem Fits.dirty_eq (hc : c.WellFormed) (h : p.Fits c u) (hb : c.blocks[k]? = some b) :
    entry p.dirty b.id.index = .ok (p.dirtyAt k) := by
  have hlt : k < p.dirty.size := h.dirty ▸ (Array.getElem?_eq_some_iff.mp hb).1
  rw [hc.block_id hb, entry_of_lt hlt]
  simp [dirtyAt, hlt]

theorem tails_eq_of_tailAt (hp : p.Fits c u) (hq : q.Fits c u)
    (h : ∀ k, p.tailAt k = q.tailAt k) : p.tables.tails = q.tables.tails := by
  apply Array.ext (hp.tails.trans hq.tails.symm)
  intro k hk hk'
  have htail := h k
  rw [tailAt_of_lt hk, tailAt_of_lt hk'] at htail
  exact htail

/-- A visit discovers what is at the head of the block and not recorded there; that the counts agree
says that there is nothing of the kind. -/
theorem discover_shows (hc : c.WellFormed) (ho : order.Lawful) (h : Consistent c u p)
    (hb : c.blocks[k]? = some b) :
    ∃ found, p.discover c u order b = .ok found ∧
      ∀ x, x ∈ found.toList ↔ x ∈ Sets.headOf c u b (p.tailAt k) ∧ x ∉ p.headAt k := by
  obtain ⟨start, top, hstart, htop, -, hlive⟩ := Cursor.executeAll_shows (hc.block_known u hb)
    h.fits.scratch (h.fits.below k) ho.mem_iff
  have hsub : p.headAt k ⊆ top.live.toList := fun x hx => (hlive x).mpr (h.head_sub k b hb x hx)
  have hdiscover {found : IndexSet} (hf : (if top.live.size = (p.headAt k).length then
      .ok top.live.clear else faultOnly (top.live.removeAll (p.headAt k))) = .ok found) :
      p.discover c u order b = .ok found :=
    bind_eq_ok.mpr ⟨_, h.fits.tail_eq hc hb, bind_eq_ok.mpr ⟨start, hstart,
      bind_eq_ok.mpr ⟨top, htop, bind_eq_ok.mpr ⟨_, h.fits.head_eq hc hb, hf⟩⟩⟩⟩
  by_cases hcount : top.live.size = (p.headAt k).length
  · have hperm : (p.headAt k).Perm top.live.toList :=
      ((h.head_nodup k).subperm hsub).perm_of_length_le (Nat.le_of_eq hcount)
    refine ⟨_, hdiscover (if_pos hcount), fun x => ?_⟩
    rw [← hlive, ← hperm.mem_iff]
    simp
  · have hremove := IndexSet.removeAll_eq fun i hi => IndexSet.lt_bound (hsub hi)
    refine ⟨_, hdiscover (by rw [if_neg hcount]; exact faultOnly_eq_ok.mpr hremove), fun x => ?_⟩
    rw [IndexSet.mem_foldl_erase, hlive]

/-- What a visit of the block at a position does, in whatever way it finds out what is new there: it
leaves a clean block alone, and of a dirty one it gives what is at the head and not recorded. -/
inductive Explored (c : Code) (u : Universe) (k : Nat) (b : Block) :
    Propagation → Propagation → Prop where
  | clean {p : Propagation} (hd : p.dirtyAt k = false) : Explored c u k b p p
  | dirty {p q : Propagation} (found : List Nat) (hd : p.dirtyAt k = true)
      (hv : Visited c u b found p q)
      (hf : ∀ x, x ∈ found ↔ x ∈ Sets.headOf c u b (p.tailAt k) ∧ x ∉ p.headAt k) :
      Explored c u k b p q

theorem explored_of_visitBy (hc : c.WellFormed) (ho : order.Lawful) (h : Consistent c u p)
    (hb : c.blocks[k]? = some b) (hv : p.visitBy c u order b = .ok q) : Explored c u k b p q := by
  have hid := hc.block_id hb
  rcases visit_cases hv with ⟨hclean, rfl⟩ | ⟨found, hdirty, hfound, hvisited⟩
  · exact .clean (hid ▸ hclean)
  · obtain ⟨found', hfound', hmem⟩ := discover_shows hc ho h hb
    rw [hfound] at hfound'
    cases hfound'
    exact .dirty found.toList (hid ▸ hdirty) hvisited hmem

theorem exists_visitBy_of_consistent (hc : c.WellFormed) (ho : order.Lawful)
    (h : Consistent c u p) (hb : c.blocks[k]? = some b) :
    ∃ q, p.visitBy c u order b = .ok q := by
  have hid := hc.block_id hb
  have hlt : k < c.blocks.size := (Array.getElem?_eq_some_iff.mp hb).1
  obtain ⟨found, hfound, hmem⟩ := discover_shows hc ho h hb
  refine exists_visit ?_ ?_ (fun a ha => ?_) ⟨found, hfound, fun i hi => ?_⟩
  · rw [hid, h.fits.dirty]
    exact hlt
  · rw [hid, h.fits.heads]
    exact hlt
  · rw [h.fits.tails, h.fits.dirty]
    exact ⟨hc.predecessor_lt hb ha, hc.predecessor_lt hb ha⟩
  · rw [hid]
    exact ((hmem i).mp hi).2

theorem explored_of_visit (hc : c.WellFormed) (h : Consistent c u p)
    (hb : c.blocks[k]? = some b) (hv : p.visit c u b = .ok q) : Explored c u k b p q :=
  explored_of_visitBy hc Listing.lawful_ascending h hb hv

theorem exists_visit_of_consistent (hc : c.WellFormed) (h : Consistent c u p)
    (hb : c.blocks[k]? = some b) : ∃ q, p.visit c u b = .ok q :=
  exists_visitBy_of_consistent hc Listing.lawful_ascending h hb

theorem Visited.tail_sub {found : List Nat} (hv : Visited c u b found p q) (k : Nat) :
    ∀ x ∈ p.tailAt k, x ∈ q.tailAt k := fun x hx => (hv.tail k x).mpr (.inl hx)

theorem Visited.head_append {found : List Nat} (hv : Visited c u b found p q) (k : Nat) :
    p.headAt k <+: q.headAt k := by
  rw [hv.head]
  split
  · exact List.prefix_append _ _
  · exact List.prefix_refl _

theorem Visited.mem_headAt {found : List Nat} (hc : c.WellFormed) (hv : Visited c u b found p q)
    (hb : c.blocks[k]? = some b) (j x : Nat) :
    x ∈ q.headAt j ↔ x ∈ p.headAt j ∨ j = k ∧ x ∈ found := by
  rw [hv.head, hc.block_id hb]
  by_cases hj : j = k
  · simp [hj]
  · simp [hj]

/-- The successors' heads grow by what the block gives, and just there its predecessors' tails. -/
theorem Visited.successors {found : List Nat} (hc : c.WellFormed) (hv : Visited c u b found p q)
    (hb : c.blocks[k]? = some b) {j : Nat} {a : Block} (ha : c.blocks[j]? = some a) (x : Nat) :
    (∃ s ∈ a.successors, x ∈ q.headAt s.index) ↔
      (∃ s ∈ a.successors, x ∈ p.headAt s.index) ∨
        (∃ e ∈ b.predecessors, e.index = j) ∧ x ∈ found := by
  simp only [hv.mem_headAt hc hb]
  rw [← hc.edge_iff_predecessor hb]
  constructor
  · rintro ⟨s, hs, hx | ⟨hsk, hx⟩⟩
    · exact .inl ⟨s, hs, hx⟩
    · exact .inr ⟨⟨a, ha, s, hs, hsk⟩, hx⟩
  · rintro (⟨s, hs, hx⟩ | ⟨⟨a', ha', s, hs, hsk⟩, hx⟩)
    · exact ⟨s, hs, .inl hx⟩
    · rw [ha] at ha'
      cases ha'
      exact ⟨s, hs, .inr ⟨hsk, hx⟩⟩

section Found

variable {found : List Nat}

theorem Visited.fits (h : p.Fits c u) (hv : Visited c u b found p q)
    (hf : ∀ x ∈ found, x < u.size c) : q.Fits c u where
  tails := hv.tails_size.trans h.tails
  heads := hv.heads_size.trans h.heads
  dirty := hv.dirty_size.trans h.dirty
  scratch := hv.scratch
  below := by
    intro k x hx
    rcases (hv.tail k x).mp hx with hx | ⟨-, hx⟩
    · exact h.below k x hx
    · exact hf x hx

theorem Visited.head_nodup (hv : Visited c u b found p q) (h : ∀ k, (p.headAt k).Nodup)
    (hf : ∀ x ∈ found, x ∉ p.headAt b.id.index) (k : Nat) : (q.headAt k).Nodup := by
  rw [hv.head]
  split
  · rename_i hk
    refine List.nodup_append.mpr ⟨h k, hv.nodup, ?_⟩
    rintro x hx y hy rfl
    exact hf x hy (hk ▸ hx)
  · exact h k

/-- A clean block's tail did not grow, so what it shows is what it showed before. -/
theorem Visited.head_clean (hc : c.WellFormed) (h : Consistent c u p) (hb : c.blocks[k]? = some b)
    (hv : Visited c u b found p q)
    (hf : ∀ x, x ∈ Sets.headOf c u b (p.tailAt k) → x ∉ p.headAt k → x ∈ found)
    {j : Nat} {a : Block} (ha : c.blocks[j]? = some a) (hclean : q.dirtyAt j = false) :
    ∀ x ∈ Sets.headOf c u a (q.tailAt j), x ∈ q.headAt j := by
  intro x hx
  have hdirty := mt (hv.dirty j).mpr (Bool.eq_false_iff.mp hclean)
  simp only [not_or, not_and, not_exists, Classical.not_not] at hdirty
  have hx := Sets.headOf_mono hdirty.2 x hx
  rw [hv.mem_headAt hc hb]
  by_cases hin : x ∈ p.headAt j
  · exact .inl hin
  · by_cases hj : j = k
    · subst hj
      rw [hb] at ha
      cases ha
      exact .inr ⟨rfl, hf x hx hin⟩
    · have hold := hdirty.1 (hc.block_id hb ▸ hj)
      exact absurd (h.head_clean j a ha (Bool.eq_false_iff.mpr hold) x hx) hin

end Found

theorem consistent_of_explored (hc : c.WellFormed) (h : Consistent c u p)
    (hb : c.blocks[k]? = some b) (he : Explored c u k b p q) : Consistent c u q := by
  rcases he with _ | ⟨found, -, hvisited, hmem⟩
  · exact h
  have hshown : ∀ x ∈ found, x ∈ Sets.headOf c u b (p.tailAt k) := fun x hx => ((hmem x).mp hx).1
  have hnew : ∀ x ∈ found, x ∉ p.headAt b.id.index := by
    rw [hc.block_id hb]
    exact fun x hx => ((hmem x).mp hx).2
  refine ⟨?_, ?_, hvisited.head_nodup h.head_nodup hnew, ?_, ?_, ?_⟩
  · exact hvisited.fits h.fits fun x hx =>
      Sets.lt_size_of_mem_headOf (h.fits.below k) (hshown x hx)
  · intro j a ha x
    rw [hvisited.tail, h.tail j a ha, hvisited.successors hc hb ha, or_assoc]
  · intro j a ha x hx
    apply Sets.headOf_mono (hvisited.tail_sub j) x
    rcases (hvisited.mem_headAt hc hb j x).mp hx with hx | ⟨rfl, hx⟩
    · exact h.head_sub j a ha x hx
    · rw [hb] at ha
      cases ha
      exact hshown x hx
  · intro j a ha hclean
    exact hvisited.head_clean hc h hb (fun x hx hout => (hmem x).mpr ⟨hx, hout⟩) ha hclean
  · rw [hvisited.stats, hvisited.recorded, h.insertions]

theorem consistent_of_visit (hc : c.WellFormed) (h : Consistent c u p) (hb : c.blocks[k]? = some b)
    (hv : p.visit c u b = .ok q) : Consistent c u q :=
  consistent_of_explored hc h hb (explored_of_visit hc h hb hv)

/-! ## The first state -/

/-- What was added to tables: these indices to tails, and no block gained or lost a row. -/
structure Seeded (given : Nat → Nat → Prop) (t t' : Tables) : Prop where
  heads : t'.heads = t.heads
  size : t'.tails.size = t.tails.size
  tail : ∀ k x, x ∈ t'.tailAt k ↔ x ∈ t.tailAt k ∨ given k x

theorem exists_seedEntities {es : List u.Entity} (he : u.Known c es) {t : Tables}
    (hb : b.id.index < t.tails.size) :
    ∃ t', es.foldlM (fun t e => do
        let i ← u.indexOf c e
        let (_, t) ← t.addToTail b.id i
        .ok t) t = .ok t' ∧
      Seeded (fun k x => k = b.id.index ∧ x ∈ Sets.indices c u es) t t' := by
  induction es generalizing t with
  | nil => exact ⟨t, rfl, rfl, rfl, by simp [Sets.indices]⟩
  | cons e es ih =>
    obtain ⟨i, hi⟩ := he e (by simp)
    obtain ⟨t₁, hadd, hheads₁, htails₁⟩ : ∃ t₁, t.addToTail b.id i =
        .ok (!t.tails[b.id.index].contains i, t₁) ∧ t₁.heads = t.heads ∧
          t₁.tails = t.tails.set b.id.index (t.tails[b.id.index].insert i) :=
      ⟨_, dif_pos hb, rfl, rfl⟩
    have htail₁ := Tables.mem_tailAt_of_set hb htails₁
    have hsize₁ : t₁.tails.size = t.tails.size := by simp [htails₁]
    obtain ⟨t', ht', hheads, hsize, htail⟩ :=
      ih (fun e he' => he e (by simp [he'])) (hsize₁ ▸ hb)
    refine ⟨t', ?_, hheads.trans hheads₁, hsize.trans hsize₁, fun k x => ?_⟩
    · rw [List.foldlM_cons, hi, ← ht']
      simp only [bind, Except.bind, hadd]
    · rw [htail, htail₁, Cursor.indices_cons hi, List.mem_cons, and_or_left, or_assoc]

theorem exists_seedBlock (hc : c.WellFormed) (hb : c.blocks[k]? = some b) {t : Tables}
    (ht : t.tails.size = c.blocks.size) :
    ∃ t', seedBlock c u t b = .ok t' ∧
      Seeded (fun j x => j = b.id.index ∧ x ∈ Sets.lateAtTail c u b) t t' := by
  obtain ⟨last, hlast⟩ := hc.exists_last hb
  have hterm : b.terminator = .ok last := by simp [Block.terminator, hlast]
  have hlt : b.id.index < t.tails.size := by
    rw [hc.block_id hb, ht]
    exact (Array.getElem?_eq_some_iff.mp hb).1
  have hmem : last ∈ b.insts := Array.mem_of_back? hlast
  obtain ⟨t', ht', hseeded⟩ := exists_seedEntities (hc.known hb hmem Role.isLateUse) hlt
  refine ⟨t', bind_eq_ok.mpr ⟨last, hterm, ht'⟩, ?_⟩
  have hlate : Sets.lateAtTail c u b = Sets.indices c u (u.lateUses last) := by
    simp [Sets.lateAtTail, hlast]
  rw [hlate]
  exact hseeded

theorem exists_seed (hc : c.WellFormed) :
    ∃ t, seed c u = .ok t ∧ Seeded (fun k x => ∃ b ∈ c.blocks.toList,
      k = b.id.index ∧ x ∈ Sets.lateAtTail c u b) (.empty c.blocks.size) t := by
  have hfold (bs : List Block) (hbs : ∀ b ∈ bs, ∃ k : Nat, c.blocks[k]? = some b) (t : Tables)
      (ht : t.tails.size = c.blocks.size) :
      ∃ t', bs.foldlM (seedBlock c u) t = .ok t' ∧ Seeded (fun k x => ∃ b ∈ bs,
        k = b.id.index ∧ x ∈ Sets.lateAtTail c u b) t t' := by
    induction bs generalizing t with
    | nil => exact ⟨t, rfl, rfl, rfl, by simp⟩
    | cons b bs ih =>
      obtain ⟨k, hk⟩ := hbs b (by simp)
      obtain ⟨t₁, ht₁, hheads₁, hsize₁, htail₁⟩ := exists_seedBlock (u := u) hc hk ht
      obtain ⟨t', ht', hheads, hsize, htail⟩ :=
        ih (fun a ha => hbs a (by simp [ha])) t₁ (hsize₁.trans ht)
      refine ⟨t', ?_, hheads.trans hheads₁, hsize.trans hsize₁, fun k x => ?_⟩
      · rw [List.foldlM_cons]
        exact bind_eq_ok.mpr ⟨t₁, ht₁, ht'⟩
      · rw [htail, htail₁, or_assoc]
        simp only [List.mem_cons, exists_eq_or_imp]
  refine hfold c.blocks.toList (fun b hb => ?_) _ (by simp [Tables.empty])
  exact Array.mem_iff_getElem?.mp (Array.mem_toList_iff.mp hb)

theorem tailAt_empty (n k : Nat) : (Tables.empty n).tailAt k = ∅ := by
  unfold Tables.tailAt Tables.empty
  rw [Array.getElem?_replicate]
  split <;> rfl

theorem headAt_empty (n k : Nat) : (Tables.empty n).headAt k = [] := by
  unfold Tables.headAt Tables.empty
  rw [Array.getElem?_replicate]
  split <;> rfl

theorem begins_exists (hc : c.WellFormed) : ∃ p, Begins c u p := by
  obtain ⟨t, ht, -⟩ := exists_seed (u := u) hc
  exact ⟨_, t, ht, rfl⟩

theorem seeded_of_begins (hc : c.WellFormed) (h : Begins c u p) : ∃ t, p = ofTables c u t ∧
    Seeded (fun k x => ∃ b ∈ c.blocks.toList, k = b.id.index ∧ x ∈ Sets.lateAtTail c u b)
      (.empty c.blocks.size) t := by
  obtain ⟨t, ht, rfl⟩ := h
  obtain ⟨t', ht', hseeded⟩ := exists_seed (u := u) hc
  rw [ht] at ht'
  cases ht'
  exact ⟨t, rfl, hseeded⟩

theorem headAt_of_begins (hc : c.WellFormed) (h : Begins c u p) (k : Nat) : p.headAt k = [] := by
  obtain ⟨t, rfl, hseeded⟩ := seeded_of_begins hc h
  rw [headAt, ← headAt_empty c.blocks.size k, Tables.headAt, ofTables, hseeded.heads,
    Tables.headAt]

theorem mem_tailAt_of_begins (hc : c.WellFormed) (h : Begins c u p)
    (hb : c.blocks[k]? = some b) (x : Nat) : x ∈ p.tailAt k ↔ x ∈ Sets.lateAtTail c u b := by
  obtain ⟨t, rfl, hseeded⟩ := seeded_of_begins hc h
  have hid := hc.block_id hb
  rw [tailAt, ofTables, hseeded.tail, tailAt_empty]
  constructor
  · rintro (hx | ⟨a, ha, hak, hx⟩)
    · exact absurd hx Std.ExtTreeSet.not_mem_empty
    · obtain ⟨j, hj⟩ := Array.mem_iff_getElem?.mp (Array.mem_toList_iff.mp ha)
      rw [hak, hc.block_id hj, hj] at hb
      cases hb
      exact hx
  · intro hx
    exact .inr ⟨b, Array.mem_toList_iff.mpr (Array.mem_of_getElem? hb), hid.symm, hx⟩

theorem fits_of_begins (hc : c.WellFormed) (h : Begins c u p) : p.Fits c u := by
  have htails (k : Nat) (b : Block) (hb : c.blocks[k]? = some b) := mem_tailAt_of_begins hc h hb
  obtain ⟨t, rfl, hseeded⟩ := seeded_of_begins hc h
  have hsize : t.tails.size = c.blocks.size := hseeded.size.trans (by simp [Tables.empty])
  refine ⟨hsize, ?_, by simp [ofTables], rfl, fun k x hx => ?_⟩
  · simp [ofTables, hseeded.heads, Tables.empty]
  · have hk : k < c.blocks.size := hsize ▸ lt_of_mem_tailAt hx
    exact Sets.lt_size_of_mem_lateAtTail ((htails k _ (Array.getElem?_eq_getElem hk) x).mp hx)

theorem consistent_of_begins (hc : c.WellFormed) (h : Begins c u p) : Consistent c u p := by
  have hheads := headAt_of_begins hc h
  have htails (k : Nat) (b : Block) (hb : c.blocks[k]? = some b) := mem_tailAt_of_begins hc h hb
  refine ⟨fits_of_begins hc h, ?_, ?_, ?_, ?_, ?_⟩
  · intro k b hb x
    rw [htails k b hb]
    simp [hheads]
  · intro k
    simp [hheads]
  · intro k b hb x hx
    simp [hheads] at hx
  · intro k b hb hd
    obtain ⟨hk, -⟩ := Array.getElem?_eq_some_iff.mp hb
    obtain ⟨t, -, rfl⟩ := h
    simp [dirtyAt, ofTables, hk] at hd
  · obtain ⟨t, rfl, hseeded⟩ := seeded_of_begins hc h
    rw [recorded, ofTables, hseeded.heads, Tables.empty, Array.toList_replicate, total_replicate]
    rfl

end MachineLiveness.Propagation
