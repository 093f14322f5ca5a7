import Mathlib.Algebra.Ring.Nat
import Mathlib.Data.List.Dedup
import MachineLiveness.Liveness.Event
import MachineLiveness.Proofs.Bounds
import MachineLiveness.Proofs.Sweep

/-!
What the counts of a run and its log say of the result. Each visit enters into the books what it adds
to the head of its block, and nothing else is ever recorded there; so when the run ends, the entries
of a block come to what is live at its head. The room that the tails lose pays for the visits and the
sweeps, and it is what the tails have gained over the late uses that they began with.
-/

namespace MachineLiveness

/-! ## The books -/

/-- The visit that an event tells of. -/
def Event.visit? : Event → Option Visit
  | visited _ v => some v
  | finished .. | computing .. | converged .. => none

/-- How many entries some visits have found at the head of a block. -/
def foundAt (visits : List Visit) (b : BlockId) : Nat :=
  ((visits.filter (·.block = b)).map Visit.found).sum

theorem foundAt_concat (visits : List Visit) (v : Visit) (b : BlockId) :
    foundAt (visits ++ [v]) b = foundAt visits b + if v.block = b then v.found else 0 := by
  unfold foundAt
  rw [List.filter_append, List.map_append, List.sum_append]
  by_cases hb : v.block = b
  · simp [hb]
  · simp [hb]

/-- The number of different entities that the terminator of a block uses late. -/
def Universe.lateCount (u : Universe) (b : Block) : Nat :=
  match b.insts.back? with
  | none => 0
  | some last => (u.lateUses last).dedup.length

theorem Universe.lateCount_eq {u : Universe} {b : Block} {last : Inst}
    (h : b.insts.back? = some last) : u.lateCount b = (u.lateUses last).dedup.length := by
  rw [lateCount, h]

theorem exists_mapM {ε α β γ : Type} {f : α → Except ε β} {P : β → Prop} {m : β → γ} {n : α → γ}
    (as : List α) (h : ∀ a ∈ as, ∃ b, f a = .ok b ∧ P b ∧ m b = n a) :
    ∃ bs, as.mapM f = .ok bs ∧ (∀ b ∈ bs, P b) ∧ bs.map m = as.map n := by
  induction as with
  | nil => exact ⟨[], rfl, by simp, rfl⟩
  | cons a as ih =>
    rw [List.forall_mem_cons] at h
    obtain ⟨⟨b, hb, hP, hm⟩, hrest⟩ := h
    obtain ⟨bs, hbs, hPs, hms⟩ := ih hrest
    refine ⟨b :: bs, ?_, List.forall_mem_cons.mpr ⟨hP, hPs⟩, ?_⟩
    · rw [List.mapM_cons, hb, hbs]
      rfl
    · rw [List.map_cons, List.map_cons, hm, hms]

/-- A block of a well formed unit stands where its name says. -/
theorem Code.WellFormed.placed {c : Code} (hc : c.WellFormed) {b : Block}
    (hb : b ∈ c.blocks.toList) : c.blocks[b.id.index]? = some b := by
  obtain ⟨k, hk⟩ := Array.mem_iff_getElem?.mp (Array.mem_toList_iff.mp hb)
  rw [hc.block_id hk, hk]

/-! ## Room and tails -/

theorem Indices.size_eq_length {t : Indices} {is : List Nat} (hn : is.Nodup)
    (h : ∀ x, x ∈ t ↔ x ∈ is) : t.size = is.length := by
  rw [← Std.ExtTreeSet.length_toList]
  apply List.Perm.length_eq
  refine (List.perm_ext_iff_of_nodup ?_ hn).mpr fun x => ?_
  · exact t.distinct_toList.imp fun hne heq => hne (Nat.compare_eq_eq.mpr heq)
  · rw [Std.ExtTreeSet.mem_toList, h]

namespace Propagation

variable {c : Code} {u : Universe} {p q : Propagation} {b : Block} {j k : Nat}

theorem roomFor_add_size {n : Nat} {t : Indices} (h : ∀ x ∈ t, x < n) :
    roomFor n t + t.size = n := by
  have hsize : t.size = (List.range n).countP fun x => t.contains x := by
    rw [List.countP_eq_length_filter]
    refine Indices.size_eq_length (List.nodup_range.filter _) fun x => ?_
    rw [List.mem_filter, List.mem_range, ← Std.ExtTreeSet.mem_iff_contains]
    exact ⟨fun hx => ⟨h x hx, hx⟩, And.right⟩
  have hall := List.length_eq_countP_add_countP (fun x => t.contains x) (l := List.range n)
  rw [List.length_range] at hall
  simp only [roomFor, hsize]
  simp only [Bool.not_eq_true, Bool.decide_eq_false] at hall
  omega

theorem total_eq_sum {α : Type} (f : α → Nat) (as : List α) : total f as = (as.map f).sum := by
  induction as with
  | nil => rfl
  | cons a as ih => rw [total, ih, List.map_cons, List.sum_cons]

theorem total_roomFor_add_size {n : Nat} {ts : List Indices} (h : ∀ t ∈ ts, ∀ x ∈ t, x < n) :
    total (roomFor n) ts + (ts.map Std.ExtTreeSet.size).sum = ts.length * n := by
  induction ts with
  | nil => simp [total]
  | cons t ts ih =>
    rw [List.forall_mem_cons] at h
    have ht := roomFor_add_size h.1
    have hts := ih h.2
    rw [total, List.map_cons, List.sum_cons, List.length_cons, Nat.succ_mul]
    omega

theorem Fits.tails_eq (hc : c.WellFormed) (h : p.Fits c u) :
    p.tables.tails.toList = c.blocks.toList.map fun b => p.tailAt b.id.index := by
  refine List.ext_getElem (by simpa using h.tails) fun k hk hk' => ?_
  rw [List.getElem_map, Array.getElem_toList, Array.getElem_toList,
    hc.block_id (Array.getElem?_eq_getElem (by simpa using hk')), tailAt_of_lt (by simpa using hk)]

theorem Fits.heads_eq (hc : c.WellFormed) (h : p.Fits c u) :
    p.tables.heads.toList = c.blocks.toList.map fun b => p.headAt b.id.index := by
  refine List.ext_getElem (by simpa using h.heads) fun k hk hk' => ?_
  have hlt : k < p.tables.heads.size := by simpa using hk
  rw [List.getElem_map, Array.getElem_toList, Array.getElem_toList,
    hc.block_id (Array.getElem?_eq_getElem (by simpa using hk'))]
  simp [headAt, Tables.headAt, hlt]

/-- What the tails hold and what they have room for is the same in every state. -/
theorem Fits.room_add_sizes (h : p.Fits c u) :
    p.room c u + (p.tables.tails.toList.map Std.ExtTreeSet.size).sum =
      c.blocks.size * u.size c := by
  rw [← h.tails, ← Array.length_toList]
  refine total_roomFor_add_size fun t ht x hx => ?_
  obtain ⟨k, hk, rfl⟩ := List.mem_iff_getElem.mp ht
  refine h.below k x ?_
  rw [tailAt_of_lt (by simpa using hk)]
  simpa using hx

theorem nodup_indices {es : List u.Entity} (he : u.Known c es) (hn : es.Nodup) :
    (Sets.indices c u es).Nodup ∧ (Sets.indices c u es).length = es.length := by
  induction es with
  | nil => exact ⟨List.nodup_nil, rfl⟩
  | cons e es ih =>
    obtain ⟨hnew, hn⟩ := List.nodup_cons.mp hn
    obtain ⟨i, hi⟩ := he e (by simp)
    obtain ⟨hrest, hlength⟩ := ih (fun e' he' => he e' (by simp [he'])) hn
    rw [Cursor.indices_cons hi]
    exact ⟨List.nodup_cons.mpr ⟨mt (Sets.mem_indices_iff hi).mp hnew, hrest⟩, by simp [hlength]⟩

/-- A tail begins with one index for each entity that the terminator uses late. -/
theorem size_tailAt_of_begins (hc : c.WellFormed) (h : Begins c u p)
    (hb : c.blocks[k]? = some b) : (p.tailAt k).size = u.lateCount b := by
  obtain ⟨last, hlast⟩ := hc.exists_last hb
  have hknown : u.Known c (u.lateUses last).dedup := fun e he =>
    hc.known hb (Array.mem_of_back? hlast) Role.isLateUse e (List.mem_dedup.mp he)
  obtain ⟨hn, hlength⟩ := nodup_indices hknown (List.nodup_dedup _)
  rw [Universe.lateCount_eq hlast, ← hlength]
  refine Indices.size_eq_length hn fun x => ?_
  rw [mem_tailAt_of_begins hc h hb, Sets.mem_lateAtTail, Sets.mem_indices]
  simp only [hlast, Option.some.injEq, exists_eq_left', Sets.mem_indices, List.mem_dedup]

/-! ## What every visit enters -/

/-- A sweep that has come down to position `j`: the visits are counted, those of each block have found
what is recorded at its head, and the first sweep visits every block. -/
structure Tallied (c : Code) (p : Propagation) (j : Nat) : Prop where
  blockVisits : p.stats.blockVisits = p.visits.size
  found : ∀ k b, c.blocks[k]? = some b → foundAt p.visits.toList b.id = (p.headAt k).length
  sweeps : 0 < p.stats.sweeps
  opening : p.stats.sweeps = 1 → (∀ k < j, p.dirtyAt k = true) ∧
    p.visits.toList.map Visit.block = ((c.blocks.toList.drop j).map Block.id).reverse
  descending : 1 < p.stats.sweeps →
    (c.blocks.toList.map Block.id).reverse <+: p.visits.toList.map Visit.block

theorem tallied_of_visited (hc : c.WellFormed) {found : List Nat} (h : p.Tallied c (j + 1))
    (hb : c.blocks[j]? = some b) (hv : Visited c u b found p q) : q.Tallied c j where
  blockVisits := by rw [hv.stats, hv.visits, Array.size_push, h.blockVisits]
  found := by
    intro k a ha
    rw [hv.visits, Array.toList_push, foundAt_concat, h.found k a ha, hv.head]
    have hid : b.id = a.id ↔ k = b.id.index := by
      rw [← BlockId.index_inj, hc.block_id ha, eq_comm]
    by_cases hk : k = b.id.index
    · rw [if_pos (hid.mpr hk), if_pos hk, List.length_append]
    · rw [if_neg (mt hid.mp hk), if_neg hk, Nat.add_zero]
  sweeps := by
    rw [hv.stats]
    exact h.sweeps
  opening := by
    intro hone
    rw [hv.stats] at hone
    obtain ⟨hdirty, hvisits⟩ := h.opening hone
    refine ⟨fun k hk => ?_, ?_⟩
    · rw [hv.dirty, hc.block_id hb]
      exact .inl ⟨Nat.ne_of_lt hk, hdirty k (Nat.lt_succ_of_lt hk)⟩
    · obtain ⟨hlt, rfl⟩ := List.getElem?_eq_some_iff.mp (Array.getElem?_toList.trans hb)
      rw [hv.visits, Array.toList_push, List.map_append, List.map_singleton, hvisits,
        List.drop_eq_getElem_cons hlt, List.map_cons, List.reverse_cons]
  descending := by
    intro hmore
    rw [hv.stats] at hmore
    rw [hv.visits, Array.toList_push, List.map_append]
    exact (h.descending hmore).trans (List.prefix_append _ _)

theorem tallied_of_explored (hc : c.WellFormed) (h : p.Tallied c (j + 1))
    (hb : c.blocks[j]? = some b) (he : Explored c u j b p q) : q.Tallied c j := by
  rcases he with hclean | ⟨found, -, hv, -⟩
  · obtain ⟨hvisits, hfound, hsweeps, hopening, hdescending⟩ := h
    refine ⟨hvisits, hfound, hsweeps, fun hone => ?_, hdescending⟩
    rw [(hopening hone).1 j (Nat.lt_succ_self j)] at hclean
    cases hclean
  · exact tallied_of_visited hc h hb hv

theorem tallied_of_begins (hc : c.WellFormed) (h : Begins c u p) :
    p.beginSweep.Tallied c c.blocks.size := by
  have hheads := headAt_of_begins hc h
  obtain ⟨t, -, rfl⟩ := h
  refine ⟨rfl, fun k b _ => ?_, Nat.one_pos, fun _ => ⟨fun k hk => ?_, ?_⟩, fun hmore => ?_⟩
  · show 0 = ((ofTables c u t).headAt k).length
    rw [hheads]
    rfl
  · show ((Array.replicate c.blocks.size true)[k]?).getD false = true
    simp [hk]
  · rw [List.drop_of_length_le (by simp)]
    rfl
  · exact absurd hmore (Nat.lt_irrefl 1)

/-- Once the first sweep has ended, every block has been visited, the last one first. -/
theorem Tallied.visited_all (h : p.Tallied c 0) :
    (c.blocks.toList.map Block.id).reverse <+: p.visits.toList.map Visit.block := by
  rcases Nat.lt_or_ge 1 p.stats.sweeps with hmore | hone
  · exact h.descending hmore
  · rw [(h.opening (Nat.le_antisymm hone h.sweeps)).2, List.drop_zero]

theorem tallied_invariant (hc : c.WellFormed) : SweepInvariant c u (Tallied c) where
  first := fun _ hp => tallied_of_begins hc hp
  visit := fun _ _ _ _ _ hb he h => tallied_of_explored hc h hb he
  sweep := by
    intro p _ _ h
    exact ⟨h.blockVisits, h.found, Nat.succ_pos _,
      fun hone => absurd (Nat.succ.inj hone) (Nat.ne_of_gt h.sweeps), fun _ => h.visited_all⟩

/-! ## At the end of a run -/

/-- The visits and the sweeps of a run are paid for by what its tails have gained. -/
theorem exists_gain (hc : c.WellFormed) (hq : Moment.OfRun c u ⟨q, []⟩)
    (hsweeps : 0 < q.stats.sweeps) : ∃ gain,
      (c.blocks.toList.map u.lateCount).sum + gain =
        (q.tables.tails.toList.map Std.ExtTreeSet.size).sum ∧
      q.stats.blockVisits ≤ c.blocks.size + gain ∧ q.stats.sweeps ≤ 1 + gain := by
  have hrows : q.Fits c u := (Moment.sound_of_ofRun hc hq).consistent.fits
  have hend := hrows.room_add_sizes
  obtain ⟨p, hp, hl⟩ := hq
  have hfits := fits_of_begins hc hp
  have hstart := hfits.room_add_sizes
  have hlate : p.tables.tails.toList.map Std.ExtTreeSet.size =
      c.blocks.toList.map u.lateCount := by
    rw [hfits.tails_eq hc, List.map_map]
    exact List.map_congr_left fun b hb => size_tailAt_of_begins hc hp (hc.placed hb)
  have hpaid := Moment.paid_of_later (Moment.paid_sweepOf hp) hl
  have hvisits : q.stats.blockVisits + q.weight c u ≤ p.weight c u := hpaid.blockVisits
  have hswept : q.stats.sweeps + q.credit c u ≤ 1 + p.room c u := hpaid.sweeps
  have hweight := weight_le_add_room hp
  rw [hlate] at hstart
  -- Room and sizes come to the same sum at both ends, so the tails gain what the room loses.
  unfold weight at hvisits
  unfold credit at hswept
  refine ⟨p.room c u - q.room c u, ?_, ?_, ?_⟩
  · omega
  · unfold weight at hweight
    omega
  · omega

end Propagation

namespace Liveness

variable {c : Code} {u : Universe} {q : Propagation} {b : Block} {k : Nat}

/-- Reading entities back gives the indices that they were read from. -/
theorem map_indexOf_of_mapM (hs : c.slots.size ≤ UInt32.size) {is : List Nat}
    {es : List u.Entity} (h : is.mapM (u.entityAt c) = .ok es) :
    es.map (u.indexOf c) = is.map .ok := by
  induction is generalizing es with
  | nil =>
    cases h
    rfl
  | cons i is ih =>
    rw [List.mapM_cons] at h
    obtain ⟨e, he, h⟩ := bind_eq_ok.mp h
    obtain ⟨es', hes', h⟩ := bind_eq_ok.mp h
    cases h
    rw [List.map_cons, List.map_cons, Universe.indexOf_entityAt hs he, ih hes']

/-- Where no visit is due, as many entities are live at the head of a block as are recorded there. -/
theorem exists_atHead (hc : c.WellFormed) (hs : c.slots.size ≤ UInt32.size)
    (h : q.Consistent c u) (hq : q.Quiet) (hb : c.blocks[k]? = some b) :
    ∃ es, (ofRun c u q).atHead b = .ok es ∧ es.Nodup ∧ es.length = (q.headAt k).length := by
  obtain ⟨start, top, hstart, htop, hshows⟩ := exists_cursor hc h hb (Nat.zero_le _)
  obtain ⟨es, hes, -⟩ := Cursor.exists_entities hs hshows.bound
  have hindices := map_indexOf_of_mapM hs hes
  have hperm : top.live.ascending.Perm top.live.toList := List.mergeSort_perm _ _
  have hnodup : (es.map (u.indexOf c)).Nodup := by
    rw [hindices]
    exact (hperm.nodup_iff.mpr top.live.nodup).map fun _ _ h => Except.ok.inj h
  have hrecorded : top.live.toList.Perm (q.headAt k) := by
    refine (List.perm_ext_iff_of_nodup top.live.nodup (h.head_nodup k)).mpr fun x => ?_
    rw [hshows.live x]
    exact ⟨h.head_clean k b hb (Propagation.quiet_iff.mp hq k) x, h.head_sub k b hb x⟩
  refine ⟨es, (above_eq hstart htop).trans hes, hnodup.of_map _, ?_⟩
  rw [← List.length_map (u.indexOf c), hindices, List.length_map, hperm.length_eq,
    hrecorded.length_eq]

/-- The counts of a result, its visits, and its answers for all blocks, which are `heads` and `tails`,
agree. -/
structure Balanced (c : Code) (l : Liveness u) (visits : List Visit)
    (heads : List (List u.Entity)) (tails : List Indices) : Prop where
  heads_eq : c.blocks.toList.mapM l.atHead = .ok heads
  heads_nodup : ∀ es ∈ heads, es.Nodup
  tails_eq : c.blocks.toList.mapM (fun b => l.tailIndices b.id) = .ok tails
  insertions : l.stats.insertions = (heads.map List.length).sum
  blockVisits : l.stats.blockVisits = visits.length
  /-- The visits of a block have found what is live at its head. -/
  found : c.blocks.toList.map (fun b => foundAt visits b.id) = heads.map List.length
  /-- The first visits are one of each block, from the last to the first. -/
  descending : (visits.take c.blocks.size).map Visit.block =
    (c.blocks.toList.map Block.id).reverse
  /-- What the tails have gained over the late uses of the terminators limits visits and sweeps. -/
  gain : ∃ gain,
    (c.blocks.toList.map u.lateCount).sum + gain = (tails.map Std.ExtTreeSet.size).sum ∧
      l.stats.blockVisits ≤ c.blocks.size + gain ∧ l.stats.sweeps ≤ 1 + gain

theorem ofRun_log {c : Code} {u : Universe} {q : Propagation}
    (h : Propagation.run c u = .ok q) :
    ∃ log, Event.ofRun c u = (log, none) ∧ log.filterMap Event.visit? = q.visits.toList := by
  refine ⟨_, by rw [Event.ofRun, h], ?_⟩
  simp [Event.visit?, List.filterMap_append, List.filterMap_cons, Function.comp_def]

/-- The analysis of a finished unit ends, and its counts and its log account for its result. -/
theorem accounts_balance {d : Draft} (u : Universe) (h : d.finish = .ok c) :
    ∃ (l : Liveness u) (log : List Event) (heads : List (List u.Entity)) (tails : List Indices),
      compute c u = .ok l ∧ Event.ofRun c u = (log, none) ∧
        Balanced c l (log.filterMap Event.visit?) heads tails := by
  have hc := Draft.wellFormed_of_finish h
  have hs := Draft.slots_le_of_finish h
  obtain ⟨q, hq, hchanged, hm, htallied⟩ := (Propagation.tallied_invariant (u := u) hc).exists_run hc
  have hsound := Propagation.Moment.sound_of_ofRun hc hm
  have hconsistent : q.Consistent c u := hsound.consistent
  have hquiet := Propagation.Moment.quiet_of_done hsound rfl hchanged
  obtain ⟨log, hlog, hvisits⟩ := ofRun_log hq
  obtain ⟨heads, hheads, hnodup, hlengths⟩ := exists_mapM c.blocks.toList
    (f := (ofRun c u q).atHead) (P := List.Nodup) (m := List.length)
    (n := fun b => (q.headAt b.id.index).length)
    fun b hb => exists_atHead hc hs hconsistent hquiet (hc.placed hb)
  obtain ⟨tails, htails, -, hsame⟩ := exists_mapM c.blocks.toList
    (f := fun b => (ofRun c u q).tailIndices b.id) (P := fun _ => True) (m := id)
    (n := fun b => q.tailAt b.id.index)
    fun b hb => ⟨_, tailIndices_eq hc hconsistent (hc.placed hb), trivial, rfl⟩
  rw [List.map_id, ← hconsistent.fits.tails_eq hc] at hsame
  refine ⟨ofRun c u q, log, heads, tails, map_eq_ok.mpr ⟨q, faultOnly_eq_ok.mpr hq, rfl⟩, hlog, ?_⟩
  rw [hvisits]
  refine ⟨hheads, hnodup, htails, ?_, ?_, ?_, ?_, ?_⟩
  · show q.stats.insertions = _
    rw [hconsistent.insertions, hlengths, Propagation.recorded, Propagation.total_eq_sum,
      hconsistent.fits.heads_eq hc, List.map_map]
    rfl
  · exact htallied.blockVisits
  · rw [hlengths]
    exact List.map_congr_left fun b hb => htallied.found _ b (hc.placed hb)
  · have hall := List.prefix_iff_eq_take.mp htallied.visited_all
    rw [List.length_reverse, List.length_map, Array.length_toList] at hall
    rw [List.map_take, hall]
  · rw [hsame]
    exact Propagation.exists_gain hc hm htallied.sweeps

/-- Of the four blocks one is visited again in a second sweep. -/
theorem accounts_balance_sample : Draft.sample.finish = .ok Draft.sample.freeze ∧
    ∃ l log heads tails, compute Draft.sample.freeze (.temps .gp) = .ok l ∧
      Event.ofRun Draft.sample.freeze (.temps .gp) = (log, none) ∧
      Balanced Draft.sample.freeze l (log.filterMap Event.visit?) heads tails ∧
      l.stats = ⟨2, 5, 9⟩ := by
  have hstats : (compute Draft.sample.freeze (.temps .gp)).map (·.stats) = .ok ⟨2, 5, 9⟩ := by
    decide +kernel
  obtain ⟨l, log, heads, tails, hl, hlog, hbalanced⟩ :=
    accounts_balance (.temps .gp) Draft.finish_sample
  rw [hl] at hstats
  exact ⟨Draft.finish_sample, l, log, heads, tails, hl, hlog, hbalanced, Except.ok.inj hstats⟩

end Liveness

end MachineLiveness
