import MachineLiveness.Propagation.Plain
import MachineLiveness.Proofs.Fixpoint

/-!
The shortcuts of the analysis change nothing. A visit with them and a visit without them both do what
`Explored` says, and this determines what becomes of a state but for the order of the entries at its
heads. So the run and the plain run go through states that are alike, sweep by sweep, and end alike.
-/

namespace MachineLiveness

/-! ## States that are alike -/

namespace Propagation

variable {c : Code} {u : Universe} {p p' q q' : Propagation} {b : Block} {k : Nat}

/-- The states differ in their scratch sets and in the order of what is recorded at heads, and in
nothing else. -/
structure Alike (p p' : Propagation) : Prop where
  tail : ∀ k, p.tailAt k = p'.tailAt k
  head : ∀ k, (p.headAt k).Perm (p'.headAt k)
  dirty : ∀ k, p.dirtyAt k = p'.dirtyAt k
  changed : p.changed = p'.changed
  stats : p.stats = p'.stats
  visits : p.visits = p'.visits

theorem alike_of_visited {found found' : List Nat} (h : p.Alike p') (hf : found.Perm found')
    (hv : Visited c u b found p q) (hv' : Visited c u b found' p' q') : q.Alike q' := by
  have htail (k : Nat) : q.tailAt k = q'.tailAt k := by
    apply Std.ExtTreeSet.ext_mem
    intro x
    rw [hv.tail, hv'.tail, h.tail, hf.mem_iff]
  have hdirty (k : Nat) : q.dirtyAt k = q'.dirtyAt k := by
    rw [Bool.eq_iff_iff, hv.dirty, hv'.dirty, h.dirty, h.tail, htail]
  refine ⟨htail, fun k => ?_, hdirty, ?_, ?_, ?_⟩
  · rw [hv.head, hv'.head]
    split
    · exact (h.head k).append hf
    · exact h.head k
  · rw [Bool.eq_iff_iff, hv.changed, hv'.changed, h.changed]
    simp only [hdirty, h.dirty]
  · rw [hv.stats, hv'.stats, h.stats, hf.length_eq]
  · rw [hv.visits, hv'.visits, h.visits, hf.length_eq]

/-- Alike states become alike ones when the same block is visited in both. -/
theorem alike_of_explored (h : p.Alike p') (he : Explored c u k b p q)
    (he' : Explored c u k b p' q') : q.Alike q' := by
  rcases he with hclean | ⟨found, hdirty, hv, hmem⟩ <;>
    rcases he' with hclean' | ⟨found', hdirty', hv', hmem'⟩
  · exact h
  · rw [h.dirty, hdirty'] at hclean
    cases hclean
  · rw [← h.dirty, hdirty] at hclean'
    cases hclean'
  · refine alike_of_visited h ?_ hv hv'
    refine (List.perm_ext_iff_of_nodup hv.nodup hv'.nodup).mpr fun x => ?_
    rw [hmem, hmem', h.tail, (h.head k).mem_iff]

end Propagation

/-! ## The plain run as a run -/

namespace PlainRun

open Propagation (Consistent Fits Explored Visited Alike)

variable {c : Code} {u : Universe} {order : Listing} {p q : PlainRun} {b : Block} {k : Nat}

/-- The state of a plain run with a scratch set that nothing is in. -/
def view (c : Code) (u : Universe) (p : PlainRun) : Propagation :=
  ⟨p.tables, p.dirty, .empty (u.size c), p.changed, p.stats, p.visits⟩

theorem push_view (p : PlainRun) (a : BlockId) (i : Nat) :
    (p.view c u).push a i = (p.push a i).map (view c u) := by
  unfold push Propagation.push
  simp only [view, bind, Except.bind]
  cases p.tables.addToTail a i with
  | error e => rfl
  | ok r =>
    obtain ⟨new, t⟩ := r
    cases new with
    | false => rfl
    | true => cases entry p.dirty a.index <;> rfl

theorem pushEverywhere_view (p : PlainRun) (as : List BlockId) (found : List Nat) :
    as.foldlM (fun (p : Propagation) a => found.foldlM (fun p i => p.push a i) p) (p.view c u) =
      (as.foldlM (fun (p : PlainRun) a => found.foldlM (fun p i => p.push a i) p) p).map
        (view c u) :=
  foldlM_view (fun p a => foldlM_view (fun p i => push_view p a i) p found) p as

/-- The state in which a visit begins to push what it has found. -/
def noted (p : PlainRun) (b : Block) (found : List Nat) (t : Tables) : PlainRun where
  tables := t
  dirty := p.dirty.setIfInBounds b.id.index false
  changed := p.changed
  stats := ⟨p.stats.sweeps, p.stats.blockVisits + 1, p.stats.insertions + found.length⟩
  visits := p.visits.push ⟨b.id, found.length⟩

theorem discover_shows (hc : c.WellFormed) (ho : order.Lawful) (h : Consistent c u (p.view c u))
    (hb : c.blocks[k]? = some b) :
    ∃ found, p.discover c u order b = .ok found ∧ found.Nodup ∧ (∀ x ∈ found, x < u.size c) ∧
      ∀ x, x ∈ found ↔
        x ∈ Sets.headOf c u b ((p.view c u).tailAt k) ∧ x ∉ (p.view c u).headAt k := by
  obtain ⟨start, top, hstart, htop, hbound, hlive⟩ := Cursor.executeAll_shows
    (hc.block_known u hb) (IndexSet.bound_empty (u.size c)) (h.fits.below k) ho.mem_iff
  refine ⟨_, bind_eq_ok.mpr ⟨_, h.fits.tail_eq hc hb, bind_eq_ok.mpr ⟨start, hstart,
    bind_eq_ok.mpr ⟨top, htop, bind_eq_ok.mpr ⟨_, h.fits.head_eq hc hb, rfl⟩⟩⟩⟩,
    top.live.nodup.filter _, fun x hx => ?_, fun x => ?_⟩
  · rw [← hbound]
    exact IndexSet.lt_bound (List.mem_filter.mp hx).1
  · rw [List.mem_filter, hlive, decide_eq_true_iff]

/-- The pushing of a plain visit goes through, and does what pushing does. -/
theorem exists_pushEverywhere (hc : c.WellFormed) (h : (p.view c u).Fits c u)
    (hb : c.blocks[k]? = some b) {found : List Nat} {t : Tables}
    (ht : t.tails = p.tables.tails) :
    ∃ q, b.predecessors.foldlM (fun (p : PlainRun) a => found.foldlM (fun p i => p.push a i) p)
        (p.noted b found t) = .ok q ∧
      Propagation.Grown c u (fun k x => (∃ a ∈ b.predecessors, a.index = k) ∧ x ∈ found)
        ((p.noted b found t).view c u) (q.view c u) := by
  have htails : t.tails.size = c.blocks.size := ht ▸ h.tails
  have hdirty : (p.noted b found t).dirty.size = c.blocks.size :=
    Array.size_setIfInBounds.trans h.dirty
  have hrows : ∀ a ∈ b.predecessors, a.index < ((p.noted b found t).view c u).tables.tails.size ∧
      a.index < ((p.noted b found t).view c u).dirty.size := by
    intro a ha
    have hlt := hc.predecessor_lt hb ha
    exact ⟨htails ▸ hlt, hdirty ▸ hlt⟩
  obtain ⟨r, hr⟩ : ∃ r, b.predecessors.foldlM
      (fun (p : Propagation) a => found.foldlM (fun p i => p.push a i) p)
      ((p.noted b found t).view c u) = .ok r := Propagation.exists_pushEverywhere hrows
  have hgrown := Propagation.grown_of_pushEverywhere (c := c) (u := u) hr
  rw [pushEverywhere_view] at hr
  obtain ⟨q, hq, rfl⟩ := map_eq_ok.mp hr
  exact ⟨q, hq, hgrown⟩

/-- A plain visit does what a visit does. -/
theorem exists_visit (hc : c.WellFormed) (ho : order.Lawful) (h : Consistent c u (p.view c u))
    (hb : c.blocks[k]? = some b) :
    ∃ q, p.visit c u order b = .ok q ∧ Explored c u k b (p.view c u) (q.view c u) := by
  have hid := hc.block_id hb
  have hentry := h.fits.dirty_eq hc hb
  cases hd : (p.view c u).dirtyAt k with
  | false => exact ⟨p, bind_eq_ok.mpr ⟨_, hentry, by rw [hd]; rfl⟩, .clean hd⟩
  | true =>
    obtain ⟨found, hfound, hnodup, hbelow, hmem⟩ := discover_shows hc ho h hb
    have hk : b.id.index < p.tables.heads.size := by
      rw [hid]
      exact h.fits.heads ▸ (Array.getElem?_eq_some_iff.mp hb).1
    have hnew : ∀ i ∈ found, i ∉ p.tables.headAt b.id.index := by
      rw [hid]
      exact fun i hi => ((hmem i).mp hi).2
    obtain ⟨t, ht⟩ := Tables.exists_extendHead hk hnew
    obtain ⟨hlt, htails, hheads⟩ := Tables.extendHead_eq_ok ht
    obtain ⟨q, hq, hgrown⟩ := exists_pushEverywhere hc h.fits hb htails
    have hnoted : Propagation.Noted c u b found (p.view c u) ((p.noted b found t).view c u) :=
      ⟨hlt, htails, hheads, rfl, rfl, rfl, rfl, rfl⟩
    refine ⟨q, bind_eq_ok.mpr ⟨_, hentry, ?_⟩, .dirty found hd ?_ hmem⟩
    · rw [hd, if_pos rfl]
      exact bind_eq_ok.mpr ⟨found, hfound, bind_eq_ok.mpr ⟨t, ht, hq⟩⟩
    · exact Propagation.visited_of_noted hnoted hgrown hnodup hbelow (hid ▸ hd)

/-! ## Side by side -/

/-- A state of a run and one of a plain run that are alike, and both of which are consistent. -/
structure Twins (c : Code) (u : Universe) (p : Propagation) (q : PlainRun) : Prop where
  run : Consistent c u p
  plain : Consistent c u (q.view c u)
  alike : p.Alike (q.view c u)

variable {s : Propagation} {order' : Listing}

theorem twins_of_seed (hc : c.WellFormed) {t : Tables} (ht : Propagation.seed c u = .ok t) :
    Twins c u (Propagation.ofTables c u t) (ofTables c t) where
  run := Propagation.consistent_of_begins hc ⟨t, ht, rfl⟩
  plain := Propagation.consistent_of_begins hc ⟨t, ht, rfl⟩
  alike := ⟨fun _ => rfl, fun _ => .refl _, fun _ => rfl, rfl, rfl, rfl⟩

theorem exists_twins_of_visit (hc : c.WellFormed) (ho' : order'.Lawful) (ho : order.Lawful)
    (h : Twins c u s p) (hb : c.blocks[k]? = some b) :
    ∃ s' p', s.visitBy c u order' b = .ok s' ∧ p.visit c u order b = .ok p' ∧
      Twins c u s' p' := by
  obtain ⟨s', hs'⟩ := Propagation.exists_visitBy_of_consistent hc ho' h.run hb
  obtain ⟨p', hp', hplain⟩ := exists_visit hc ho h.plain hb
  have hrun := Propagation.explored_of_visitBy hc ho' h.run hb hs'
  exact ⟨s', p', hs', hp', Propagation.consistent_of_explored hc h.run hb hrun,
    Propagation.consistent_of_explored hc h.plain hb hplain,
    Propagation.alike_of_explored h.alike hrun hplain⟩

theorem exists_twins_of_visits (hc : c.WellFormed) (ho' : order'.Lawful) (ho : order.Lawful)
    (h : Twins c u s p) {bs : List Block} (hbs : ∀ b ∈ bs, ∃ k : Nat, c.blocks[k]? = some b) :
    ∃ s' p', bs.foldlM (Propagation.visitBy c u order') s = .ok s' ∧
      bs.foldlM (visit c u order) p = .ok p' ∧ Twins c u s' p' := by
  induction bs generalizing s p with
  | nil => exact ⟨s, p, rfl, rfl, h⟩
  | cons b bs ih =>
    obtain ⟨k, hb⟩ := hbs b (by simp)
    obtain ⟨s₁, p₁, hs₁, hp₁, h₁⟩ := exists_twins_of_visit hc ho' ho h hb
    obtain ⟨s', p', hs', hp', h'⟩ := ih h₁ fun a ha => hbs a (by simp [ha])
    refine ⟨s', p', ?_, ?_, h'⟩
    · rw [List.foldlM_cons]
      exact bind_eq_ok.mpr ⟨s₁, hs₁, hs'⟩
    · rw [List.foldlM_cons]
      exact bind_eq_ok.mpr ⟨p₁, hp₁, hp'⟩

theorem exists_twins_of_sweep (hc : c.WellFormed) (ho' : order'.Lawful) (ho : order.Lawful)
    (h : Twins c u s p) :
    ∃ s' p', s.sweepBy c u order' = .ok s' ∧ p.sweep c u order = .ok p' ∧ Twins c u s' p' := by
  obtain ⟨hs, hp, htail, hhead, hdirty, -, hstats, hvisits⟩ := h
  have hstats : s.beginSweep.stats = (p.view c u).beginSweep.stats := by
    rw [Propagation.beginSweep, hstats, Propagation.beginSweep]
  have hbegin : Twins c u s.beginSweep
      { p with changed := false, stats := { p.stats with sweeps := p.stats.sweeps + 1 } } :=
    ⟨Propagation.consistent_beginSweep hs, Propagation.consistent_beginSweep hp,
      htail, hhead, hdirty, rfl, hstats, hvisits⟩
  apply exists_twins_of_visits hc ho' ho hbegin
  intro b hb
  exact Array.mem_iff_getElem?.mp (Array.mem_toList_iff.mp (List.mem_reverse.mp hb))

/-- A sweep of both is the last one in both or in neither. -/
theorem exists_twins_of_settle (hc : c.WellFormed) (ho' : order'.Lawful) (ho : order.Lawful)
    (h : Twins c u s p) :
    ∃ s' p', s.settleBy c u order' = .ok s' ∧ Settles c u order p p' ∧ Twins c u s' p' := by
  induction hr : s.room c u using Nat.strongRecOn generalizing s p with
  | _ n ih =>
    obtain ⟨s₁, p₁, hs₁, hp₁, h₁⟩ := exists_twins_of_sweep hc ho' ho h
    have hsame : s₁.changed = p₁.changed := h₁.alike.changed
    rw [Propagation.settleBy_of_sweepBy hs₁]
    cases hchanged : s₁.changed with
    | false => exact ⟨s₁, p₁, rfl, .last hp₁ (hsame ▸ hchanged), h₁⟩
    | true =>
      have hlt : s₁.room c u < n := hr ▸ Propagation.room_lt_of_sweep hs₁ hchanged
      obtain ⟨s', p', hs', hp', h'⟩ := ih _ hlt h₁ rfl
      exact ⟨s', p', hs', .more hp₁ (hsame ▸ hchanged) hp', h'⟩

theorem exists_twins_of_run (hc : c.WellFormed) (ho' : order'.Lawful) (ho : order.Lawful) :
    ∃ p q, Propagation.runBy c u order' = .ok p ∧ Ends c u order q ∧ Twins c u p q := by
  obtain ⟨t, ht, -⟩ := Propagation.exists_seed (u := u) hc
  obtain ⟨p, q, hp, hq, htwins⟩ := exists_twins_of_settle hc ho' ho (twins_of_seed hc ht)
  exact ⟨p, q, bind_eq_ok.mpr ⟨t, keeping_eq_ok.mpr ht, hp⟩, ⟨t, ht, hq⟩, htwins⟩

theorem Settles.unique {p q q' : PlainRun} (h : Settles c u order p q)
    (h' : Settles c u order p q') : q' = q := by
  induction h with
  | last hq hchanged =>
    cases h' with
    | last hq' _ =>
      rw [hq] at hq'
      cases hq'
      rfl
    | more hq' hchanged' _ =>
      rw [hq] at hq'
      cases hq'
      rw [hchanged] at hchanged'
      cases hchanged'
  | more hq hchanged _ ih =>
    cases h' with
    | last hq' hchanged' =>
      rw [hq] at hq'
      cases hq'
      rw [hchanged] at hchanged'
      cases hchanged'
    | more hq' _ hrest =>
      rw [hq] at hq'
      cases hq'
      exact ih hrest

theorem Ends.unique {q q' : PlainRun} (h : Ends c u order q) (h' : Ends c u order q') : q' = q := by
  obtain ⟨t, ht, hq⟩ := h
  obtain ⟨t', ht', hq'⟩ := h'
  rw [ht] at ht'
  cases ht'
  exact hq.unique hq'

/-! ## The runs -/

/-- Over a finished unit, and in whatever order the plain run lists tails, it ends in one state. There
it has the tails, the counts and the visits of the run, and at each head the same entries. -/
theorem shortcuts_change_nothing {d : Draft} {c : Code} (u : Universe) (h : d.finish = .ok c)
    {order : Listing} (ho : order.Lawful) :
    ∃ q, (∀ q', Ends c u order q' ↔ q' = q) ∧
      Liveness.compute c u = .ok ⟨c, q.tables.tails, q.stats⟩ ∧
      ∃ p, Propagation.run c u = .ok p ∧ p.tables.tails = q.tables.tails ∧
        p.tables.heads.size = q.tables.heads.size ∧
        (∀ k, (p.headAt k).Nodup ∧ (p.headAt k).Perm (q.tables.headAt k)) ∧
        p.stats = q.stats ∧ p.visits = q.visits := by
  have hc := Draft.wellFormed_of_finish h
  obtain ⟨p, q, hrun, hends, htwins⟩ :=
    exists_twins_of_run (u := u) hc Listing.lawful_ascending ho
  have htails : p.tables.tails = q.tables.tails :=
    Propagation.tails_eq_of_tailAt htwins.run.fits htwins.plain.fits htwins.alike.tail
  have hheads : p.tables.heads.size = q.tables.heads.size :=
    htwins.run.fits.heads.trans htwins.plain.fits.heads.symm
  have hstats : p.stats = q.stats := htwins.alike.stats
  refine ⟨q, fun q' => ⟨hends.unique, ?_⟩, ?_, p, hrun, htails, hheads,
    fun k => ⟨htwins.run.head_nodup k, htwins.alike.head k⟩, hstats, htwins.alike.visits⟩
  · rintro rfl
    exact hends
  · rw [← htails, ← hstats]
    exact map_eq_ok.mpr ⟨p, faultOnly_eq_ok.mpr hrun, rfl⟩

/-- A plain run that lists tails in descending order. -/
theorem shortcuts_change_nothing_sample : Draft.sample.finish = .ok Draft.sample.freeze ∧
    Listing.Lawful (fun _ t => t.toList.reverse) ∧
    ∃ q, Ends Draft.sample.freeze (.temps .gp) (fun _ t => t.toList.reverse) q ∧
      Liveness.compute Draft.sample.freeze (.temps .gp) =
        .ok ⟨Draft.sample.freeze, q.tables.tails, q.stats⟩ ∧
      q.tables.tails.map (·.toList) = #[[1, 2, 3], [1, 2, 3], [1, 3], []] ∧
      [1, 3].Perm (q.tables.headAt 0) := by
  have ho : Listing.Lawful (fun _ t => t.toList.reverse) := fun _ t => t.toList.reverse_perm
  obtain ⟨q, hends, hcompute, p, hp, htails, -, hheads, -⟩ :=
    shortcuts_change_nothing (.temps .gp) Draft.finish_sample ho
  obtain ⟨hptails, hpheads⟩ := Propagation.run_sample hp
  have hhead : p.headAt 0 = [1, 3] := by
    rw [Propagation.headAt, Tables.headAt, hpheads]
    rfl
  exact ⟨Draft.finish_sample, ho, q, (hends q).mpr rfl, hcompute, htails ▸ hptails,
    hhead ▸ (hheads 0).2⟩

end PlainRun

end MachineLiveness
