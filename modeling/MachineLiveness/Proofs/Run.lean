import MachineLiveness.Proofs.Invariant

/-!
Runs over a well formed unit, moment by moment. A block that is dirty while its sweep has made no
change is still ahead of the sweep: only a clean block that becomes dirty makes the change. So a sweep
that ends without a change leaves no block dirty, and the run, which ends there, leaves no work.
-/

namespace MachineLiveness.Propagation

variable {c : Code} {u : Universe} {p q : Propagation}

theorem quiet_iff : p.Quiet ↔ ∀ k, p.dirtyAt k = false := by
  constructor
  · intro h k
    unfold dirtyAt
    cases hd : p.dirty[k]? with
    | none => rfl
    | some d => exact h d (Array.mem_of_getElem? hd)
  · intro h d hd
    obtain ⟨k, hk⟩ := Array.mem_iff_getElem?.mp hd
    have := h k
    rw [dirtyAt, hk] at this
    exact this

theorem consistent_beginSweep (h : Consistent c u p) : Consistent c u p.beginSweep := by
  obtain ⟨⟨h₁, h₂, h₃, h₄, h₅⟩, htail, hnodup, hsub, hclean, hins⟩ := h
  exact ⟨⟨h₁, h₂, h₃, h₄, h₅⟩, htail, hnodup, hsub, hclean, hins⟩

/-- Nothing that the tables of one state hold is missing from those of the other. -/
def Included (p q : Propagation) : Prop :=
  ∀ k, (∀ x ∈ p.tailAt k, x ∈ q.tailAt k) ∧ p.headAt k <+: q.headAt k

theorem Included.refl (p : Propagation) : p.Included p :=
  fun _ => ⟨fun _ hx => hx, List.prefix_refl _⟩

theorem Included.trans {p q r : Propagation} (hpq : p.Included q) (hqr : q.Included r) :
    p.Included r :=
  fun k => ⟨fun x hx => (hqr k).1 x ((hpq k).1 x hx), (hpq k).2.trans (hqr k).2⟩

theorem included_of_visit {b : Block} (hv : p.visit c u b = .ok q) : p.Included q := by
  rcases visit_cases hv with ⟨-, rfl⟩ | ⟨found, -, -, hvisited⟩
  · exact .refl q
  · exact fun k => ⟨hvisited.tail_sub k, hvisited.head_append k⟩

namespace Moment

/-- The state is consistent, and as long as the sweep has made no change every dirty block is ahead
of it. -/
structure Sound (c : Code) (u : Universe) (m : Moment) : Prop where
  consistent : Consistent c u m.state
  ahead : ∀ b ∈ m.ahead, ∃ k : Nat, c.blocks[k]? = some b
  pending : m.state.changed = false →
    ∀ k, m.state.dirtyAt k = true → ∃ b ∈ m.ahead, b.id.index = k

variable {m n o : Moment}

theorem sound_sweepOf (hc : c.WellFormed) (h : Consistent c u p) : (sweepOf c p).Sound c u where
  consistent := consistent_beginSweep h
  ahead := by
    intro b hb
    exact Array.mem_iff_getElem?.mp (Array.mem_toList_iff.mp (List.mem_reverse.mp hb))
  pending := by
    intro _ k hk
    have hlt : k < c.blocks.size := h.fits.dirty ▸ lt_of_dirtyAt hk
    have hb := Array.getElem?_eq_getElem hlt
    exact ⟨c.blocks[k], by simp [sweepOf], hc.block_id hb⟩

theorem sound_of_next (hc : c.WellFormed) (h : m.Sound c u) (hn : Next c u m n) : n.Sound c u := by
  cases hn with
  | @visit p q b bs hv =>
    obtain ⟨k, hb⟩ := h.ahead b (by simp)
    refine ⟨consistent_of_visit hc h.consistent hb hv, fun a ha => h.ahead a (by simp [ha]), ?_⟩
    intro hq j hj
    have hahead : p.changed = false → p.dirtyAt j = true → j ≠ b.id.index →
        ∃ a ∈ bs, a.id.index = j := by
      intro hp hdj hne
      obtain ⟨a, ha, haj⟩ := h.pending hp j hdj
      rcases List.mem_cons.mp ha with rfl | ha
      · exact absurd haj.symm hne
      · exact ⟨a, ha, haj⟩
    rcases visit_cases hv with ⟨hclean, rfl⟩ | ⟨found, -, -, hvisited⟩
    · refine hahead hq hj ?_
      rintro rfl
      have hj : q.dirtyAt b.id.index = true := hj
      rw [hclean] at hj
      cases hj
    · -- Had the sweep made a change, `changed` would say so.
      have hold := mt hvisited.changed.mpr (Bool.eq_false_iff.mp hq)
      simp only [not_or, not_exists, not_and] at hold
      obtain ⟨hne, hdj⟩ := hold.2 j hj
      exact hahead (Bool.eq_false_iff.mpr hold.1) (by simpa using hdj) hne
  | sweep _ => exact sound_sweepOf hc h.consistent

theorem sound_of_later (hc : c.WellFormed) (h : m.Sound c u) (hl : Later c u m n) :
    n.Sound c u := by
  induction hl with
  | refl => exact h
  | step _ hn ih => exact sound_of_next hc ih hn

theorem sound_of_ofRun (hc : c.WellFormed) (h : m.OfRun c u) : m.Sound c u := by
  obtain ⟨p, hp, hl⟩ := h
  exact sound_of_later hc (sound_sweepOf hc (consistent_of_begins hc hp)) hl

theorem quiet_of_done (h : m.Sound c u) (ha : m.ahead = []) (hm : m.state.changed = false) :
    m.state.Quiet := by
  rw [quiet_iff]
  intro k
  rw [Bool.eq_false_iff]
  intro hk
  obtain ⟨b, hb, -⟩ := h.pending hm k hk
  rw [ha] at hb
  cases hb

/-- A run stops nowhere but at the end of a sweep without a change. -/
theorem next_or_done (hc : c.WellFormed) (h : m.Sound c u) :
    (∃ n, Next c u m n) ∨ m.ahead = [] ∧ m.state.changed = false := by
  obtain ⟨p, bs⟩ := m
  cases bs with
  | nil =>
    cases hp : p.changed with
    | true => exact .inl ⟨_, .sweep hp⟩
    | false => exact .inr ⟨rfl, rfl⟩
  | cons b bs =>
    obtain ⟨k, hb⟩ := h.ahead b (by simp)
    obtain ⟨q, hq⟩ := exists_visit_of_consistent hc h.consistent hb
    exact .inl ⟨_, .visit hq⟩

theorem included_of_later (h : Later c u m n) : m.state.Included n.state := by
  induction h with
  | refl => exact .refl _
  | step _ hn ih =>
    refine ih.trans ?_
    cases hn with
    | visit hv => exact included_of_visit hv
    | sweep _ => exact .refl _

theorem Later.trans (hmn : Later c u m n) (hno : Later c u n o) : Later c u m o := by
  induction hno with
  | refl => exact hmn
  | step _ hn ih => exact .step ih hn

theorem Later.first (hmn : Next c u m n) (hno : Later c u n o) : Later c u m o :=
  .trans (.step (.refl m) hmn) hno

end Moment

/-! ## The run and its moments -/

theorem exists_visitAll (hc : c.WellFormed) {bs : List Block} (h : Moment.Sound c u ⟨p, bs⟩) :
    ∃ q, bs.foldlM (visit c u) p = .ok q ∧ Moment.Later c u ⟨p, bs⟩ ⟨q, []⟩ := by
  induction bs generalizing p with
  | nil => exact ⟨p, rfl, .refl _⟩
  | cons b bs ih =>
    obtain ⟨k, hb⟩ := h.ahead b (by simp)
    obtain ⟨r, hr⟩ := exists_visit_of_consistent hc h.consistent hb
    have hnext : Moment.Next c u ⟨p, b :: bs⟩ ⟨r, bs⟩ := .visit hr
    obtain ⟨q, hq, hlater⟩ := ih (Moment.sound_of_next hc h hnext)
    refine ⟨q, ?_, .first hnext hlater⟩
    rw [List.foldlM_cons]
    exact bind_eq_ok.mpr ⟨r, hr, hq⟩

theorem exists_sweep (hc : c.WellFormed) (h : Consistent c u p) :
    ∃ q, p.sweep c u = .ok q ∧ Moment.Later c u (.sweepOf c p) ⟨q, []⟩ :=
  exists_visitAll hc (Moment.sound_sweepOf hc h)

theorem settleBy_of_sweepBy {order : Listing} (h : p.sweepBy c u order = .ok q) :
    p.settleBy c u order = if q.changed = true then q.settleBy c u order else .ok q := by
  rw [settleBy]
  split
  · rename_i e he
    rw [h] at he
    cases he
  · rename_i q' hq'
    rw [h] at hq'
    cases hq'
    split <;> simp_all

theorem settle_of_sweep (h : p.sweep c u = .ok q) :
    p.settle c u = if q.changed = true then q.settle c u else .ok q := settleBy_of_sweepBy h

theorem exists_settle (hc : c.WellFormed) (h : Consistent c u p) :
    ∃ q, p.settle c u = .ok q ∧ q.changed = false ∧ Moment.Later c u (.sweepOf c p) ⟨q, []⟩ := by
  induction hr : p.room c u using Nat.strongRecOn generalizing p with
  | _ n ih =>
    obtain ⟨q, hq, hlater⟩ := exists_sweep hc h
    rw [settle_of_sweep hq]
    cases hchanged : q.changed with
    | false => exact ⟨q, rfl, hchanged, hlater⟩
    | true =>
      have hsound := Moment.sound_of_later hc (Moment.sound_sweepOf hc h) hlater
      have hlt : q.room c u < n := hr ▸ room_lt_of_sweep hq hchanged
      obtain ⟨r, hrun, hr', hrest⟩ := ih _ hlt hsound.consistent rfl
      exact ⟨r, hrun, hr', hlater.trans (.first (.sweep hchanged) hrest)⟩

/-- The run ends, at a moment that no further one follows. -/
theorem exists_run (hc : c.WellFormed) :
    ∃ q, run c u = .ok q ∧ q.changed = false ∧ Moment.OfRun c u ⟨q, []⟩ := by
  obtain ⟨p, hp⟩ := begins_exists (u := u) hc
  obtain ⟨q, hq, hchanged, hlater⟩ := exists_settle hc (consistent_of_begins hc hp)
  refine ⟨q, ?_, hchanged, p, hp, hlater⟩
  obtain ⟨t, ht, rfl⟩ := hp
  exact bind_eq_ok.mpr ⟨t, keeping_eq_ok.mpr ht, hq⟩

/-! ## What every moment keeps -/

/-- What a run keeps from before its first visit to its end. -/
structure Moment.Kept (c : Code) (u : Universe) (m : Moment) : Prop where
  rows : m.state.tables.tails.size = c.blocks.size ∧
    m.state.tables.heads.size = c.blocks.size ∧ m.state.dirty.size = c.blocks.size
  /-- A tail has the late uses of its terminator and what is recorded at its successors' heads. -/
  tail : ∀ k b, c.blocks[k]? = some b → ∀ x, x ∈ m.state.tailAt k ↔
    x ∈ Sets.lateAtTail c u b ∨ ∃ s ∈ b.successors, x ∈ m.state.headAt s.index
  /-- What is recorded at a head is recorded once, and a cursor that comes up from the tail shows it;
  of a clean block it is all that the cursor shows. -/
  head : ∀ k b, c.blocks[k]? = some b → (m.state.headAt k).Nodup ∧
    ∃ live, Cursor.headShown c u b (m.state.tailAt k) = .ok live ∧
      m.state.headAt k ⊆ live.toList ∧
      (m.state.dirtyAt k = false → live.toList ⊆ m.state.headAt k)
  /-- Nothing that the tables hold is ever lost. -/
  grows : ∀ n, Moment.Later c u m n → m.state.Included n.state
  insertions : m.state.stats.insertions = m.state.recorded
  /-- A sweep that ends without a change leaves no work. -/
  quiet : m.ahead = [] → m.state.changed = false → m.state.Quiet
  /-- The run goes on, unless such a sweep has just ended. -/
  next : (∃ n, Moment.Next c u m n) ∨ m.ahead = [] ∧ m.state.changed = false

theorem Moment.kept_of_sound {m : Moment} (hc : c.WellFormed) (h : m.Sound c u) :
    m.Kept c u where
  rows := ⟨h.consistent.fits.tails, h.consistent.fits.heads, h.consistent.fits.dirty⟩
  tail := h.consistent.tail
  head := by
    intro k b hb
    obtain ⟨live, hlive, hshows⟩ :=
      Cursor.headShown_shows (hc.block_known u hb) (h.consistent.fits.below k)
    refine ⟨h.consistent.head_nodup k, live, hlive, fun x hx => ?_, fun hclean x hx => ?_⟩
    · exact (hshows x).mpr (h.consistent.head_sub k b hb x hx)
    · exact h.consistent.head_clean k b hb hclean x ((hshows x).mp hx)
  grows := fun _ hl => included_of_later hl
  insertions := h.consistent.insertions
  quiet := quiet_of_done h
  next := next_or_done hc h

/-- Every moment of a run over a finished unit keeps all of this, and the run comes to an end, at a
moment that leaves no work. -/
theorem moments_kept {d : Draft} {c : Code} (u : Universe) (h : d.finish = .ok c) :
    (∀ m, Moment.OfRun c u m → m.Kept c u) ∧
      ∃ q, run c u = .ok q ∧ Moment.OfRun c u ⟨q, []⟩ ∧ q.changed = false ∧ q.Quiet := by
  have hc := Draft.wellFormed_of_finish h
  refine ⟨fun m hm => Moment.kept_of_sound hc (Moment.sound_of_ofRun hc hm), ?_⟩
  obtain ⟨q, hq, hchanged, hm⟩ := exists_run (u := u) hc
  exact ⟨q, hq, hm, hchanged, Moment.quiet_of_done (Moment.sound_of_ofRun hc hm) rfl hchanged⟩

/-- Where the run over the sample ends. -/
theorem run_sample (h : run Draft.sample.freeze (.temps .gp) = .ok q) :
    q.tables.tails.map (·.toList) = #[[1, 2, 3], [1, 2, 3], [1, 3], []] ∧
      q.tables.heads = #[[1, 3], [1, 2, 3], [1, 2, 3], [1]] := by
  have hend : (faultOnly (run Draft.sample.freeze (.temps .gp))).map
      (fun q => (q.tables.tails.map (·.toList), q.tables.heads)) =
      .ok (#[[1, 2, 3], [1, 2, 3], [1, 3], []], #[[1, 3], [1, 2, 3], [1, 2, 3], [1]]) := by
    decide +kernel
  rw [h] at hend
  exact Prod.ext_iff.mp (Except.ok.inj hend)

/-- All of the four heads have something to record. -/
theorem moments_kept_sample : Draft.sample.finish = .ok Draft.sample.freeze ∧
    ∃ q, run Draft.sample.freeze (.temps .gp) = .ok q ∧
      Moment.Kept Draft.sample.freeze (.temps .gp) ⟨q, []⟩ ∧ q.Quiet ∧
      q.tables.heads = #[[1, 3], [1, 2, 3], [1, 2, 3], [1]] := by
  obtain ⟨hkept, q, hq, hm, -, hquiet⟩ := moments_kept (.temps .gp) Draft.finish_sample
  exact ⟨Draft.finish_sample, q, hq, hkept _ hm, hquiet, (run_sample hq).2⟩

end MachineLiveness.Propagation
