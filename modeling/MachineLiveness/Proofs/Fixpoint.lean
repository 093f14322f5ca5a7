import MachineLiveness.Liveness
import MachineLiveness.Proofs.Run
import MachineLiveness.Proofs.Solution

/-!
Where visits come to rest. No state ever has an index that some solution of the equations has not
(`Below`), and a state without dirty blocks solves them; so visits can come to rest at the least
solution only. The run does, and `Liveness` answers every question from there.
-/

namespace MachineLiveness

namespace Propagation

variable {c : Code} {u : Universe} {p q : Propagation} {b : Block} {k : Nat}

/-- The tables as sets. -/
def sets (p : Propagation) : Sets := ⟨p.tailAt, fun k => .ofList (p.headAt k)⟩

theorem mem_sets_head {x : Nat} : x ∈ p.sets.head k ↔ x ∈ p.headAt k := by
  simp [sets]

theorem solves_of_quiet (h : Consistent c u p) (hq : p.Quiet) : p.sets.Solves c u := by
  constructor
  · intro k b hb
    apply Std.ExtTreeSet.ext_mem
    intro x
    rw [Sets.mem_tailOf]
    simp only [mem_sets_head]
    exact h.tail k b hb x
  · intro k b hb
    apply Std.ExtTreeSet.ext_mem
    intro x
    rw [mem_sets_head]
    exact ⟨h.head_sub k b hb x, h.head_clean k b hb (quiet_iff.mp hq k) x⟩

theorem within_of_consistent (h : Consistent c u p) : p.sets.Within c u := by
  rintro k x (hx | hx)
  · exact ⟨h.fits.tails ▸ lt_of_mem_tailAt hx, h.fits.below k x hx⟩
  · rw [mem_sets_head] at hx
    have hk : k < c.blocks.size := h.fits.heads ▸ lt_of_mem_headAt hx
    have hhead := h.head_sub k _ (Array.getElem?_eq_getElem hk) x hx
    exact ⟨hk, Sets.lt_size_of_mem_headOf (h.fits.below k) hhead⟩

/-! ## Below every solution -/

/-- Every solution has what the tables have. -/
def Below (c : Code) (u : Universe) (p : Propagation) : Prop := ∀ s, s.Solves c u → p.sets.Le s

theorem below_of_begins (hc : c.WellFormed) (h : Begins c u p) : p.Below c u := by
  intro s hs k
  constructor
  · intro x hx
    have hk : k < c.blocks.size := (fits_of_begins hc h).tails ▸ lt_of_mem_tailAt hx
    have hb := Array.getElem?_eq_getElem hk
    rw [hs.tail k _ hb]
    exact Sets.mem_tailOf.mpr (.inl ((mem_tailAt_of_begins hc h hb x).mp hx))
  · intro x hx
    rw [mem_sets_head, headAt_of_begins hc h] at hx
    cases hx

theorem below_of_visit (hc : c.WellFormed) (h : Consistent c u p) (hbelow : p.Below c u)
    (hb : c.blocks[k]? = some b) (hv : p.visit c u b = .ok q) : q.Below c u := by
  rcases explored_of_visit hc h hb hv with _ | ⟨found, -, hvisited, hmem⟩
  · exact hbelow
  intro s hs j
  have hle := hbelow s hs
  have hfound : ∀ x ∈ found, x ∈ s.head k := by
    intro x hx
    rw [hs.head k b hb]
    exact Sets.headOf_mono (hle k).1 x ((hmem x).mp hx).1
  constructor
  · intro x hx
    rcases (hvisited.tail j x).mp hx with hx | ⟨hpred, hx⟩
    · exact (hle j).1 x hx
    · obtain ⟨a, ha, t, ht, htk⟩ := (hc.edge_iff_predecessor hb).mpr hpred
      rw [hs.tail j a ha]
      exact Sets.mem_tailOf.mpr (.inr ⟨t, ht, htk ▸ hfound x hx⟩)
  · intro x hx
    rw [mem_sets_head, hvisited.mem_headAt hc hb] at hx
    rcases hx with hx | ⟨rfl, hx⟩
    · exact (hle j).2 x (mem_sets_head.mpr hx)
    · exact hfound x hx

theorem least_of_quiet (h : Consistent c u p) (hbelow : p.Below c u) (hq : p.Quiet) :
    p.sets.Least c u := ⟨solves_of_quiet h hq, hbelow⟩

theorem Moment.below_of_later {m n : Moment} (hc : c.WellFormed) (h : m.Sound c u)
    (hbelow : m.state.Below c u) (hl : Later c u m n) : n.state.Below c u := by
  induction hl with
  | refl => exact hbelow
  | step hl hn ih =>
    have hsound := sound_of_later hc h hl
    cases hn with
    | visit hv =>
      obtain ⟨k, hb⟩ := hsound.ahead _ List.mem_cons_self
      exact below_of_visit hc hsound.consistent ih hb hv
    | sweep _ => exact ih

theorem Moment.below_of_ofRun {m : Moment} (hc : c.WellFormed) (h : m.OfRun c u) :
    m.state.Below c u := by
  obtain ⟨p, hp, hl⟩ := h
  have hbelow := below_of_begins hc hp
  exact below_of_later hc (sound_sweepOf hc (consistent_of_begins hc hp)) hbelow hl

/-- The run ends, and ends at the least solution. -/
theorem exists_least_run (hc : c.WellFormed) :
    ∃ q, run c u = .ok q ∧ Consistent c u q ∧ q.Quiet ∧ q.sets.Least c u := by
  obtain ⟨q, hq, hchanged, hm⟩ := exists_run (u := u) hc
  have hsound := Moment.sound_of_ofRun hc hm
  have hquiet := Moment.quiet_of_done hsound rfl hchanged
  have hbelow := Moment.below_of_ofRun hc hm
  exact ⟨q, hq, hsound.consistent, hquiet, least_of_quiet hsound.consistent hbelow hquiet⟩

end Propagation

/-! ## The answers -/

/-- A list of the entities whose indices are in a set. -/
def Universe.Lists (c : Code) (u : Universe) (es : List u.Entity) (t : Indices) : Prop :=
  ∀ e, e ∈ es ↔ ∃ i ∈ t, u.indexOf c e = .ok i

namespace Liveness

variable {c : Code} {u : Universe} {q : Propagation} {b : Block} {k : Nat}

theorem tailIndices_eq (hc : c.WellFormed) (h : q.Consistent c u) (hb : c.blocks[k]? = some b) :
    (ofRun c u q).tailIndices b.id = .ok (q.tailAt k) := h.fits.tail_eq hc hb

theorem exists_atTail (hc : c.WellFormed) (hs : c.slots.size ≤ UInt32.size) (h : q.Consistent c u)
    (hb : c.blocks[k]? = some b) :
    ∃ es, (ofRun c u q).atTail b.id = .ok es ∧ u.Lists c es (q.tailAt k) := by
  have hlt : ∀ i ∈ (q.tailAt k).toList, i < u.size c :=
    fun i hi => h.fits.below k i (Std.ExtTreeSet.mem_toList.mp hi)
  obtain ⟨es, hes, hmem⟩ := Universe.mapM_entityAt hs hlt
  refine ⟨es, bind_eq_ok.mpr ⟨_, tailIndices_eq hc h hb, hes⟩, fun e => ?_⟩
  rw [hmem]
  simp only [Std.ExtTreeSet.mem_toList]

theorem exists_start (hc : c.WellFormed) (h : q.Consistent c u) (hb : c.blocks[k]? = some b) :
    ∃ start, (ofRun c u q).cursor b = .ok start ∧
      Cursor.Shows c u b (q.tailAt k) b.insts.size start := by
  obtain ⟨start, hstart, hshows⟩ := Cursor.start_shows (b := b)
    (IndexSet.bound_empty (u.size c)) (h.fits.below k) fun x => Std.ExtTreeSet.mem_toList
  exact ⟨start, bind_eq_ok.mpr ⟨_, tailIndices_eq hc h hb, hstart⟩, hshows⟩

theorem exists_cursor (hc : c.WellFormed) (h : q.Consistent c u) (hb : c.blocks[k]? = some b)
    {i : Nat} (hi : i ≤ b.insts.size) :
    ∃ start top, (ofRun c u q).cursor b = .ok start ∧ start.executeTo c u i = .ok top ∧
      Cursor.Shows c u b (q.tailAt k) i top := by
  obtain ⟨start, hstart, hshows⟩ := exists_start hc h hb
  obtain ⟨top, htop, hshows⟩ := Cursor.executeTo_shows (hc.block_known u hb) hshows hi
  exact ⟨start, top, hstart, htop, hshows⟩

theorem above_eq {l : Liveness u} {i : Nat} {start top : Cursor} (hstart : l.cursor b = .ok start)
    (htop : start.executeTo l.code u i = .ok top) : l.above b i = top.entities l.code u := by
  rw [above, hstart]
  show (faultOnly (start.executeTo l.code u i) >>= fun k => k.entities l.code u) = _
  rw [htop]
  rfl

/-- A question about a place inside a block is answered by what lives there under the tail. -/
theorem exists_above (hc : c.WellFormed) (hs : c.slots.size ≤ UInt32.size) (h : q.Consistent c u)
    (hb : c.blocks[k]? = some b) {i : Nat} (hi : i ≤ b.insts.size) :
    ∃ es, (ofRun c u q).above b i = .ok es ∧
      u.Lists c es (Sets.liveAt c u b (q.tailAt k) i) := by
  obtain ⟨start, top, hstart, htop, hshows⟩ := exists_cursor hc h hb hi
  obtain ⟨es, hes, hmem⟩ := Cursor.exists_entities hs hshows.bound
  refine ⟨es, (above_eq hstart htop).trans hes, fun e => ?_⟩
  rw [hmem]
  simp only [hshows.live _]

/-- A result answers for the tails and the heads of all blocks with these sets, by indices and by
entities. -/
structure Reports (c : Code) (l : Liveness u) (s : Sets) : Prop where
  tailIndices : ∀ k b, c.blocks[k]? = some b → l.tailIndices b.id = .ok (s.tail k)
  atTail : ∀ k b, c.blocks[k]? = some b →
    ∃ es, l.atTail b.id = .ok es ∧ u.Lists c es (s.tail k)
  headIndices : ∀ k b, c.blocks[k]? = some b → ∃ start top, l.cursor b = .ok start ∧
    start.executeAll c u = .ok top ∧ top.live.Shows (s.head k)
  atHead : ∀ k b, c.blocks[k]? = some b →
    ∃ es, l.atHead b = .ok es ∧ u.Lists c es (s.head k)

theorem reports_of_solves (hc : c.WellFormed) (hs : c.slots.size ≤ UInt32.size)
    (h : q.Consistent c u) (hq : q.sets.Solves c u) : Reports c (ofRun c u q) q.sets where
  tailIndices := fun _ _ hb => tailIndices_eq hc h hb
  atTail := fun _ _ hb => exists_atTail hc hs h hb
  headIndices := by
    intro k b hb
    obtain ⟨start, top, hstart, htop, hshows⟩ := exists_cursor hc h hb (Nat.zero_le _)
    rw [hq.head k b hb]
    exact ⟨start, top, hstart, htop, hshows.live⟩
  atHead := by
    intro k b hb
    rw [hq.head k b hb]
    exact exists_above hc hs h hb (Nat.zero_le _)

/-- The analysis of a finished unit ends and answers with the least solution of the equations, in
which a head is what a cursor shows that has come up from the tail; and the rounds over empty sets
come to where no update changes anything, which is there as well. -/
theorem compute_least {d : Draft} {c : Code} (u : Universe) (h : d.finish = .ok c) :
    (∀ (k : Nat) (b : Block) (tail : Indices), c.blocks[k]? = some b →
      (∀ x ∈ tail, x < u.size c) → ∃ live, Cursor.headShown c u b tail = .ok live ∧
        live.Shows (Sets.headOf c u b tail)) ∧
    ∃ l s, compute c u = .ok l ∧ Reports c l s ∧ s.Least c u ∧ s.Within c u ∧
      (∃ n, (Sets.rounds c u n).Settled c u) ∧
      ∀ n, (Sets.rounds c u n).Settled c u → Sets.rounds c u n = s := by
  have hc := Draft.wellFormed_of_finish h
  have hs := Draft.slots_le_of_finish h
  refine ⟨fun k b tail hb ht => Cursor.headShown_shows (hc.block_known u hb) ht, ?_⟩
  obtain ⟨q, hq, hconsistent, -, hleast⟩ := Propagation.exists_least_run (u := u) hc
  have hwithin := Propagation.within_of_consistent hconsistent
  have hcompute : compute c u = .ok (ofRun c u q) :=
    map_eq_ok.mpr ⟨q, faultOnly_eq_ok.mpr hq, rfl⟩
  refine ⟨_, q.sets, hcompute, reports_of_solves hc hs hconsistent hleast.1, hleast, hwithin,
    Sets.exists_settled_rounds hleast.1 hwithin, fun n hn => ?_⟩
  exact (Sets.least_of_settled hn).unique hleast

/-- A register that the last block reads, the pointer and the sum are live at the tail of the first
block. -/
theorem compute_least_sample : Draft.sample.finish = .ok Draft.sample.freeze ∧
    ∃ l s, compute Draft.sample.freeze (.temps .gp) = .ok l ∧ Reports Draft.sample.freeze l s ∧
      s.Least Draft.sample.freeze (.temps .gp) ∧
      l.atTail ⟨0⟩ = .ok [.reg ⟨.gp, 1⟩, .virtual .gp 0, .virtual .gp 1] ∧
      Universe.Lists Draft.sample.freeze (.temps .gp)
        [.reg ⟨.gp, 1⟩, .virtual .gp 0, .virtual .gp 1] (s.tail 0) := by
  have hshown : (compute Draft.sample.freeze (.temps .gp)).bind (·.atTail ⟨0⟩) =
      .ok [.reg ⟨.gp, 1⟩, .virtual .gp 0, .virtual .gp 1] := by
    decide +kernel
  have hlt : 0 < Draft.sample.freeze.blocks.size := by decide +kernel
  have hid : Draft.sample.freeze.blocks[0].id = ⟨0⟩ := by decide +kernel +revert
  obtain ⟨-, l, s, hl, hreports, hleast, -⟩ := compute_least (.temps .gp) Draft.finish_sample
  obtain ⟨es, hes, hlists⟩ := hreports.atTail 0 _ (Array.getElem?_eq_getElem hlt)
  rw [hl] at hshown
  rw [hid] at hes
  obtain rfl := Except.ok.inj (hes.symm.trans hshown)
  exact ⟨Draft.finish_sample, l, s, hl, hreports, hleast, hes, hlists⟩

end Liveness

end MachineLiveness
