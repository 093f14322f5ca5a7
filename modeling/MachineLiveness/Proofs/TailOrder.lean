import MachineLiveness.Proofs.Plain
import MachineLiveness.Proofs.Refusal

/-!
The order in which the members of a tail are listed is of no account. It determines in which order a
visit finds what is new at the head, and nothing else; so the run comes to the same tails, counts and
visits under every lawful listing. And cursors that come from tails listed differently cannot be told
apart: whatever they are asked, they answer alike and list the same entities.
-/

namespace MachineLiveness

/-! ## Visits and runs -/

namespace Propagation

variable {c : Code} {u : Universe} {order order' : Listing} {p q r : Propagation} {b : Block}
  {k : Nat}

theorem Alike.symm (h : p.Alike q) : q.Alike p where
  tail := fun k => (h.tail k).symm
  head := fun k => (h.head k).symm
  dirty := fun k => (h.dirty k).symm
  changed := h.changed.symm
  stats := h.stats.symm
  visits := h.visits.symm

theorem Alike.trans (hpq : p.Alike q) (hqr : q.Alike r) : p.Alike r where
  tail := fun k => (hpq.tail k).trans (hqr.tail k)
  head := fun k => (hpq.head k).trans (hqr.head k)
  dirty := fun k => (hpq.dirty k).trans (hqr.dirty k)
  changed := hpq.changed.trans hqr.changed
  stats := hpq.stats.trans hqr.stats
  visits := hpq.visits.trans hqr.visits

/-- Visits of a block in alike states leave alike states, in whatever order each lists the tail. -/
theorem exists_alike_of_visitBy (hc : c.WellFormed) (ho : order.Lawful) (ho' : order'.Lawful)
    (hp : Consistent c u p) (hq : Consistent c u q) (h : p.Alike q)
    (hb : c.blocks[k]? = some b) :
    ∃ p' q', p.visitBy c u order b = .ok p' ∧ q.visitBy c u order' b = .ok q' ∧ p'.Alike q' := by
  obtain ⟨p', hp'⟩ := exists_visitBy_of_consistent hc ho hp hb
  obtain ⟨q', hq'⟩ := exists_visitBy_of_consistent hc ho' hq hb
  exact ⟨p', q', hp', hq', alike_of_explored h (explored_of_visitBy hc ho hp hb hp')
    (explored_of_visitBy hc ho' hq hb hq')⟩

/-- Every listing leads to where the run ends: both runs are alike to one plain run. -/
theorem exists_alike_of_runBy (hc : c.WellFormed) (ho : order.Lawful) :
    ∃ p q, run c u = .ok p ∧ runBy c u order = .ok q ∧ p.Alike q ∧ Consistent c u p ∧
      p.tables.tails = q.tables.tails := by
  obtain ⟨p, s, hp, hs, hps⟩ := PlainRun.exists_twins_of_run (u := u) hc
    Listing.lawful_ascending Listing.lawful_ascending
  obtain ⟨q, s', hq, hs', hqs⟩ := PlainRun.exists_twins_of_run (u := u) hc ho
    Listing.lawful_ascending
  obtain rfl : s' = s := hs.unique hs'
  have halike : p.Alike q := hps.alike.trans hqs.alike.symm
  exact ⟨p, q, hp, hq, halike, hps.run, tails_eq_of_tailAt hps.run.fits hqs.run.fits halike.tail⟩

end Propagation

/-! ## Cursors -/

namespace Cursor

variable {c : Code} {u : Universe} {b : Block} {k k' : Cursor} {i n : Nat}

/-- Both cursors stand at the same place of the block and show the same members, in whatever order. -/
structure Alike (c : Code) (u : Universe) (b : Block) (k k' : Cursor) : Prop where
  left : k.In c u b
  right : k'.In c u b
  position : k.position = k'.position
  live : ∀ x, x ∈ k.live.toList ↔ x ∈ k'.live.toList

theorem Alike.execute (hb : b.Known c u) (h : k.Alike c u b k') (hi : i < k.position) :
    ∃ l l', k.execute c u i = .ok l ∧ k'.execute c u i = .ok l' ∧ l.position = i ∧
      l.Alike c u b l' := by
  obtain ⟨l, hl, hpos, hin, _, hshows⟩ := exists_execute hb h.left hi
  obtain ⟨l', hl', hpos', hin', _, hshows'⟩ := exists_execute hb h.right (h.position ▸ hi)
  have hbelow : k.live.Shows (.ofList k.live.toList) := fun x => by simp
  have hbelow' : k'.live.Shows (.ofList k.live.toList) := fun x => by simp [h.live]
  exact ⟨l, l', hl, hl', hpos, hin, hin', hpos.trans hpos'.symm,
    fun x => (hshows _ hbelow x).trans (hshows' _ hbelow' x).symm⟩

theorem Alike.executeDown (hb : b.Known c u) (h : k.Alike c u b k') (hn : i + n ≤ k.position) :
    ∃ l l', k.executeDown c u i n = .ok l ∧ k'.executeDown c u i n = .ok l' ∧
      l.Alike c u b l' := by
  induction n generalizing k k' with
  | zero => exact ⟨k, k', rfl, rfl, h⟩
  | succ n ih =>
    obtain ⟨l, l', hl, hl', hpos, hstep⟩ := h.execute hb (i := i + n) (by omega)
    obtain ⟨m, m', hm, hm', hrest⟩ := ih hstep (Nat.le_of_eq hpos.symm)
    exact ⟨m, m', bind_eq_ok.mpr ⟨l, hl, hm⟩, bind_eq_ok.mpr ⟨l', hl', hm'⟩, hrest⟩

theorem Alike.perform (hb : b.Known c u) (h : k.Alike c u b k') (cmd : Command u) :
    (k.perform c u cmd).1 = (k'.perform c u cmd).1 ∧
      (k.perform c u cmd).2.Alike c u b (k'.perform c u cmd).2 := by
  cases cmd with
  | execute i =>
    rcases Nat.lt_or_ge i k.position with hi | hi
    · obtain ⟨l, l', hl, hl', -, hstep⟩ := h.execute hb hi
      rw [Cursor.perform, Cursor.perform, hl, hl']
      exact ⟨rfl, hstep⟩
    · rw [Cursor.perform, Cursor.perform, execute_of_le hi, execute_of_le (h.position ▸ hi),
        h.left.block, h.right.block, h.position]
      exact ⟨rfl, h⟩
  | executeAll =>
    obtain ⟨l, l', hl, hl', hstep⟩ := h.executeDown hb (i := 0) (n := k.position - 0) (by omega)
    have hl : k.executeAll c u = .ok l := hl
    have hl' : k'.executeAll c u = .ok l' := by
      rw [h.position] at hl'
      exact hl'
    rw [Cursor.perform, Cursor.perform, hl, hl']
    exact ⟨rfl, hstep⟩
  | isLive e =>
    refine ⟨?_, h⟩
    rw [Cursor.perform, Cursor.perform]
    cases hi : u.indexOf c e with
    | ok i =>
      have hhas : k.live.has i = k'.live.has i := by
        rw [Bool.eq_iff_iff, IndexSet.has_iff, IndexSet.has_iff, h.live]
      rw [isLive_eq h.left hi, isLive_eq h.right hi, hhas]
    | error f =>
      rw [isLive, isLive, hi]
      rfl

/-- No commands tell the cursors apart. -/
def Indistinguishable (c : Code) (u : Universe) (k k' : Cursor) : Prop :=
  ∀ cmds : List (Command u),
    (history (perform c u) k cmds).1 = (history (perform c u) k' cmds).1 ∧
      (history (perform c u) k cmds).2.entities c u = (history (perform c u) k' cmds).2.entities c u

theorem Alike.indistinguishable (hb : b.Known c u) (h : k.Alike c u b k') :
    k.Indistinguishable c u k' := by
  intro cmds
  obtain ⟨hanswers, hleft⟩ := history_related (R := Alike c u b) (fun _ _ cmd h => h.perform hb cmd)
    h cmds
  exact ⟨hanswers, entities_congr hleft.live⟩

theorem exists_alike_of_start {tail : Indices} {listed : List Nat}
    (ht : ∀ x ∈ tail, x < u.size c) (hl : listed.Perm tail.toList) :
    ∃ start start', Cursor.start c u b tail.toList (.empty (u.size c)) = .ok start ∧
      Cursor.start c u b listed (.empty (u.size c)) = .ok start' ∧ start.Alike c u b start' := by
  have hbound := IndexSet.bound_empty (u.size c)
  obtain ⟨k, hk, hshows⟩ := start_shows (b := b) hbound ht fun x => Std.ExtTreeSet.mem_toList
  obtain ⟨k', hk', hshows'⟩ := start_shows (b := b) hbound ht fun x =>
    hl.mem_iff.trans Std.ExtTreeSet.mem_toList
  exact ⟨k, k', hk, hk', ⟨hshows.block, hshows.bound⟩, ⟨hshows'.block, hshows'.bound⟩,
    hshows.position.trans hshows'.position.symm,
    fun x => (hshows.live x).trans (hshows'.live x).symm⟩

/-- At the head of the block a cursor shows the same, however the tail was listed. -/
theorem headShown_of_listed {tail : Indices} {listed : List Nat} (hb : b.Known c u)
    (ht : ∀ x ∈ tail, x < u.size c) (hl : listed.Perm tail.toList) :
    ∃ live start top, headShown c u b tail = .ok live ∧
      Cursor.start c u b listed (.empty (u.size c)) = .ok start ∧
      start.executeAll c u = .ok top ∧ ∀ x, x ∈ live.toList ↔ x ∈ top.live.toList := by
  have hmem (x : Nat) : x ∈ listed ↔ x ∈ tail := hl.mem_iff.trans Std.ExtTreeSet.mem_toList
  obtain ⟨live, hlive, hshows⟩ := headShown_shows hb ht
  obtain ⟨start, top, hstart, htop, -, hshows'⟩ :=
    executeAll_shows hb (IndexSet.bound_empty (u.size c)) ht hmem
  exact ⟨live, start, top, hlive, hstart, faultOnly_eq_ok.mp htop,
    fun x => (hshows x).trans (hshows' x).symm⟩

end Cursor

namespace Liveness

/-- Over a finished unit every lawful listing leads the analysis to the same result, by the same
visits; and a cursor that comes from a tail so listed cannot be told from the one that `cursor`
gives. -/
theorem listings_agree {d : Draft} {c : Code} (u : Universe) (h : d.finish = .ok c)
    {order : Listing} (ho : order.Lawful) :
    ∃ p q, Propagation.run c u = .ok p ∧ Propagation.runBy c u order = .ok q ∧ p.Alike q ∧
      ofRun c u p = ofRun c u q ∧
      ∀ b ∈ c.blocks, ∃ tail, (ofRun c u p).tailIndices b.id = .ok tail ∧ ∀ n,
        ∃ start start', (ofRun c u p).cursor b = .ok start ∧
          Cursor.start c u b (order n tail) (.empty (u.size c)) = .ok start' ∧
          start.Indistinguishable c u start' := by
  have hc := Draft.wellFormed_of_finish h
  obtain ⟨p, q, hp, hq, halike, hconsistent, htails⟩ :=
    Propagation.exists_alike_of_runBy (u := u) hc ho
  refine ⟨p, q, hp, hq, halike, by rw [ofRun, ofRun, htails, halike.stats], fun b hmem => ?_⟩
  obtain ⟨k, hb⟩ := Array.mem_iff_getElem?.mp hmem
  have htail := tailIndices_eq hc hconsistent hb
  refine ⟨p.tailAt k, htail, fun n => ?_⟩
  obtain ⟨start, start', hstart, hstart', hsame⟩ :=
    Cursor.exists_alike_of_start (b := b) (hconsistent.fits.below k) (ho n (p.tailAt k))
  exact ⟨start, start', bind_eq_ok.mpr ⟨_, htail, hstart⟩, hstart',
    hsame.indistinguishable (hc.block_known u hb)⟩

/-- What the order does change is the order of what is recorded at a head. -/
example : (faultOnly (Propagation.run Draft.sample.freeze (.temps .gp))).map (·.headAt 0) =
      .ok [1, 3] ∧
    (faultOnly (Propagation.runBy Draft.sample.freeze (.temps .gp) fun _ t => t.toList.reverse)).map
      (·.headAt 0) = .ok [3, 1] := by
  decide +kernel

end Liveness

end MachineLiveness
