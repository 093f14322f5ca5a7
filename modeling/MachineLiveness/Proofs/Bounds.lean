import MachineLiveness.Proofs.Faults
import MachineLiveness.Proofs.Schedule

/-!
Runs over any unit whatever: ids may be wrong or used twice, predecessors and edges may be anything,
terminators may be missing. Nothing is known of what such a run computes, but it comes to an end, with
a result or with a fault, and its counts are bounded: visits and sweeps are paid for by the weight and
the room of the first state (`Moment.Paid`), and a head never holds an index twice.
-/

namespace MachineLiveness

/-- No count is larger than this many blocks and a universe of this size allow. -/
structure Stats.Within (s : Stats) (blocks size : Nat) : Prop where
  insertions : s.insertions ≤ size * blocks
  sweeps : s.sweeps ≤ 1 + size * blocks
  blockVisits : s.blockVisits ≤ blocks + size * blocks

namespace Propagation

variable {c : Code} {u : Universe} {p q : Propagation} {b : Block}

/-! ## What a visit costs -/

/-- The room left in the tails, and one more if the sweep has made a change. -/
def credit (c : Code) (u : Universe) (p : Propagation) : Nat := p.room c u + p.changed.toNat

theorem credit_le_of_visit (h : p.visit c u b = .ok q) : q.credit c u ≤ p.credit c u := by
  obtain ⟨hroom, hchanged⟩ := leads_of_visit h
  unfold credit
  cases hq : q.changed with
  | false => exact Nat.le_trans hroom (Nat.le_add_right _ _)
  | true =>
    have hone : (true : Bool).toNat = 1 := rfl
    rcases hchanged hq with hp | hlt
    · rw [hp]
      omega
    · omega

theorem recorded_le {n : Nat} (hnodup : ∀ k, (p.headAt k).Nodup)
    (hbelow : ∀ k, ∀ x ∈ p.headAt k, x < n) : p.recorded ≤ p.tables.heads.size * n := by
  refine total_le fun head hhead => ?_
  obtain ⟨k, hk⟩ := List.mem_iff_getElem?.mp hhead
  have hk : p.headAt k = head := by
    rw [headAt, Tables.headAt, ← Array.getElem?_toList, hk, Option.getD_some]
  have hsub : p.headAt k ⊆ List.range n := fun x hx => List.mem_range.mpr (hbelow k x hx)
  have hle := ((hnodup k).subperm hsub).length_le
  rw [hk, List.length_range] at hle
  exact hle

/-! ## What the moments of a run keep -/

namespace Moment

/-- What the moments of a run from this first state keep. -/
structure Paid (c : Code) (u : Universe) (p : Propagation) (m : Moment) : Prop where
  heads : m.state.tables.heads.size = c.blocks.size
  head_nodup : ∀ k, (m.state.headAt k).Nodup
  head_below : ∀ k, ∀ x ∈ m.state.headAt k, x < u.size c
  insertions : m.state.stats.insertions = m.state.recorded
  /-- Each visit takes some weight away. -/
  blockVisits : m.state.stats.blockVisits + m.state.weight c u ≤ p.weight c u
  /-- Each sweep but the first uses up the change that the sweep before it has made. -/
  sweeps : m.state.stats.sweeps + m.state.credit c u ≤ 1 + p.room c u

variable {m n : Moment}

theorem paid_visit {bs : List Block} {r : Propagation} (h : Paid c u r ⟨p, b :: bs⟩)
    (hv : p.visit c u b = .ok q) : Paid c u r ⟨q, bs⟩ := by
  have hcredit := credit_le_of_visit hv
  obtain ⟨hheads, hnodup, hbelow, hinsertions, hvisits, hsweeps⟩ := h
  rcases visit_cases hv with ⟨-, rfl⟩ | ⟨found, -, hfound, hvisited⟩
  · exact ⟨hheads, hnodup, hbelow, hinsertions, hvisits, hsweeps⟩
  have hnew := not_mem_headAt_of_discover hfound
  have hlt : ∀ x ∈ found.toList, x < u.size c :=
    fun x hx => bound_of_discover hfound ▸ IndexSet.lt_bound hx
  refine ⟨hvisited.heads_size.trans hheads, hvisited.head_nodup hnodup hnew, fun k x hx => ?_, ?_,
    ?_, ?_⟩
  · rw [hvisited.head] at hx
    split at hx
    · rcases List.mem_append.mp hx with hx | hx
      · exact hbelow k x hx
      · exact hlt x hx
    · exact hbelow k x hx
  · show q.stats.insertions = q.recorded
    have hinsertions : p.stats.insertions = p.recorded := hinsertions
    rw [hvisited.stats, hvisited.recorded, hinsertions]
  · have hweight := hvisited.weight
    have hvisits : p.stats.blockVisits + p.weight c u ≤ r.weight c u := hvisits
    show q.stats.blockVisits + q.weight c u ≤ r.weight c u
    rw [hvisited.stats]
    dsimp only
    omega
  · have hsweeps : p.stats.sweeps + p.credit c u ≤ 1 + r.room c u := hsweeps
    show q.stats.sweeps + q.credit c u ≤ 1 + r.room c u
    rw [hvisited.stats]
    dsimp only
    omega

theorem paid_of_next (h : Paid c u p m) (hn : Next c u m n) : Paid c u p n := by
  cases hn with
  | visit hv => exact paid_visit h hv
  | @sweep q hc =>
    obtain ⟨hheads, hnodup, hbelow, hinsertions, hvisits, hsweeps⟩ := h
    refine ⟨hheads, hnodup, hbelow, hinsertions, hvisits, ?_⟩
    have hsweeps : q.stats.sweeps + (q.room c u + q.changed.toNat) ≤ 1 + p.room c u := hsweeps
    show q.stats.sweeps + 1 + q.room c u ≤ 1 + p.room c u
    rw [hc, Bool.toNat_true] at hsweeps
    omega

theorem paid_of_later (h : Paid c u p m) (hl : Later c u m n) : Paid c u p n := by
  induction hl with
  | refl => exact h
  | step _ hn ih => exact paid_of_next ih hn

/-! ## How many moments there are -/

/-- More moments than this cannot follow: as many as the sweep has blocks ahead, and for each further
sweep one for each block and one for its beginning. -/
def remaining (c : Code) (u : Universe) (m : Moment) : Nat :=
  m.ahead.length + m.state.credit c u * (c.blocks.size + 1)

theorem remaining_lt_of_next (h : Next c u m n) : n.remaining c u < m.remaining c u := by
  cases h with
  | @visit p q b bs hv =>
    have hle := Nat.mul_le_mul_right (c.blocks.size + 1) (credit_le_of_visit hv)
    show bs.length + q.credit c u * _ < (b :: bs).length + p.credit c u * _
    rw [List.length_cons]
    omega
  | @sweep p hc =>
    have hbefore : p.credit c u = p.room c u + 1 := by rw [credit, hc, Bool.toNat_true]
    have hafter : p.beginSweep.credit c u = p.room c u := rfl
    have hahead : (sweepOf c p).ahead.length = c.blocks.size := by simp [sweepOf]
    show (sweepOf c p).ahead.length + p.beginSweep.credit c u * (c.blocks.size + 1) <
      0 + p.credit c u * (c.blocks.size + 1)
    rw [hahead, hafter, hbefore, Nat.succ_mul]
    omega

theorem length_le_of_chain {ms : List Moment} (h : List.IsChain (Next c u) (m :: ms)) :
    ms.length ≤ m.remaining c u := by
  induction ms generalizing m with
  | nil => exact Nat.zero_le _
  | cons n ms ih =>
    obtain ⟨hn, hrest⟩ := List.isChain_cons_cons.mp h
    have hlt := remaining_lt_of_next hn
    have hle := ih hrest
    rw [List.length_cons]
    omega

end Moment

/-! ## The first state -/

/-- The tables have a row for each of `n` blocks, and nothing is recorded at any head. -/
structure Unrecorded (n : Nat) (t : Tables) : Prop where
  tails : t.tails.size = n
  heads : t.heads = .replicate n []

theorem unrecorded_of_seed {t : Tables} (h : seed c u = .ok t) : Unrecorded c.blocks.size t := by
  refine foldlM_keeps (P := Unrecorded c.blocks.size) (fun t b t' ht hb => ?_)
    ⟨by simp [Tables.empty], rfl⟩ h
  obtain ⟨last, -, hb⟩ := bind_eq_ok.mp hb
  refine foldlM_keeps (P := Unrecorded c.blocks.size) (fun t e t' ht he => ?_) ht hb
  obtain ⟨i, -, he⟩ := bind_eq_ok.mp he
  obtain ⟨⟨new, t₁⟩, hadd, he⟩ := bind_eq_ok.mp he
  cases he
  obtain ⟨_, -, hheads, htails⟩ := Tables.addToTail_eq_ok hadd
  exact ⟨by simp [htails, ht.tails], hheads.trans ht.heads⟩

theorem room_le_of_begins (h : Begins c u p) : p.room c u ≤ u.size c * c.blocks.size := by
  obtain ⟨t, ht, rfl⟩ := h
  have hroom := room_le (c := c) (u := u) (ofTables c u t)
  rw [Nat.mul_comm, ← (unrecorded_of_seed ht).tails]
  exact hroom

theorem weight_le_add_room (h : Begins c u p) : p.weight c u ≤ c.blocks.size + p.room c u := by
  obtain ⟨t, -, rfl⟩ := h
  have hcount : (ofTables c u t).dirty.count true ≤ (ofTables c u t).dirty.size :=
    Array.count_le_size
  have hsize : (ofTables c u t).dirty.size = c.blocks.size := by simp [ofTables]
  unfold weight
  omega

theorem Moment.paid_sweepOf (h : Begins c u p) : Moment.Paid c u p (.sweepOf c p) := by
  obtain ⟨t, ht, rfl⟩ := h
  obtain ⟨-, hheads⟩ := unrecorded_of_seed ht
  have hhead (k : Nat) : (ofTables c u t).beginSweep.headAt k = [] := by
    show (t.heads[k]?).getD [] = []
    rw [hheads, Array.getElem?_replicate]
    split <;> rfl
  refine ⟨?_, fun k => ?_, fun k x hx => ?_, ?_, ?_, ?_⟩
  · show t.heads.size = c.blocks.size
    rw [hheads, Array.size_replicate]
  · show ((ofTables c u t).beginSweep.headAt k).Nodup
    rw [hhead]
    exact List.nodup_nil
  · have hx : x ∈ (ofTables c u t).beginSweep.headAt k := hx
    rw [hhead] at hx
    cases hx
  · show 0 = total List.length t.heads.toList
    rw [hheads, Array.toList_replicate, total_replicate]
    rfl
  · show 0 + (ofTables c u t).weight c u ≤ (ofTables c u t).weight c u
    omega
  · show 0 + 1 + ((ofTables c u t).room c u + 0) ≤ 1 + (ofTables c u t).room c u
    omega

/-! ## How a run ends -/

/-- The blocks that a sweep has ahead are all visited, or a visit of one of them stops. -/
theorem visitAll_cases (p : Propagation) (bs : List Block) :
    (∃ q, bs.foldlM (visit c u) p = .ok q ∧ Moment.Later c u ⟨p, bs⟩ ⟨q, []⟩) ∨
      ∃ e q b bs', bs.foldlM (visit c u) p = .error e ∧
        Moment.Later c u ⟨p, bs⟩ ⟨q, b :: bs'⟩ ∧ q.visit c u b = .error e := by
  induction bs generalizing p with
  | nil => exact .inl ⟨p, rfl, .refl _⟩
  | cons b bs ih =>
    rw [List.foldlM_cons]
    cases hv : p.visit c u b with
    | error e => exact .inr ⟨e, p, b, bs, rfl, .refl _, hv⟩
    | ok r =>
      have hnext : Moment.Next c u ⟨p, b :: bs⟩ ⟨r, bs⟩ := .visit hv
      rcases ih r with ⟨q, hq, hlater⟩ | ⟨e, q, a, bs', he, hlater, ha⟩
      · exact .inl ⟨q, hq, .first hnext hlater⟩
      · exact .inr ⟨e, q, a, bs', he, .first hnext hlater, ha⟩

theorem settle_of_sweep_error {e : Stopped Propagation} (h : p.sweep c u = .error e) :
    p.settle c u = .error e := by
  have h : p.sweepBy c u .ascending = .error e := h
  rw [settle, settleBy]
  split
  · rename_i e' he'
    rw [h] at he'
    cases he'
    rfl
  · rename_i q hq
    rw [h] at hq
    cases hq

/-- Sweeps come to one that makes no change, or a visit stops. -/
theorem settle_cases (p : Propagation) :
    (∃ q, p.settle c u = .ok q ∧ q.changed = false ∧
      Moment.Later c u (.sweepOf c p) ⟨q, []⟩) ∨
    ∃ e q b bs, p.settle c u = .error e ∧ Moment.Later c u (.sweepOf c p) ⟨q, b :: bs⟩ ∧
      q.visit c u b = .error e := by
  induction hr : p.room c u using Nat.strongRecOn generalizing p with
  | _ n ih =>
    rcases visitAll_cases (c := c) (u := u) p.beginSweep c.blocks.toList.reverse with
      ⟨q, hq, hlater⟩ | ⟨e, q, b, bs, he, hlater, hb⟩
    · rw [settle_of_sweep hq]
      cases hchanged : q.changed with
      | false => exact .inl ⟨q, rfl, hchanged, hlater⟩
      | true =>
        have hlt : q.room c u < n := hr ▸ room_lt_of_sweep hq hchanged
        have hnext : Moment.Next c u ⟨q, []⟩ (.sweepOf c q) := .sweep hchanged
        rcases ih _ hlt q rfl with ⟨r, hrun, hr', hrest⟩ | ⟨e, r, b, bs, he, hrest, hb⟩
        · exact .inl ⟨r, hrun, hr', hlater.trans (.first hnext hrest)⟩
        · exact .inr ⟨e, r, b, bs, he, hlater.trans (.first hnext hrest), hb⟩
    · exact .inr ⟨e, q, b, bs, settle_of_sweep_error he, hlater, hb⟩

theorem stats_within_of_paid {m : Moment} (hp : Begins c u p) (h : m.Paid c u p) :
    m.state.stats.Within c.blocks.size (u.size c) := by
  have hroom := room_le_of_begins hp
  have hweight := weight_le_add_room hp
  have hrecorded := recorded_le h.head_nodup h.head_below
  obtain ⟨hheads, -, -, hinsertions, hvisits, hsweeps⟩ := h
  rw [hheads, Nat.mul_comm] at hrecorded
  exact ⟨by omega, by omega, by omega⟩

end Propagation

namespace Liveness

open Propagation (Begins Moment)

/-- The analysis of any unit ends: no run has more moments than the bound. At its end there is a
result, with counts that are bounded; or there is the fault that stopped the seeding or a visit, which
is never that something is recorded already. -/
theorem compute_ends (c : Code) (u : Universe) :
    (∀ p ms, Begins c u p → List.IsChain (Moment.Next c u) (.sweepOf c p :: ms) →
      ms.length < (1 + u.size c * c.blocks.size) * (c.blocks.size + 1)) ∧
    ((∃ q, compute c u = .ok (ofRun c u q) ∧ Propagation.run c u = .ok q ∧
        Moment.OfRun c u ⟨q, []⟩ ∧ q.changed = false ∧
        q.stats.Within c.blocks.size (u.size c)) ∨
      ∃ e, compute c u = .error e.fault ∧ Propagation.run c u = .error e ∧
        (∀ b is, e.fault ≠ .alreadyRecorded b is) ∧
        (Propagation.seed c u = .error e.fault ∨
          ∃ q b bs, Moment.OfRun c u ⟨q, b :: bs⟩ ∧ q.visit c u b = .error e)) := by
  constructor
  · intro p ms hp hms
    have hlength := Moment.length_le_of_chain hms
    have hroom := Nat.mul_le_mul_right (c.blocks.size + 1) (Propagation.room_le_of_begins hp)
    have hstart : (Moment.sweepOf c p).remaining c u =
        c.blocks.size + p.room c u * (c.blocks.size + 1) := by
      simp [Moment.remaining, Moment.sweepOf, Propagation.credit, Propagation.beginSweep,
        Propagation.room]
    rw [Nat.add_mul]
    omega
  · cases hseed : Propagation.seed c u with
    | error f =>
      have hrun : Propagation.run c u = .error ⟨f, .ofTables c u (.empty c.blocks.size)⟩ := by
        rw [Propagation.run, Propagation.runBy, hseed]
        rfl
      refine .inr ⟨_, ?_, hrun, Propagation.unrepeated_seed c u f hseed, .inl rfl⟩
      rw [compute, hrun]
      rfl
    | ok t =>
      have hp : Begins c u (.ofTables c u t) := ⟨t, hseed, rfl⟩
      have hrun : Propagation.run c u = (Propagation.ofTables c u t).settle c u := by
        rw [Propagation.run, Propagation.runBy, hseed]
        rfl
      rcases Propagation.settle_cases (c := c) (u := u) (.ofTables c u t) with
        ⟨q, hq, hchanged, hlater⟩ | ⟨e, q, b, bs, he, hlater, hb⟩
      · refine .inl ⟨q, ?_, hrun.trans hq, ⟨_, hp, hlater⟩, hchanged, ?_⟩
        · rw [compute, hrun, hq]
          rfl
        · exact Propagation.stats_within_of_paid hp
            (Moment.paid_of_later (Moment.paid_sweepOf hp) hlater)
      · refine .inr ⟨e, ?_, hrun.trans he, Propagation.unrepeated_visit q b e hb,
          .inr ⟨q, b, bs, ⟨_, hp, hlater⟩, hb⟩⟩
        rw [compute, hrun, he]
        rfl

/-- Two blocks share an id and none has the id 0; an edge leads nowhere, a block ends without a
terminator, and the predecessors are made up. The run takes three sweeps. -/
def tangled : Code where
  blocks := #[
    ⟨⟨2⟩, #[⟨.add, [.ofTemp (.virtual .gp 0) .earlyUse, .ofTemp (.virtual .gp 1) .define]⟩],
      [⟨7⟩], [⟨2⟩, ⟨1⟩, ⟨2⟩]⟩,
    ⟨⟨2⟩, #[⟨.jump, []⟩,
      ⟨.move, [.ofTemp (.virtual .gp 2) .useDefine, .ofTemp (.virtual .gp 0) .define]⟩],
      [], [⟨1⟩]⟩,
    ⟨⟨1⟩, #[⟨.ret, [.ofTemp (.virtual .gp 1) .lateUse]⟩,
      ⟨.nop, [.ofTemp (.reg ⟨.gp, 0⟩) .scratch]⟩],
      [⟨0⟩, ⟨0⟩, ⟨2⟩], [⟨0⟩, ⟨2⟩, ⟨1⟩]⟩]
  temps := ⟨3, 0⟩
  slots := #[]
  registers := ⟨1, 0⟩

theorem compute_ends_tangled : ∃ p q, Begins tangled (.temps .gp) p ∧
    (∀ ms, List.IsChain (Moment.Next tangled (.temps .gp)) (.sweepOf tangled p :: ms) →
      ms.length < 52) ∧
    compute tangled (.temps .gp) = .ok (ofRun tangled (.temps .gp) q) ∧ q.stats.Within 3 4 := by
  have hok : (compute tangled (.temps .gp)).isOk = true := by decide +kernel
  obtain ⟨hchains, hend⟩ := compute_ends tangled (.temps .gp)
  rcases hend with ⟨q, hq, -, ⟨p, hp, -⟩, -, hstats⟩ | ⟨e, he, -⟩
  · exact ⟨p, q, hp, fun ms hms => hchains p ms hp hms, hq, hstats⟩
  · rw [he] at hok
    cases hok

end Liveness

end MachineLiveness
