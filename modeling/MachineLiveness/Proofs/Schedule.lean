import MachineLiveness.Proofs.Fixpoint

/-!
Visits in any order. Each visit of a dirty block lowers the weight of the state, so no order goes on
for ever; and all orders that come to rest do so at the least solution, where the run does.
-/

namespace MachineLiveness.Propagation

variable {c : Code} {u : Universe} {p q r : Propagation} {b : Block} {k : Nat} {ks : List Nat}

/-! ## Weight -/

theorem dirtyAt_iff : p.dirtyAt k = true ↔ p.dirty[k]? = some true := by
  unfold dirtyAt
  cases p.dirty[k]? with
  | none => simp
  | some d => simp

theorem roomFor_le (n : Nat) (t : Indices) : roomFor n t ≤ n := by
  have h := List.countP_le_length (p := fun i => !t.contains i) (l := List.range n)
  rw [List.length_range] at h
  exact h

theorem room_le (p : Propagation) : p.room c u ≤ p.tables.tails.size * u.size c :=
  total_le fun t _ => roomFor_le (u.size c) t

theorem weight_le_of_begins (hc : c.WellFormed) (h : Begins c u p) :
    p.weight c u ≤ c.blocks.size + c.blocks.size * u.size c := by
  have hfits := fits_of_begins hc h
  have hcount : p.dirty.count true ≤ p.dirty.size := Array.count_le_size
  have hroom := room_le (c := c) (u := u) p
  rw [hfits.dirty] at hcount
  rw [hfits.tails] at hroom
  exact Nat.add_le_add hcount hroom

theorem weight_lt_of_visit (hd : p.dirtyAt b.id.index = true) (hv : p.visit c u b = .ok q) :
    q.weight c u < p.weight c u := by
  rcases visit_cases hv with ⟨hclean, -⟩ | ⟨found, -, -, hvisited⟩
  · rw [hd] at hclean
    cases hclean
  · exact hvisited.weight

theorem length_le_of_schedule (hc : c.WellFormed) (h : Schedule c u p ks q) :
    ks.length + q.weight c u ≤ p.weight c u := by
  induction h with
  | done p => simp
  | visit hb hd hv _ ih =>
    have hlt := weight_lt_of_visit (by rw [hc.block_id hb]; exact dirtyAt_iff.mpr hd) hv
    rw [List.length_cons]
    omega

/-! ## Along a schedule -/

theorem consistent_of_schedule (hc : c.WellFormed) (hp : Consistent c u p) (hbelow : p.Below c u)
    (h : Schedule c u p ks q) : Consistent c u q ∧ q.Below c u := by
  induction h with
  | done p => exact ⟨hp, hbelow⟩
  | visit hb _ hv _ ih =>
    exact ih (consistent_of_visit hc hp hb hv) (below_of_visit hc hp hbelow hb hv)

theorem follow_cons_eq_some {k : Nat} :
    p.follow c u (k :: ks) = some r ↔ ∃ b q, c.blocks[k]? = some b ∧ p.dirty[k]? = some true ∧
      p.visit c u b = .ok q ∧ q.follow c u ks = some r := by
  rw [follow]
  constructor
  · intro h
    split at h
    · rename_i b hb hd
      split at h
      · rename_i q hv
        exact ⟨b, q, hb, hd, hv, h⟩
      · cases h
    · cases h
  · rintro ⟨b, q, hb, hd, hv, h⟩
    simp only [hb, hd, hv, h]

theorem schedule_iff_follow : Schedule c u p ks r ↔ p.follow c u ks = some r := by
  constructor
  · intro h
    induction h with
    | done p => rfl
    | visit hb hd hv _ ih => exact follow_cons_eq_some.mpr ⟨_, _, hb, hd, hv, ih⟩
  · intro h
    induction ks generalizing p with
    | nil =>
      cases h
      exact .done r
    | cons k ks ih =>
      obtain ⟨b, q, hb, hd, hv, h⟩ := follow_cons_eq_some.mp h
      exact .visit hb hd hv (ih h)

/-- No dirty block stops a schedule. -/
theorem visit_of_dirty (hc : c.WellFormed) (hp : Consistent c u p)
    (hd : p.dirty[k]? = some true) :
    ∃ b q, c.blocks[k]? = some b ∧ p.visit c u b = .ok q := by
  have hk : k < c.blocks.size := hp.fits.dirty ▸ (Array.getElem?_eq_some_iff.mp hd).1
  have hb := Array.getElem?_eq_getElem hk
  obtain ⟨q, hq⟩ := exists_visit_of_consistent hc hp hb
  exact ⟨_, q, hb, hq⟩

/-! ## At rest -/

theorem mem_headAt_of_sets (h : p.sets = q.sets) (k x : Nat) :
    x ∈ p.headAt k ↔ x ∈ q.headAt k := by
  rw [← mem_sets_head, h, mem_sets_head]

theorem recorded_eq_of_sets (hp : Consistent c u p) (hq : Consistent c u q)
    (h : p.sets = q.sets) : p.recorded = q.recorded := by
  have hsize : p.tables.heads.size = q.tables.heads.size :=
    hp.fits.heads.trans hq.fits.heads.symm
  have hlengths : p.tables.heads.toList.map List.length =
      q.tables.heads.toList.map List.length := by
    apply List.ext_getElem
    · simpa using hsize
    · intro k hk hk'
      have hperm : (p.headAt k).Perm (q.headAt k) :=
        (List.perm_ext_iff_of_nodup (hp.head_nodup k) (hq.head_nodup k)).mpr
          (mem_headAt_of_sets h k)
      have hlength := hperm.length_eq
      simp only [List.length_map, Array.length_toList] at hk hk'
      simpa [headAt, Tables.headAt, hk, hk'] using hlength
  rw [recorded, recorded, ← total_map, hlengths, total_map]

/-- Over a finished unit, no order of visits to dirty blocks is longer than the bound or stops at a
dirty block, and every one that comes to rest does so with what the run has found. -/
theorem schedules_agree {d : Draft} {c : Code} (u : Universe) (h : d.finish = .ok c) :
    ∃ p q, Begins c u p ∧ run c u = .ok q ∧ q.Quiet ∧ ∀ ks r, Schedule c u p ks r →
      ks.length ≤ c.blocks.size + c.blocks.size * u.size c ∧
      (∀ k : Nat, r.dirty[k]? = some true →
        ∃ b r', c.blocks[k]? = some b ∧ r.visit c u b = .ok r') ∧
      (r.Quiet → r.tables.tails = q.tables.tails ∧
        (∀ k x, x ∈ r.headAt k ↔ x ∈ q.headAt k) ∧
        r.recorded = q.recorded ∧ r.stats.insertions = q.stats.insertions) := by
  have hc := Draft.wellFormed_of_finish h
  obtain ⟨p, hp⟩ := begins_exists (u := u) hc
  obtain ⟨q, hq, hconsistent, hquiet, hleast⟩ := exists_least_run (u := u) hc
  refine ⟨p, q, hp, hq, hquiet, fun ks r hr => ?_⟩
  obtain ⟨hr', hbelow⟩ :=
    consistent_of_schedule hc (consistent_of_begins hc hp) (below_of_begins hc hp) hr
  refine ⟨?_, fun k hk => visit_of_dirty hc hr' hk, fun hrest => ?_⟩
  · have hlength := length_le_of_schedule hc hr
    have hweight := weight_le_of_begins hc hp
    omega
  · have hsets : r.sets = q.sets := (least_of_quiet hr' hbelow hrest).unique hleast
    have hrecorded := recorded_eq_of_sets hr' hconsistent hsets
    have htails : r.tables.tails = q.tables.tails :=
      tails_eq_of_tailAt hr'.fits hconsistent.fits (congrFun (congrArg Sets.tail hsets))
    refine ⟨htails, mem_headAt_of_sets hsets, hrecorded, ?_⟩
    rw [hr'.insertions, hconsistent.insertions, hrecorded]

/-- The first dirty block is always the next: nine visits come to where five visits bring the run. -/
theorem schedules_agree_sample : Draft.sample.finish = .ok Draft.sample.freeze ∧
    ∃ p q r, Begins Draft.sample.freeze (.temps .gp) p ∧
      run Draft.sample.freeze (.temps .gp) = .ok q ∧
      Schedule Draft.sample.freeze (.temps .gp) p [0, 1, 0, 1, 2, 3, 2, 1, 0] r ∧ r.Quiet ∧
      r.tables.tails = q.tables.tails ∧
      r.tables.tails.map (·.toList) = #[[1, 2, 3], [1, 2, 3], [1, 3], []] := by
  have hfollow : ((seed Draft.sample.freeze (.temps .gp)).toOption.bind fun t =>
      (ofTables Draft.sample.freeze (.temps .gp) t).follow Draft.sample.freeze (.temps .gp)
        [0, 1, 0, 1, 2, 3, 2, 1, 0]).map (·.dirty) = some #[false, false, false, false] := by
    decide +kernel
  obtain ⟨p, q, hp, hq, -, h⟩ := schedules_agree (.temps .gp) Draft.finish_sample
  obtain ⟨t, ht, rfl⟩ := hp
  rw [ht] at hfollow
  obtain ⟨r, hr, hdirty⟩ := Option.map_eq_some_iff.mp hfollow
  have hschedule := schedule_iff_follow.mpr hr
  have hquiet : r.Quiet := by
    rw [Quiet, hdirty]
    simp
  obtain ⟨-, -, hrest⟩ := h _ r hschedule
  have htails := (hrest hquiet).1
  exact ⟨Draft.finish_sample, _, q, r, ⟨t, ht, rfl⟩, hq, hschedule, hquiet, htails,
    htails ▸ (run_sample hq).1⟩

end MachineLiveness.Propagation
