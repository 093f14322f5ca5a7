import MachineLiveness.Liveness
import MachineLiveness.Proofs.Sweep
import MachineLiveness.Retreat

/-!
How many sweeps a run takes. An index is live at a head because a trail leads from there to a block
that makes it live, past blocks that pass it on; a trail that repeats a block has a detour that can be
left out. One sweep brings an index up every edge of a trail that leads to a later block, and stops it
at an edge that leads back. So the sweep whose number exceeds the edges of trails that lead back finds
nothing new, and if no edge leads back at all the first sweep is also the last.
-/

namespace MachineLiveness

/-! ## Edges that lead back -/

namespace Code

variable {c : Code} {u : Universe} {x j k : Nat} {ks : List Nat}

theorem retreats_cons_cons (j k : Nat) (ks : List Nat) :
    retreats (j :: k :: ks) = (if k ≤ j then 1 else 0) + retreats (k :: ks) := rfl

/-- What holds of the edges block by block holds of all edges. -/
theorem forall_edges {P : Nat → Nat → Prop}
    (h : ∀ x ∈ c.blocks.toList.zipIdx, ∀ s ∈ x.1.successors, P x.2 s.index) :
    ∀ j k, c.Edge j k → P j k := by
  rintro j _ ⟨b, hb, s, hs, rfl⟩
  exact h (b, j) (List.mk_mem_zipIdx_iff_getElem?.mpr (by simpa using hb)) s hs

/-- Every edge of a walk that leads back ends at one of the targets of such edges. -/
theorem retreats_le_targets {ts : List Nat} (hts : ∀ j k, c.Edge j k → k ≤ j → k ∈ ts)
    (h : c.Walk ks) : retreats ks ≤ (ks.tail.filter (· ∈ ts)).length := by
  induction ks with
  | nil => exact Nat.zero_le _
  | cons j ks ih =>
    cases ks with
    | nil => exact Nat.zero_le _
    | cons k ks =>
      obtain ⟨hedge, hrest⟩ := h
      have hle := ih hrest
      rw [retreats_cons_cons, List.tail_cons, List.filter_cons]
      rw [List.tail_cons] at hle
      split
      · rename_i hback
        rw [if_pos (by simpa using hts j k hedge hback), List.length_cons]
        omega
      · split
        · rw [List.length_cons]
          omega
        · omega

/-- A path without repetition has no more edges that lead back than these have targets. -/
theorem retreatsAtMost_targets (ts : List Nat) (hts : ∀ j k, c.Edge j k → k ≤ j → k ∈ ts) :
    c.RetreatsAtMost ts.length := by
  intro ks hnodup hwalk
  have hsub : ks.tail.filter (· ∈ ts) ⊆ ts := fun k hk => by
    simpa using (List.mem_filter.mp hk).2
  have hkept : (ks.tail.filter (· ∈ ts)).Nodup := hnodup.tail.filter _
  have hle := (hkept.subperm hsub).length_le
  exact Nat.le_trans (retreats_le_targets hts hwalk) hle

/-! ## Trails -/

/-- No instruction of the block at a position defines the entity with this index. -/
def PassesAt (c : Code) (u : Universe) (x k : Nat) : Prop :=
  ∃ b, c.blocks[k]? = some b ∧ ∀ i ∈ b.insts.toList, x ∉ Sets.indices c u (u.defines i)

/-- The block at a position makes an index live at its head, whatever its successors need. -/
def MakesAt (c : Code) (u : Universe) (x k : Nat) : Prop :=
  ∃ b, c.blocks[k]? = some b ∧
    x ∈ Sets.headOf c u b ((∅ : Indices).insertMany (Sets.lateAtTail c u b))

/-- A walk to a block that makes an index live, past blocks that pass it on. -/
def Trail (c : Code) (u : Universe) (x : Nat) : List Nat → Prop
  | [] => False
  | [k] => c.MakesAt u x k
  | j :: k :: ks => c.Edge j k ∧ c.PassesAt u x j ∧ Trail c u x (k :: ks)

theorem Trail.walk (h : c.Trail u x ks) : c.Walk ks := by
  induction ks with
  | nil => exact trivial
  | cons j ks ih =>
    cases ks with
    | nil =>
      obtain ⟨b, hb, -⟩ := h
      exact (Array.getElem?_eq_some_iff.mp hb).1
    | cons k ks =>
      obtain ⟨hedge, -, hrest⟩ := h
      exact ⟨hedge, ih hrest⟩

theorem Trail.lt_size (h : c.Trail u x (k :: ks)) : k < c.blocks.size := by
  have hwalk := h.walk
  cases ks with
  | nil => exact hwalk
  | cons s ks =>
    obtain ⟨⟨b, hb, -⟩, -⟩ := hwalk
    exact (Array.getElem?_eq_some_iff.mp hb).1

/-- What remains of a trail from one of its blocks on is a trail. -/
theorem Trail.suffix {js : List Nat} (h : c.Trail u x (js ++ k :: ks)) :
    c.Trail u x (k :: ks) := by
  induction js with
  | nil => exact h
  | cons j js ih =>
    cases js with
    | nil => exact h.2.2
    | cons j' js => exact ih h.2.2

/-- A trail without repetition begins at the block. -/
def Traced (c : Code) (u : Universe) (x k : Nat) : Prop :=
  ∃ ks, (k :: ks).Nodup ∧ c.Trail u x (k :: ks)

theorem traced_of_makes (h : c.MakesAt u x k) : c.Traced u x k := ⟨[], by simp, h⟩

/-- A trail that comes back to where a new edge begins is cut there. -/
theorem traced_of_edge (hedge : c.Edge j k) (hpass : c.PassesAt u x j) (h : c.Traced u x k) :
    c.Traced u x j := by
  obtain ⟨ks, hnodup, htrail⟩ := h
  by_cases hj : j ∈ k :: ks
  · obtain ⟨before, after, hsplit⟩ := List.append_of_mem hj
    rw [hsplit] at hnodup htrail
    exact ⟨after, (List.nodup_append.mp hnodup).2.1, htrail.suffix⟩
  · exact ⟨k :: ks, List.nodup_cons.mpr ⟨hj, hnodup⟩, hedge, hpass, htrail⟩

end Code

/-! ## Along a run -/

namespace Propagation

variable {c : Code} {u : Universe} {p q : Propagation} {b : Block} {j k x : Nat} {ks : List Nat}

/-- What a head shows is made live by the block, or is recorded at a successor's head and passes. -/
theorem mem_headOf_cases (h : Consistent c u p) (hb : c.blocks[k]? = some b)
    (hx : x ∈ Sets.headOf c u b (p.tailAt k)) :
    c.MakesAt u x k ∨ c.PassesAt u x k ∧ ∃ s, c.Edge k s ∧ x ∈ p.headAt s := by
  rcases Sets.mem_above.mp hx with hx | ⟨hx, hpass⟩
  · exact .inl ⟨b, hb, Sets.mem_above.mpr (.inl hx)⟩
  · rcases (h.tail k b hb x).mp hx with hlate | ⟨s, hs, hx⟩
    · exact .inl ⟨b, hb, Sets.mem_above.mpr (.inr ⟨Sets.mem_insertMany.mpr (.inr hlate), hpass⟩)⟩
    · exact .inr ⟨⟨b, hb, hpass⟩, s.index, ⟨b, hb, s, hs, rfl⟩, hx⟩

theorem mem_headOf_of_makes (h : Consistent c u p) (hb : c.blocks[k]? = some b)
    (hx : c.MakesAt u x k) : x ∈ Sets.headOf c u b (p.tailAt k) := by
  obtain ⟨b', hb', hx⟩ := hx
  rw [hb] at hb'
  cases hb'
  refine Sets.headOf_mono (fun y hy => ?_) x hx
  rcases Sets.mem_insertMany.mp hy with hy | hy
  · exact absurd hy Std.ExtTreeSet.not_mem_empty
  · exact (h.tail k b hb y).mpr (.inl hy)

theorem mem_headOf_of_passes (h : Consistent c u p) (hb : c.blocks[k]? = some b)
    (hpass : c.PassesAt u x k) (hedge : c.Edge k j) (hx : x ∈ p.headAt j) :
    x ∈ Sets.headOf c u b (p.tailAt k) := by
  obtain ⟨b', hb', hpass⟩ := hpass
  obtain ⟨b'', hb'', s, hs, rfl⟩ := hedge
  rw [hb] at hb' hb''
  cases hb'
  cases hb''
  exact Sets.mem_above.mpr (.inr ⟨(h.tail k b hb x).mpr (.inr ⟨s, hs, hx⟩), hpass⟩)

/-- A visit leaves at the head of its block all that the block showed before it. -/
theorem Explored.mem_headAt (hc : c.WellFormed) (h : Consistent c u p)
    (hb : c.blocks[k]? = some b) (he : Explored c u k b p q)
    (hx : x ∈ Sets.headOf c u b (p.tailAt k)) : x ∈ q.headAt k := by
  rcases he with hclean | ⟨found, -, hv, hmem⟩
  · exact h.head_clean k b hb hclean x hx
  · rw [hv.mem_headAt hc hb]
    by_cases hin : x ∈ p.headAt k
    · exact .inl hin
    · exact .inr ⟨rfl, (hmem x).mpr ⟨hx, hin⟩⟩

theorem Explored.head_sub (he : Explored c u k b p q) (hx : x ∈ p.headAt j) : x ∈ q.headAt j := by
  rcases he with _ | ⟨found, -, hv, -⟩
  · exact hx
  · exact (hv.head_append j).subset hx

theorem Explored.sweeps (he : Explored c u k b p q) : q.stats.sweeps = p.stats.sweeps := by
  rcases he with _ | ⟨found, -, hv, -⟩
  · rfl
  · rw [hv.stats]

theorem Visited.changed_of_nil (hv : Visited c u b [] p q) : q.changed = p.changed := by
  rw [Bool.eq_iff_iff, hv.changed]
  constructor
  · rintro (h | ⟨k, hk, hnew⟩)
    · exact h
    · rcases (hv.dirty k).mp hk with ⟨hne, hdirty⟩ | ⟨x, hx, hout⟩
      · rcases hnew with rfl | hclean
        · exact absurd rfl hne
        · rw [hdirty] at hclean
          cases hclean
      · rcases (hv.tail k x).mp hx with hx | ⟨-, hx⟩
        · exact absurd hx hout
        · cases hx
  · exact .inl

/-- A sweep that has come down to position `j`: recorded entries have trails, and an entry with a trail
is recorded as soon as there were more sweeps than the trail has edges that lead back; a block that
the sweep has not seen yet lags one behind. -/
structure Swept (c : Code) (u : Universe) (p : Propagation) (j : Nat) : Prop where
  traced : ∀ k, ∀ x ∈ p.headAt k, c.Traced u x k
  recorded : ∀ k ks x, c.Trail u x (k :: ks) →
    Code.retreats (k :: ks) + (if k < j then 1 else 0) < p.stats.sweeps → x ∈ p.headAt k

theorem Swept.traced_of_headOf (hp : Consistent c u p) (h : p.Swept c u j)
    (hb : c.blocks[k]? = some b) (hx : x ∈ Sets.headOf c u b (p.tailAt k)) : c.Traced u x k := by
  rcases mem_headOf_cases hp hb hx with hmakes | ⟨hpass, s, hedge, hs⟩
  · exact Code.traced_of_makes hmakes
  · exact Code.traced_of_edge hedge hpass (h.traced s x hs)

/-- The block that the sweep sees next shows what its number of sweeps makes it show: its later
successors were seen in this sweep, and an edge to any other costs one sweep. -/
theorem Swept.mem_headOf (hp : Consistent c u p) (h : p.Swept c u (j + 1))
    (hb : c.blocks[j]? = some b) (htrail : c.Trail u x (j :: ks))
    (hless : Code.retreats (j :: ks) < p.stats.sweeps) :
    x ∈ Sets.headOf c u b (p.tailAt j) := by
  cases ks with
  | nil => exact mem_headOf_of_makes hp hb htrail
  | cons k ks =>
    obtain ⟨hedge, hpass, hrest⟩ := htrail
    refine mem_headOf_of_passes hp hb hpass hedge (h.recorded k ks x hrest ?_)
    rw [Code.retreats_cons_cons] at hless
    split at hless <;> split <;> omega

theorem swept_of_explored (hc : c.WellFormed) (hp : Consistent c u p) (h : p.Swept c u (j + 1))
    (hb : c.blocks[j]? = some b) (he : Explored c u j b p q) : q.Swept c u j where
  traced := by
    intro k x hx
    rcases he with _ | ⟨found, -, hv, hmem⟩
    · exact h.traced k x hx
    · rcases (hv.mem_headAt hc hb k x).mp hx with hx | ⟨rfl, hx⟩
      · exact h.traced k x hx
      · exact h.traced_of_headOf hp hb ((hmem x).mp hx).1
  recorded := by
    intro k ks x htrail hless
    rw [he.sweeps] at hless
    by_cases hk : k = j
    · subst hk
      rw [if_neg (Nat.lt_irrefl k)] at hless
      exact he.mem_headAt hc hp hb (h.mem_headOf hp hb htrail hless)
    · refine he.head_sub (h.recorded k ks x htrail ?_)
      split at hless <;> split <;> omega

/-- After as many sweeps as there can be edges that lead back on a path, and one more, the next sweep
changes nothing. -/
structure Limited (c : Code) (u : Universe) (d : Nat) (p : Propagation) (j : Nat) : Prop where
  swept : p.Swept c u j
  sweeps : p.stats.sweeps ≤ d + 2
  changed : p.changed = true → p.stats.sweeps ≤ d + 1

theorem limited_of_explored (hc : c.WellFormed) {d : Nat} (hd : c.RetreatsAtMost d)
    (hp : Consistent c u p) (h : p.Limited c u d (j + 1)) (hb : c.blocks[j]? = some b)
    (he : Explored c u j b p q) : q.Limited c u d j where
  swept := swept_of_explored hc hp h.swept hb he
  sweeps := he.sweeps ▸ h.sweeps
  changed := by
    intro hq
    rw [he.sweeps]
    rcases he with _ | ⟨found, -, hv, hmem⟩
    · exact h.changed hq
    · by_cases hlast : p.stats.sweeps ≤ d + 1
      · exact hlast
      · -- A new entry would have a trail, and by now what has a trail is recorded.
        have hnothing : found = [] := by
          refine List.eq_nil_iff_forall_not_mem.mpr fun x hx => ?_
          obtain ⟨hshown, hnew⟩ := (hmem x).mp hx
          obtain ⟨ks, hnodup, htrail⟩ := h.swept.traced_of_headOf hp hb hshown
          have hle := hd _ hnodup htrail.walk
          exact hnew (h.swept.recorded j ks x htrail (by rw [if_pos (Nat.lt_succ_self j)]; omega))
        subst hnothing
        exact h.changed (hv.changed_of_nil ▸ hq)

theorem sweeps_of_begins (h : Begins c u p) : p.stats.sweeps = 0 ∧ p.changed = false := by
  obtain ⟨t, -, rfl⟩ := h
  exact ⟨rfl, rfl⟩

/-- When a sweep begins every block lags one behind, and the number of sweeps has risen by one. -/
theorem swept_beginSweep (h : p.Swept c u 0) : p.beginSweep.Swept c u c.blocks.size where
  traced := h.traced
  recorded := by
    intro k ks x htrail hless
    rw [if_pos htrail.lt_size] at hless
    exact h.recorded k ks x htrail (Nat.lt_of_succ_lt_succ hless)

theorem limited_invariant (hc : c.WellFormed) {d : Nat} (hd : c.RetreatsAtMost d) :
    SweepInvariant c u (Limited c u d) where
  first := by
    intro p hp
    obtain ⟨hsweeps, -⟩ := sweeps_of_begins hp
    refine ⟨swept_beginSweep ⟨fun k x hx => ?_, fun k ks x _ hless => ?_⟩, ?_, fun h => ?_⟩
    · rw [headAt_of_begins hc hp] at hx
      cases hx
    · rw [hsweeps] at hless
      exact absurd hless (Nat.not_lt_zero _)
    · show p.stats.sweeps + 1 ≤ d + 2
      omega
    · cases h
  visit := fun _ _ _ _ hp hb he h => limited_of_explored hc hd hp h hb he
  sweep := fun _ _ hchanged h =>
    ⟨swept_beginSweep h.swept, Nat.succ_le_succ (h.changed hchanged), fun h => by cases h⟩

/-! ## No edge leads back -/

/-- In the first sweep over a unit without edges that lead back, the blocks still ahead and no others
are dirty, so that nothing has changed. -/
structure Straight (c : Code) (p : Propagation) (j : Nat) : Prop where
  changed : p.changed = false
  sweeps : p.stats.sweeps = 1
  blockVisits : p.stats.blockVisits + j = c.blocks.size
  dirty : ∀ k, p.dirtyAt k = true ↔ k < j

theorem straight_of_explored (hc : c.WellFormed) (hf : c.Forward) (h : p.Straight c (j + 1))
    (hb : c.blocks[j]? = some b) (he : Explored c u j b p q) : q.Straight c j := by
  obtain ⟨hchanged, hsweeps, hvisits, hdirty⟩ := h
  rcases he with hclean | ⟨found, -, hv, -⟩
  · rw [(hdirty j).mpr (Nat.lt_succ_self j)] at hclean
    cases hclean
  -- Only tails of predecessors grow, and these are still ahead.
  have hahead (k : Nat) : q.dirtyAt k = true ↔ k < j := by
    rw [hv.dirty, hdirty, hc.block_id hb]
    constructor
    · rintro (⟨hne, hlt⟩ | ⟨x, hx, hout⟩)
      · omega
      · rcases (hv.tail k x).mp hx with hx | ⟨hpred, -⟩
        · exact absurd hx hout
        · exact hf k j ((hc.edge_iff_predecessor hb).mpr hpred)
    · intro hlt
      exact .inl ⟨Nat.ne_of_lt hlt, Nat.lt_succ_of_lt hlt⟩
  refine ⟨?_, ?_, ?_, hahead⟩
  · rw [Bool.eq_false_iff]
    intro hq
    rcases hv.changed.mp hq with hq | ⟨k, hk, hnew⟩
    · rw [hchanged] at hq
      cases hq
    · have hlt := (hahead k).mp hk
      rcases hnew with rfl | hclean
      · rw [hc.block_id hb] at hlt
        exact Nat.lt_irrefl j hlt
      · rw [(hdirty k).mpr (Nat.lt_succ_of_lt hlt)] at hclean
        cases hclean
  · rw [hv.stats]
    exact hsweeps
  · rw [hv.stats]
    dsimp only
    omega

theorem straight_invariant (hc : c.WellFormed) (hf : c.Forward) :
    SweepInvariant c u (Straight c) where
  first := by
    rintro p ⟨t, -, rfl⟩
    refine ⟨rfl, rfl, Nat.zero_add _, fun k => ?_⟩
    show ((Array.replicate c.blocks.size true)[k]?).getD false = true ↔ _
    rw [Array.getElem?_replicate]
    split
    · rename_i hk
      simp [hk]
    · rename_i hk
      simp [hk]
  visit := fun _ _ _ _ _ hb he h => straight_of_explored hc hf h hb he
  sweep := by
    intro p _ hchanged h
    rw [h.changed] at hchanged
    cases hchanged

end Propagation

namespace Liveness

variable {c : Code} {u : Universe}

/-- The analysis of a finished unit takes at most two sweeps more than a path without repetition can
have edges that lead back. If no edge leads back it takes one, which visits every block once. -/
theorem sweeps_limited {d : Draft} (u : Universe) (h : d.finish = .ok c) :
    ∃ l : Liveness u, compute c u = .ok l ∧
      (∀ n, c.RetreatsAtMost n → l.stats.sweeps ≤ n + 2) ∧
      (c.Forward → l.stats.sweeps = 1 ∧ l.stats.blockVisits = c.blocks.size) := by
  have hc := Draft.wellFormed_of_finish h
  obtain ⟨q, hq, -⟩ := Propagation.exists_run (u := u) hc
  refine ⟨ofRun c u q, map_eq_ok.mpr ⟨q, faultOnly_eq_ok.mpr hq, rfl⟩, fun n hn => ?_, fun hf => ?_⟩
  · obtain ⟨q', hq', -, -, hlimited⟩ := (Propagation.limited_invariant hc hn).exists_run hc
    rw [hq] at hq'
    cases hq'
    exact hlimited.sweeps
  · obtain ⟨q', hq', -, -, hstraight⟩ := (Propagation.straight_invariant hc hf).exists_run hc
    rw [hq] at hq'
    cases hq'
    exact ⟨hstraight.sweeps, hstraight.blockVisits⟩

/-- What a loop needs at its entry is live all around it. The loop is entered from above, so its edge
back costs a sweep, and it takes one more to see that nothing changes. -/
def reentered : Draft := ((Draft.empty ⟨0, 0⟩).performAll [
  .addTemp .gp, .addBlock, .addBlock, .addBlock, .addBlock,
  .push ⟨0⟩ ⟨.move, [.ofTemp (.virtual .gp 0) .define, .ofImm 0]⟩, .push ⟨0⟩ ⟨.jump, []⟩,
  .push ⟨1⟩ ⟨.call, [.ofTemp (.virtual .gp 0) .earlyUse]⟩, .push ⟨1⟩ ⟨.jump, []⟩,
  .push ⟨2⟩ ⟨.branch, []⟩, .push ⟨3⟩ ⟨.ret, []⟩,
  .addSuccessor ⟨0⟩ ⟨1⟩, .addSuccessor ⟨1⟩ ⟨2⟩, .addSuccessor ⟨2⟩ ⟨1⟩, .addSuccessor ⟨2⟩ ⟨3⟩]).2

/-- The same without a way back into the loop. -/
def passed : Draft := ((Draft.empty ⟨0, 0⟩).performAll [
  .addTemp .gp, .addBlock, .addBlock, .addBlock,
  .push ⟨0⟩ ⟨.move, [.ofTemp (.virtual .gp 0) .define, .ofImm 0]⟩, .push ⟨0⟩ ⟨.branch, []⟩,
  .push ⟨1⟩ ⟨.call, [.ofTemp (.virtual .gp 0) .earlyUse]⟩, .push ⟨1⟩ ⟨.jump, []⟩,
  .push ⟨2⟩ ⟨.ret, []⟩,
  .addSuccessor ⟨0⟩ ⟨1⟩, .addSuccessor ⟨0⟩ ⟨2⟩, .addSuccessor ⟨1⟩ ⟨2⟩]).2

theorem sweeps_limited_reentered :
    reentered.finish = .ok reentered.freeze ∧ reentered.freeze.RetreatsAtMost 1 ∧
      (∃ l, compute reentered.freeze (.temps .gp) = .ok l ∧ l.stats.sweeps ≤ 1 + 2 ∧
        l.stats.sweeps = 3) ∧
      passed.finish = .ok passed.freeze ∧ passed.freeze.Forward ∧
      ∃ l, compute passed.freeze (.temps .gp) = .ok l ∧ l.stats.sweeps = 1 ∧
        l.stats.blockVisits = 3 := by
  have hreentered : reentered.finish = .ok reentered.freeze :=
    Draft.finish_eq_ok.mpr ⟨by decide +kernel, rfl⟩
  have hpassed : passed.finish = .ok passed.freeze :=
    Draft.finish_eq_ok.mpr ⟨by decide +kernel, rfl⟩
  have hback : reentered.freeze.RetreatsAtMost 1 :=
    Code.retreatsAtMost_targets [1]
      (Code.forall_edges (P := fun j k => k ≤ j → k ∈ [1]) (by decide +kernel))
  have hforward : passed.freeze.Forward := Code.forall_edges (by decide +kernel)
  have hthree : (compute reentered.freeze (.temps .gp)).map (·.stats.sweeps) = .ok 3 := by
    decide +kernel
  obtain ⟨l, hl, hsweeps, -⟩ := sweeps_limited (.temps .gp) hreentered
  obtain ⟨l', hl', -, hone⟩ := sweeps_limited (.temps .gp) hpassed
  rw [hl] at hthree
  exact ⟨hreentered, hback, ⟨l, hl, hsweeps 1 hback, Except.ok.inj hthree⟩, hpassed, hforward,
    l', hl', hone hforward⟩

end Liveness

end MachineLiveness
