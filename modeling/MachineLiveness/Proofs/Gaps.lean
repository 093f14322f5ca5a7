import MachineLiveness.Proofs.Paths
import MachineLiveness.Proofs.Refusal

/-!
Cursors that leave instructions out. A cursor may be moved above any instruction that lies above it
(`Cursor.exists_executeEach_iff`), and nothing makes up for those that it leaves out on the way. So
what it shows of an entity is what lives above the last instruction that decided about it
(`Cursor.MovedAbove`). That is right if nothing was left out since that would have decided; else the
cursor may show what is dead and hide what is live (`Liveness.gap_misleads`).
-/

namespace MachineLiveness

namespace Cursor

variable {c : Code} {u : Universe} {b : Block} {tail : Indices} {k k' : Cursor} {is : List Nat}
  {i j x : Nat} {e : u.Entity}

/-- Move above some instructions, one after another. -/
def executeEach (c : Code) (u : Universe) (k : Cursor) (is : List Nat) :
    Except (Stopped Cursor) Cursor :=
  is.foldlM (execute c u) k

/-- The entities about which moving above instruction `i` decides: whether they are live above it
does not depend on what lives below. -/
def decided (u : Universe) (b : Block) (i : Nat) : List u.Entity :=
  lateAbove u b i ++
    match b.insts[i]? with
    | some inst => u.earlyUses inst ++ u.defines inst
    | none => []

/-- The last of some instructions that decides about an entity; if none does, the tail. -/
def lastDecided (u : Universe) (b : Block) (e : u.Entity) (is : List Nat) : Nat :=
  (is.reverse.find? fun i => (decided u b i).contains e).getD b.insts.size

/-! ## What an instruction decides about -/

theorem mem_decided (hi : i < b.insts.size) :
    e ∈ decided u b i ↔
      e ∈ lateAbove u b i ∨ e ∈ u.earlyUses b.insts[i] ∨ e ∈ u.defines b.insts[i] := by
  simp [decided, hi]

/-- Along instructions that do not decide about an entity, its liveness does not change. -/
theorem mem_liveAt_of_undecided (he : u.indexOf c e = .ok x) (hij : i ≤ j)
    (hj : j ≤ b.insts.size) (h : ∀ m, i ≤ m → m < j → e ∉ decided u b m) :
    x ∈ Sets.liveAt c u b tail i ↔ x ∈ Sets.liveAt c u b tail j := by
  induction j, hij using Nat.le_induction with
  | base => rfl
  | succ j hij ih =>
    have hlt : j < b.insts.size := hj
    have hnot := h j hij (Nat.lt_succ_self j)
    rw [mem_decided hlt, not_or, not_or] at hnot
    obtain ⟨hlate, hearly, hdefine⟩ := hnot
    rw [ih (Nat.le_of_lt hlt) fun m hm hmj => h m hm (Nat.lt_succ_of_lt hmj),
      Sets.mem_liveAt_of_lt hlt he]
    simp [hlate, hearly, hdefine]

theorem lastDecided_concat :
    lastDecided u b e (is ++ [i]) = if e ∈ decided u b i then i else lastDecided u b e is := by
  rw [lastDecided, List.reverse_append, List.reverse_singleton, List.singleton_append,
    List.find?_cons]
  by_cases he : e ∈ decided u b i
  · simp [he]
  · simp [he, lastDecided]

/-- Of descending instructions, none that lies above the last to decide about an entity decides. -/
theorem lastDecided_of_descending (h : (b.insts.size :: is).IsChain (· > ·)) (e : u.Entity) :
    is.getLastD b.insts.size ≤ lastDecided u b e is ∧ lastDecided u b e is ≤ b.insts.size ∧
      ∀ j ∈ is, j < lastDecided u b e is → e ∉ decided u b j := by
  replace h := h.pairwise
  induction is using List.reverseRecOn with
  | nil => exact ⟨Nat.le_refl _, Nat.le_refl _, by simp⟩
  | append_singleton is i ih =>
    rw [← List.cons_append] at h
    obtain ⟨his, -, habove⟩ := List.pairwise_append.mp h
    have hbelow : ∀ j ∈ b.insts.size :: is, i < j := fun j hj => habove j hj i (by simp)
    obtain ⟨hle, hsize, hnot⟩ := ih his
    rw [List.getLastD_concat, lastDecided_concat]
    split
    · refine ⟨Nat.le_refl i, Nat.le_of_lt (hbelow _ (by simp)), fun j hj hji => ?_⟩
      rcases List.mem_append.mp hj with hj | hj
      · exact absurd hji (Nat.lt_asymm (hbelow j (by simp [hj])))
      · exact absurd hji (List.mem_singleton.mp hj ▸ Nat.lt_irrefl i)
    · rename_i hi
      have hlast : i < is.getLastD b.insts.size := hbelow _ List.getLastD_mem_cons
      refine ⟨Nat.le_of_lt (Nat.lt_of_lt_of_le hlast hle), hsize, fun j hj hjl => ?_⟩
      rcases List.mem_append.mp hj with hj | hj
      · exact hnot j hj hjl
      · exact List.mem_singleton.mp hj ▸ hi

/-! ## One instruction -/

theorem lt_position_of_execute (h : k.execute c u i = .ok k') : i < k.position := by
  unfold execute at h
  split at h
  · assumption
  · cases h

/-- All that moving above an instruction does, wherever the cursor stood before. -/
theorem effect_of_execute (hb : b.Known c u) (hk : k.In c u b) (h : k.execute c u i = .ok k') :
    k'.In c u b ∧ k'.position = i ∧ ∃ hi : i < b.insts.size, ∀ e x, u.indexOf c e = .ok x →
      (x ∈ k'.live.toList ↔ e ∈ lateAbove u b i ∨ e ∈ u.earlyUses b.insts[i] ∨
        x ∈ k.live.toList ∧ e ∉ u.defines b.insts[i]) := by
  obtain ⟨k₁, hk₁, hposition, hin, hi, hshows⟩ := exists_execute hb hk (lt_position_of_execute h)
  obtain rfl : k' = k₁ := Except.ok.inj (h.symm.trans hk₁)
  refine ⟨hin, hposition, hi, fun e x he => ?_⟩
  have hbefore : k.live.Shows (.ofList k.live.toList) := fun y => by simp
  rw [hshows _ hbefore x, Sets.mem_through, Sets.mem_indices_iff he, Sets.mem_indices_iff he,
    Sets.mem_indices_iff he, ← hbefore x]

/-! ## Instruction after instruction -/

theorem executeEach_cons_eq_ok :
    k.executeEach c u (i :: is) = .ok k' ↔
      ∃ k₁, k.execute c u i = .ok k₁ ∧ k₁.executeEach c u is = .ok k' := by
  rw [executeEach, List.foldlM_cons, bind_eq_ok]
  rfl

/-- A cursor can be moved above instructions if each of them lies above the one before, and above
the cursor, and only then. -/
theorem exists_executeEach_iff (hb : b.Known c u) (hk : k.In c u b) :
    (∃ k', k.executeEach c u is = .ok k') ↔ (k.position :: is).IsChain (· > ·) := by
  induction is generalizing k with
  | nil => exact ⟨fun _ => .singleton _, fun _ => ⟨k, rfl⟩⟩
  | cons i is ih =>
    rw [List.isChain_cons_cons]
    constructor
    · rintro ⟨k', h⟩
      obtain ⟨k₁, hk₁, h⟩ := executeEach_cons_eq_ok.mp h
      obtain ⟨hin, hposition, -⟩ := effect_of_execute hb hk hk₁
      exact ⟨lt_position_of_execute hk₁, hposition ▸ (ih hin).mp ⟨k', h⟩⟩
    · rintro ⟨hi, his⟩
      obtain ⟨k₁, hk₁, hposition, hin, -⟩ := exists_execute hb hk hi
      obtain ⟨k', h⟩ := (ih hin).mpr (hposition ▸ his)
      exact ⟨k', executeEach_cons_eq_ok.mpr ⟨k₁, hk₁, h⟩⟩

/-- The cursor has come from the tail and was moved above these instructions of the block; others
may have been left out. -/
structure MovedAbove (c : Code) (u : Universe) (b : Block) (tail : Indices) (is : List Nat)
    (k : Cursor) : Prop where
  inside : k.In c u b
  position : k.position = is.getLastD b.insts.size
  live : ∀ e x, u.indexOf c e = .ok x →
    (x ∈ k.live.toList ↔ x ∈ Sets.liveAt c u b tail (lastDecided u b e is))

theorem movedAbove_nil (h : k.Shows c u b tail b.insts.size) : k.MovedAbove c u b tail [] :=
  ⟨⟨h.block, h.bound⟩, h.position, fun _ x _ => h.live x⟩

theorem MovedAbove.execute (hb : b.Known c u) (h : k.MovedAbove c u b tail is)
    (hk' : k.execute c u i = .ok k') : k'.MovedAbove c u b tail (is ++ [i]) := by
  obtain ⟨hin, hposition, hi, hlive⟩ := effect_of_execute hb h.inside hk'
  refine ⟨hin, by rw [hposition, List.getLastD_concat], fun e x he => ?_⟩
  rw [hlive e x he, lastDecided_concat]
  split
  · rename_i hdecided
    -- The instruction decides, so it does not matter that what was shown before may be wrong.
    rw [Sets.mem_liveAt_of_lt hi he]
    rcases (mem_decided hi).mp hdecided with hd | hd | hd
    · simp [hd]
    · simp [hd]
    · simp [hd]
  · rename_i hnot
    rw [mem_decided hi, not_or, not_or] at hnot
    obtain ⟨hlate, hearly, hdefine⟩ := hnot
    simpa [hlate, hearly, hdefine] using h.live e x he

theorem MovedAbove.executeEach (hb : b.Known c u) {before : List Nat}
    (h : k.MovedAbove c u b tail before) (hk' : k.executeEach c u is = .ok k') :
    k'.MovedAbove c u b tail (before ++ is) := by
  induction is generalizing k before with
  | nil =>
    cases hk'
    rwa [List.append_nil]
  | cons i is ih =>
    obtain ⟨k₁, hk₁, hk'⟩ := executeEach_cons_eq_ok.mp hk'
    have hrest := ih (h.execute hb hk₁) hk'
    rwa [List.append_assoc, List.singleton_append] at hrest

/-! ## Where it shows what is live -/

theorem MovedAbove.mem_live_iff (h : k.MovedAbove c u b tail is)
    (his : (b.insts.size :: is).IsChain (· > ·)) (he : u.indexOf c e = .ok x)
    (hgap : ∀ j ∉ is, k.position ≤ j → j < lastDecided u b e is → e ∉ decided u b j) :
    x ∈ k.live.toList ↔ x ∈ Sets.liveAt c u b tail k.position := by
  obtain ⟨hposition, hsize, hnot⟩ := lastDecided_of_descending his e
  rw [h.live e x he]
  refine (mem_liveAt_of_undecided he (h.position ▸ hposition) hsize fun j hj hjl => ?_).symm
  by_cases hmem : j ∈ is
  · exact hnot j hmem hjl
  · exact hgap j hmem hj hjl

/-- With nothing left out, it shows what every cursor shows there that has come from the tail. -/
theorem MovedAbove.mem_live_iff_of_whole (hslots : c.slots.size ≤ UInt32.size)
    (h : k.MovedAbove c u b tail is) (his : (b.insts.size :: is).IsChain (· > ·))
    (hk' : k'.Shows c u b tail k.position)
    (hwhole : ∀ j, k.position ≤ j → j < b.insts.size → j ∈ is) (x : Nat) :
    x ∈ k.live.toList ↔ x ∈ k'.live.toList := by
  rcases Nat.lt_or_ge x (u.size c) with hx | hx
  · obtain ⟨e, he⟩ := Universe.exists_entityAt hx
    have hsize := (lastDecided_of_descending his e).2.1
    rw [hk'.live x]
    refine h.mem_live_iff his (Universe.indexOf_entityAt hslots he) fun j hj hkj hjl => ?_
    exact absurd (hwhole j hkj (Nat.lt_of_lt_of_le hjl hsize)) hj
  · have hout {s : IndexSet} (hs : s.bound = u.size c) : x ∉ s.toList := fun hm =>
      Nat.not_lt.mpr hx (hs ▸ IndexSet.lt_bound hm)
    exact iff_of_false (hout h.inside.bound) (hout hk'.bound)

/-! ## What it lists -/

/-- What a cursor lists that was moved above these instructions and stands at `i`, beside all that
is live there. -/
structure Beside (c : Code) (u : Universe) (b : Block) (is : List Nat) (i : Nat)
    (listed all : List u.Entity) : Prop where
  all_live : ∀ e, e ∈ all ↔ Point.Live c u e ⟨b.id, i⟩
  /-- What is live above the last instruction that decided about it is listed. -/
  listed_live : ∀ e, e ∈ listed ↔ Point.Live c u e ⟨b.id, lastDecided u b e is⟩
  /-- That is right if nothing was left out since that decides about the entity. -/
  right : ∀ e, (∀ j ∉ is, i ≤ j → j < lastDecided u b e is → e ∉ decided u b j) →
    (e ∈ listed ↔ e ∈ all)
  /-- If nothing was left out at all, the list is the right one. -/
  whole : (∀ j, i ≤ j → j < b.insts.size → j ∈ is) → listed = all

section Lists

variable {s : Sets} {n : Nat} {listed : List u.Entity}

theorem MovedAbove.mem_listed_iff (hc : c.WellFormed) (hs : s.Least c u) (hw : s.Within c u)
    (hb : c.blocks[n]? = some b) (h : k.MovedAbove c u b (s.tail n) is)
    (hle : lastDecided u b e is ≤ b.insts.size)
    (hlisted : ∀ e, e ∈ listed ↔ ∃ x ∈ k.live.toList, u.indexOf c e = .ok x) :
    e ∈ listed ↔ Point.Live c u e ⟨b.id, lastDecided u b e is⟩ := by
  rw [hlisted]
  constructor
  · rintro ⟨x, hx, he⟩
    exact (Sets.live_iff_mem_liveAt hc hs hw hb he hle).mpr ((h.live e x he).mp hx)
  · intro hlive
    obtain ⟨x, he⟩ := Point.exists_index_of_live hc hlive
    have hx := (Sets.live_iff_mem_liveAt hc hs hw hb he hle).mp hlive
    exact ⟨x, (h.live e x he).mpr hx, he⟩

theorem MovedAbove.exists_beside (hc : c.WellFormed) (hslots : c.slots.size ≤ UInt32.size)
    (hs : s.Least c u) (hw : s.Within c u) (hb : c.blocks[n]? = some b)
    (h : k.MovedAbove c u b (s.tail n) is) (his : (b.insts.size :: is).IsChain (· > ·))
    (hk' : k'.Shows c u b (s.tail n) k.position) :
    ∃ listed all, k.entities c u = .ok listed ∧ k'.entities c u = .ok all ∧
      Beside c u b is k.position listed all := by
  obtain ⟨listed, hlisted, hmem⟩ := exists_entities hslots h.inside.bound
  obtain ⟨all, hall, hmem'⟩ := exists_entities hslots hk'.bound
  have hle : k.position ≤ b.insts.size := h.inside.block ▸ k.position_le
  refine ⟨listed, all, hlisted, hall, fun e => ?_, fun e => ?_, fun e hgap => ?_,
    fun hwhole => ?_⟩
  · refine Liveness.lists_iff_live hc hs hw hb hle (fun e => ?_) e
    rw [hmem']
    simp only [hk'.live _]
  · exact h.mem_listed_iff hc hs hw hb (lastDecided_of_descending his e).2.1 hmem
  · rw [hmem, hmem']
    refine exists_congr fun x => and_congr_left fun he => ?_
    rw [hk'.live x]
    exact h.mem_live_iff his he hgap
  · have hsame := entities_congr (c := c) (u := u) (h.mem_live_iff_of_whole hslots his hk' hwhole)
    rw [hlisted, hall] at hsame
    exact Except.ok.inj hsame

end Lists

end Cursor

namespace Liveness

/-- Over a finished unit the analysis ends, and a new cursor in a block can be moved above any
instructions that go up the block, and above no others. Then it lists the entities that are live
above the last of these instructions to decide about them: all that is live where it stands, as far
as nothing was left out that would have decided. -/
theorem listed_as_last_decided {d : Draft} {c : Code} (u : Universe) (h : d.finish = .ok c) :
    ∃ l, compute c u = .ok l ∧ ∀ b ∈ c.blocks, ∃ start, l.cursor b = .ok start ∧ ∀ is,
      ((∃ k, start.executeEach c u is = .ok k) ↔ (b.insts.size :: is).IsChain (· > ·)) ∧
      ∀ k, start.executeEach c u is = .ok k → k.position = is.getLastD b.insts.size ∧
        ∃ listed all, k.entities c u = .ok listed ∧ l.above b k.position = .ok all ∧
          Cursor.Beside c u b is k.position listed all := by
  have hc := Draft.wellFormed_of_finish h
  have hslots := Draft.slots_le_of_finish h
  obtain ⟨q, hq, hconsistent, -, hleast⟩ := Propagation.exists_least_run (u := u) hc
  have hwithin := Propagation.within_of_consistent hconsistent
  refine ⟨ofRun c u q, map_eq_ok.mpr ⟨q, faultOnly_eq_ok.mpr hq, rfl⟩, fun b hmem => ?_⟩
  obtain ⟨n, hb⟩ := Array.mem_iff_getElem?.mp hmem
  have hknown := hc.block_known u hb
  obtain ⟨start, hstart, hshows⟩ := exists_start hc hconsistent hb
  have hdown (is : List Nat) :
      (∃ k, start.executeEach c u is = .ok k) ↔ (b.insts.size :: is).IsChain (· > ·) := by
    rw [← hshows.position]
    exact Cursor.exists_executeEach_iff hknown ⟨hshows.block, hshows.bound⟩
  refine ⟨start, hstart, fun is => ⟨hdown is, fun k hk => ?_⟩⟩
  have hmoved : k.MovedAbove c u b (q.sets.tail n) is :=
    (Cursor.movedAbove_nil hshows).executeEach hknown hk
  have hle : k.position ≤ b.insts.size := hmoved.inside.block ▸ k.position_le
  obtain ⟨start', top, hstart', htop, htopshows⟩ := exists_cursor hc hconsistent hb hle
  obtain ⟨listed, all, hlisted, hall, hbeside⟩ :=
    hmoved.exists_beside hc hslots hleast hwithin hb ((hdown is).mp ⟨k, hk⟩) htopshows
  exact ⟨hmoved.position, listed, all, hlisted, (above_eq hstart' htop).trans hall, hbeside⟩

/-- Above the load, with the branch and the addition left out, the sum is listed because it is live
at the tail. -/
theorem listed_as_last_decided_sample : Draft.sample.finish = .ok Draft.sample.freeze ∧
    ∃ l b start k listed, compute Draft.sample.freeze (.temps .gp) = .ok l ∧
      Draft.sample.freeze.block ⟨1⟩ = .ok b ∧ l.cursor b = .ok start ∧
      start.executeEach Draft.sample.freeze (.temps .gp) [0] = .ok k ∧
      k.entities Draft.sample.freeze (.temps .gp) = .ok listed ∧ Temp.virtual .gp 1 ∈ listed := by
  have hlt : 1 < Draft.sample.freeze.blocks.size := by decide +kernel
  have hid : Draft.sample.freeze.blocks[1].id = ⟨1⟩ := by decide +kernel +revert
  have hsize : Draft.sample.freeze.blocks[1].insts.size = 3 := by decide +kernel +revert
  have hlast : Cursor.lastDecided (.temps .gp) Draft.sample.freeze.blocks[1]
      (Temp.virtual .gp 1) [0] = 3 := by
    decide +kernel +revert
  obtain ⟨l, hl, hblocks⟩ := listed_as_last_decided (.temps .gp) Draft.finish_sample
  obtain ⟨start, hstart, hmoved⟩ := hblocks _ (Array.getElem_mem hlt)
  obtain ⟨hmoves, hlists⟩ := hmoved [0]
  rw [hsize] at hmoves
  obtain ⟨k, hk⟩ := hmoves.mpr (by simp)
  obtain ⟨-, listed, all, hlisted, -, hbeside⟩ := hlists k hk
  have hsum := hbeside.listed_live (Temp.virtual .gp 1)
  rw [hlast, hid] at hsum
  exact ⟨Draft.finish_sample, l, _, start, k, listed, hl, entry_of_lt hlt, hstart, hk, hlisted,
    hsum.mpr live_sample⟩

/-- A block that moves a temporary into another one and returns that; before, it does nothing. -/
def handover : Draft := ((Draft.empty ⟨0, 0⟩).performAll [
  .addTemp .gp, .addTemp .gp, .addBlock, .push ⟨0⟩ ⟨.nop, []⟩,
  .push ⟨0⟩ ⟨.move, [.ofTemp (.virtual .gp 1) .define, .ofTemp (.virtual .gp 0) .earlyUse]⟩,
  .push ⟨0⟩ ⟨.ret, [.ofTemp (.virtual .gp 1) .lateUse]⟩]).2

/-- At the head, a cursor that has left out the move lists the result, which is dead there, and not
what is moved, which is live. -/
theorem gap_misleads : handover.finish = .ok handover.freeze ∧
    ∃ b l start k, handover.freeze.block ⟨0⟩ = .ok b ∧
      compute handover.freeze (.temps .gp) = .ok l ∧ l.cursor b = .ok start ∧
      start.executeEach handover.freeze (.temps .gp) [0] = .ok k ∧ k.position = 0 ∧
      k.entities handover.freeze (.temps .gp) = .ok [Temp.virtual .gp 1] ∧
      l.above b 0 = .ok [Temp.virtual .gp 0] := by
  have hrun : (do
      let b ← handover.freeze.block ⟨0⟩
      let l ← compute handover.freeze (.temps .gp)
      let start ← l.cursor b
      let k ← faultOnly (start.executeEach handover.freeze (.temps .gp) [0])
      let listed ← k.entities handover.freeze (.temps .gp)
      let all ← l.above b 0
      .ok (k.position, listed, all)) =
        Except.ok (0, [Temp.virtual .gp 1], [Temp.virtual .gp 0]) := by
    decide +kernel
  obtain ⟨b, hb, hrun⟩ := bind_eq_ok.mp hrun
  obtain ⟨l, hl, hrun⟩ := bind_eq_ok.mp hrun
  obtain ⟨start, hstart, hrun⟩ := bind_eq_ok.mp hrun
  obtain ⟨k, hk, hrun⟩ := bind_eq_ok.mp hrun
  obtain ⟨listed, hlisted, hrun⟩ := bind_eq_ok.mp hrun
  obtain ⟨all, hall, hrun⟩ := bind_eq_ok.mp hrun
  have hfound := Except.ok.inj hrun
  rw [Prod.mk.injEq, Prod.mk.injEq] at hfound
  obtain ⟨hposition, rfl, rfl⟩ := hfound
  exact ⟨Draft.finish_eq_ok.mpr ⟨by decide +kernel, rfl⟩, b, l, start, k, hb, hl, hstart,
    faultOnly_eq_ok.mp hk, hposition, hlisted, hall⟩

end Liveness

end MachineLiveness
