import MachineLiveness.Liveness.Paths
import MachineLiveness.Proofs.Fixpoint

/-!
The least solution of the equations is what the paths say. Whatever solves the equations has an
entity wherever a clear path to a use begins, by induction on the path; and the rounds that lead to
the least solution add an entity only where such a path begins, by induction on the rounds.
-/

namespace MachineLiveness

variable {c : Code} {u : Universe} {b : Block} {k : Nat} {e : u.Entity}

namespace Point

/-! ## One step of a path -/

theorem instBelow?_eq (hc : c.WellFormed) (hb : c.blocks[k]? = some b) (i : Nat) :
    instBelow? c ⟨b.id, i⟩ = b.insts[i]? := by
  simp [instBelow?, hc.block_id hb, hb]

theorem used_iff (hc : c.WellFormed) (hb : c.blocks[k]? = some b) {i : Nat} :
    Used c u e ⟨b.id, i⟩ ↔
      (∃ inst, b.insts[i]? = some inst ∧ e ∈ u.earlyUses inst) ∨ e ∈ Cursor.lateAbove u b i := by
  unfold Used
  rw [instBelow?_eq hc hb]
  refine or_congr_right ?_
  cases i with
  | zero => simp [instAbove?, Cursor.lateAbove]
  | succ i =>
    simp only [instAbove?, instBelow?_eq hc hb, Cursor.lateAbove]
    cases b.insts[i]? with
    | none => simp
    | some inst => simp

/-- Only entities of the unit are ever live. -/
theorem exists_index_of_live (hc : c.WellFormed) {p : Point} (h : Live c u e p) :
    ∃ x, u.indexOf c e = .ok x := by
  obtain ⟨q, -, hu⟩ := h
  have hbelow {q : Point} {inst : Inst} (kind : Role → Bool) (hi : q.instBelow? c = some inst)
      (he : e ∈ u.named kind inst) : ∃ x, u.indexOf c e = .ok x := by
    obtain ⟨b, hb, hi⟩ := Option.bind_eq_some_iff.mp hi
    exact hc.known hb (Array.mem_of_getElem? hi) kind e he
  rcases hu with ⟨inst, hi, he⟩ | ⟨inst, hi, he⟩
  · exact hbelow Role.isEarlyUse hi he
  · unfold instAbove? at hi
    split at hi
    · cases hi
    · exact hbelow Role.isLateUse hi he

theorem live_of_used {p : Point} (h : Used c u e p) : Live c u e p := ⟨p, .here p, h⟩

theorem live_of_below (hc : c.WellFormed) (hb : c.blocks[k]? = some b) {i : Nat}
    (hi : i < b.insts.size) (hd : e ∉ u.defines b.insts[i]) (h : Live c u e ⟨b.id, i + 1⟩) :
    Live c u e ⟨b.id, i⟩ := by
  obtain ⟨q, hq, hu⟩ := h
  refine ⟨q, .across ?_ hd hq, hu⟩
  rw [instBelow?_eq hc hb]
  exact Array.getElem?_eq_getElem hi

theorem live_of_successor (hc : c.WellFormed) (hb : c.blocks[k]? = some b) {s : BlockId}
    (hs : s ∈ b.successors) (h : Live c u e ⟨s, 0⟩) : Live c u e ⟨b.id, b.insts.size⟩ := by
  obtain ⟨q, hq, hu⟩ := h
  refine ⟨q, .along ?_ rfl hs hq, hu⟩
  rw [hc.block_id hb]
  exact hb

end Point

namespace Sets

variable {s : Sets} {x : Nat}

/-! ## The equations, point by point -/

theorem lateAtTail_eq (b : Block) :
    lateAtTail c u b = indices c u (Cursor.lateAbove u b b.insts.size) := by
  unfold lateAtTail
  rw [Array.back?_eq_getElem?]
  cases hn : b.insts.size with
  | zero => simp [Cursor.lateAbove, indices, hn]
  | succ n =>
    have hlt : n < b.insts.size := by omega
    simp [Cursor.lateAbove, hlt]

theorem mem_liveAt_of_lt {tail : Indices} {i : Nat} (hi : i < b.insts.size)
    (he : u.indexOf c e = .ok x) : x ∈ liveAt c u b tail i ↔
      e ∈ Cursor.lateAbove u b i ∨ e ∈ u.earlyUses b.insts[i] ∨
        x ∈ liveAt c u b tail (i + 1) ∧ e ∉ u.defines b.insts[i] := by
  rw [Cursor.liveAt_of_lt hi, mem_through, mem_indices_iff he, mem_indices_iff he,
    mem_indices_iff he]

/-! ## From paths to sets -/

/-- The sets have an index at a point. -/
def Has (c : Code) (u : Universe) (s : Sets) (x : Nat) (p : Point) : Prop :=
  ∀ k b, c.blocks[k]? = some b → p.block = b.id → p.pos ≤ b.insts.size →
    x ∈ liveAt c u b (s.tail k) p.pos

theorem has_of_used (hc : c.WellFormed) (hs : s.Solves c u) (he : u.indexOf c e = .ok x)
    {p : Point} (h : Point.Used c u e p) : s.Has c u x p := by
  intro k b hb hp hpos
  obtain ⟨id, i⟩ := p
  obtain rfl : id = b.id := hp
  have hpos : i ≤ b.insts.size := hpos
  rcases (Point.used_iff hc hb).mp h with ⟨inst, hinst, hin⟩ | hin
  · obtain ⟨hi, rfl⟩ := Array.getElem?_eq_some_iff.mp hinst
    exact (mem_liveAt_of_lt hi he).mpr (.inr (.inl hin))
  · rcases Nat.lt_or_eq_of_le hpos with hi | rfl
    · exact (mem_liveAt_of_lt hi he).mpr (.inl hin)
    · show x ∈ liveAt c u b (s.tail k) b.insts.size
      rw [Cursor.liveAt_size, hs.tail k b hb, mem_tailOf, lateAtTail_eq, mem_indices_iff he]
      exact .inl hin

theorem has_of_clear (hc : c.WellFormed) (hs : s.Solves c u) (he : u.indexOf c e = .ok x)
    {p q : Point} (h : Point.Clear c u e p q) (hq : s.Has c u x q) : s.Has c u x p := by
  induction h with
  | here => exact hq
  | @across p q inst hi hd _ ih =>
    intro k b hb hp hpos
    have hinst : b.insts[p.pos]? = some inst := by
      rw [← Point.instBelow?_eq hc hb, ← hp]
      exact hi
    obtain ⟨hlt, rfl⟩ := Array.getElem?_eq_some_iff.mp hinst
    exact (mem_liveAt_of_lt hlt he).mpr (.inr (.inr ⟨ih hq k b hb hp hlt, hd⟩))
  | @along p q a t ha hpos ht _ ih =>
    intro k b hb hp _
    obtain rfl : a = b := by
      rw [hp, hc.block_id hb, hb] at ha
      exact (Option.some.inj ha).symm
    obtain ⟨b', hb'⟩ := hc.successor_exists hb ht
    have hid : t = b'.id := BlockId.index_inj.mp (hc.block_id hb').symm
    have hhead : x ∈ s.head t.index := by
      rw [hs.head _ b' hb']
      exact ih hq _ b' hb' hid (Nat.zero_le _)
    rw [hpos, Cursor.liveAt_size, hs.tail k a hb]
    exact mem_tailOf.mpr (.inr ⟨t, ht, hhead⟩)

/-- A solution has an entity wherever a clear path to a use begins. -/
theorem has_of_live (hc : c.WellFormed) (hs : s.Solves c u) (he : u.indexOf c e = .ok x)
    {p : Point} (h : Point.Live c u e p) : s.Has c u x p := by
  obtain ⟨q, hq, hu⟩ := h
  exact has_of_clear hc hs he hq (has_of_used hc hs he hu)

/-! ## From sets to paths -/

theorem live_of_mem_liveAt (hc : c.WellFormed) (hb : c.blocks[k]? = some b)
    (he : u.indexOf c e = .ok x) {tail : Indices}
    (ht : x ∈ tail → Point.Live c u e ⟨b.id, b.insts.size⟩) {i : Nat} (hi : i ≤ b.insts.size)
    (h : x ∈ liveAt c u b tail i) : Point.Live c u e ⟨b.id, i⟩ := by
  induction hn : b.insts.size - i generalizing i with
  | zero =>
    obtain rfl : i = b.insts.size := by omega
    rw [Cursor.liveAt_size] at h
    exact ht h
  | succ n ih =>
    have hlt : i < b.insts.size := by omega
    rcases (mem_liveAt_of_lt hlt he).mp h with h | h | ⟨h, hd⟩
    · exact Point.live_of_used ((Point.used_iff hc hb).mpr (.inr h))
    · refine Point.live_of_used ((Point.used_iff hc hb).mpr (.inl ⟨_, ?_, h⟩))
      exact Array.getElem?_eq_getElem hlt
    · exact Point.live_of_below hc hb hlt hd (ih hlt h (by omega))

/-- Every entity of the sets is live where they have it. -/
def Sound (c : Code) (u : Universe) (s : Sets) : Prop :=
  ∀ k b e x, c.blocks[k]? = some b → u.indexOf c e = .ok x →
    (x ∈ s.tail k → Point.Live c u e ⟨b.id, b.insts.size⟩) ∧
      (x ∈ s.head k → Point.Live c u e ⟨b.id, 0⟩)

theorem sound_update (hc : c.WellFormed) (hb : c.blocks[k]? = some b) (h : s.Sound c u) :
    (s.update c u b k).Sound c u := by
  intro j a e x ha he
  rw [update_tail, update_head]
  split
  · rename_i hj
    subst hj
    obtain rfl : a = b := by
      rw [hb] at ha
      exact (Option.some.inj ha).symm
    have htail : x ∈ tailOf c u s a → Point.Live c u e ⟨a.id, a.insts.size⟩ := by
      intro hx
      rcases mem_tailOf.mp hx with hx | ⟨t, ht, hx⟩
      · rw [lateAtTail_eq, mem_indices_iff he] at hx
        exact Point.live_of_used ((Point.used_iff hc hb).mpr (.inr hx))
      · obtain ⟨b', hb'⟩ := hc.successor_exists hb ht
        have hid : b'.id = t := BlockId.index_inj.mp (hc.block_id hb')
        exact Point.live_of_successor hc hb ht (hid ▸ (h _ b' e x hb' he).2 hx)
    exact ⟨htail, live_of_mem_liveAt hc hb he htail (Nat.zero_le _)⟩
  · exact h j a e x ha he

theorem sound_rounds (hc : c.WellFormed) (n : Nat) : (rounds c u n).Sound c u := by
  apply rounds_induct (fun _ _ _ hb h => sound_update hc hb h)
  intro k b e x _ _
  exact ⟨fun hx => absurd hx Std.ExtTreeSet.not_mem_empty,
    fun hx => absurd hx Std.ExtTreeSet.not_mem_empty⟩

/-- The least solution has at every point exactly the entities that are live there. -/
theorem live_iff_mem_liveAt (hc : c.WellFormed) (hs : s.Least c u) (hw : s.Within c u)
    (hb : c.blocks[k]? = some b) (he : u.indexOf c e = .ok x) {i : Nat} (hi : i ≤ b.insts.size) :
    Point.Live c u e ⟨b.id, i⟩ ↔ x ∈ liveAt c u b (s.tail k) i := by
  constructor
  · intro h
    exact has_of_live hc hs.1 he h k b hb rfl hi
  · obtain ⟨n, hn⟩ := exists_settled_rounds hs.1 hw
    rw [hs.unique (least_of_settled hn)]
    exact live_of_mem_liveAt hc hb he (sound_rounds hc n k b e x hb he).1 hi

end Sets

namespace Liveness

theorem lists_iff_live (hc : c.WellFormed) {s : Sets} (hs : s.Least c u) (hw : s.Within c u)
    (hb : c.blocks[k]? = some b) {i : Nat} (hi : i ≤ b.insts.size) {es : List u.Entity}
    (h : u.Lists c es (Sets.liveAt c u b (s.tail k) i)) (e : u.Entity) :
    e ∈ es ↔ Point.Live c u e ⟨b.id, i⟩ := by
  rw [h e]
  constructor
  · rintro ⟨x, hx, he⟩
    exact (Sets.live_iff_mem_liveAt hc hs hw hb he hi).mpr hx
  · intro hlive
    obtain ⟨x, he⟩ := Point.exists_index_of_live hc hlive
    exact ⟨x, (Sets.live_iff_mem_liveAt hc hs hw hb he hi).mp hlive, he⟩

/-- The analysis of a finished unit ends, and at the tail of every block and above each of its
instructions it answers with exactly the entities that are live there. -/
theorem answers_iff_live {d : Draft} {c : Code} (u : Universe) (h : d.finish = .ok c) :
    ∃ l, compute c u = .ok l ∧ ∀ b ∈ c.blocks,
      (∃ es, l.atTail b.id = .ok es ∧
        ∀ e, e ∈ es ↔ Point.Live c u e ⟨b.id, b.insts.size⟩) ∧
      ∀ i < b.insts.size, ∃ es, l.above b i = .ok es ∧
        ∀ e, e ∈ es ↔ Point.Live c u e ⟨b.id, i⟩ := by
  have hc := Draft.wellFormed_of_finish h
  have hs := Draft.slots_le_of_finish h
  obtain ⟨q, hq, hconsistent, -, hleast⟩ := Propagation.exists_least_run (u := u) hc
  have hwithin := Propagation.within_of_consistent hconsistent
  have hcompute : compute c u = .ok (ofRun c u q) :=
    map_eq_ok.mpr ⟨q, faultOnly_eq_ok.mpr hq, rfl⟩
  refine ⟨_, hcompute, fun b hmem => ?_⟩
  obtain ⟨k, hb⟩ := Array.mem_iff_getElem?.mp hmem
  constructor
  · obtain ⟨es, hes, hlists⟩ := exists_atTail hc hs hconsistent hb
    refine ⟨es, hes, lists_iff_live hc hleast hwithin hb (Nat.le_refl _) ?_⟩
    rw [Cursor.liveAt_size]
    exact hlists
  · intro i hi
    obtain ⟨es, hes, hlists⟩ := exists_above hc hs hconsistent hb (Nat.le_of_lt hi)
    exact ⟨es, hes, lists_iff_live hc hleast hwithin hb (Nat.le_of_lt hi) hlists⟩

/-- Around the inner loop, past the load, a path leads to the sum. -/
theorem live_sample :
    Point.Live Draft.sample.freeze (.temps .gp) (Temp.virtual .gp 1) ⟨⟨1⟩, 3⟩ := by
  have hlt : 1 < Draft.sample.freeze.blocks.size := by decide +kernel
  refine ⟨⟨⟨1⟩, 1⟩, ?_, ?_⟩
  · apply Point.Clear.along (b := Draft.sample.freeze.blocks[1]) (s := ⟨1⟩)
    · exact Array.getElem?_eq_getElem hlt
    · decide +kernel +revert
    · decide +kernel +revert
    · apply Point.Clear.across (i := ⟨.load,
        [.ofTemp (.virtual .fp 0) .define, ⟨.addr (.virtual .gp 0) 8, .earlyUse, .fp⟩]⟩)
      · decide +kernel
      · decide +kernel
      · exact .here _
  · refine .inl ⟨⟨.add,
      [.ofTemp (.virtual .gp 1) .useDefine, .ofTemp (.reg ⟨.gp, 0⟩) .scratch]⟩, ?_, ?_⟩
    · decide +kernel
    · decide +kernel

theorem answers_iff_live_sample : Draft.sample.finish = .ok Draft.sample.freeze ∧
    ∃ l es, compute Draft.sample.freeze (.temps .gp) = .ok l ∧ l.atTail ⟨1⟩ = .ok es ∧
      Temp.virtual .gp 1 ∈ es := by
  have hlt : 1 < Draft.sample.freeze.blocks.size := by decide +kernel
  have hid : Draft.sample.freeze.blocks[1].id = ⟨1⟩ := by decide +kernel +revert
  have hsize : Draft.sample.freeze.blocks[1].insts.size = 3 := by
    decide +kernel +revert
  obtain ⟨l, hl, h⟩ := answers_iff_live (.temps .gp) Draft.finish_sample
  obtain ⟨⟨es, hes, hmem⟩, -⟩ := h _ (Array.getElem_mem hlt)
  rw [hid] at hes hmem
  rw [hsize] at hmem
  exact ⟨Draft.finish_sample, l, es, hl, hes, (hmem _).mpr live_sample⟩

end Liveness

end MachineLiveness
