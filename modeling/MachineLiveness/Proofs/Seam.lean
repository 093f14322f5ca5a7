import MachineLiveness.Proofs.Cut
import MachineLiveness.Proofs.Follow

/-!
Liveness across a cut. A path of the unit before the cut is followed in the unit after it, with the
jump to cross where it comes to the cut; and a path of the unit after it is followed back, where the
jump and the edge to the lower part are no steps at all. The two meet everywhere but just below the
seam, where what is used late above the cut is live no longer.
-/

namespace MachineLiveness

variable {c c' : Code} {u : Universe} {e : u.Entity} {b upper lower : Block} {k : Nat}

/-- The unit `c'` comes from `c` by a cut above an instruction of a block. -/
structure Code.Parted (c c' : Code) (b : Block) (k : Nat) (upper lower : Block) : Prop where
  before : c.WellFormed
  after : c'.WellFormed
  block : c.blocks[b.id.index]? = some b
  inside : k < b.insts.size
  cut : c.IsCut c' b k upper lower

namespace Code.Parted

/-! ## The blocks after the cut -/

theorem lower_at (h : c.Parted c' b k upper lower) : c'.blocks[lower.id.index]? = some lower := by
  rw [h.cut.lower_id]
  exact h.cut.lower_at

theorem lower_size (h : c.Parted c' b k upper lower) :
    lower.insts.size = b.insts.size - k := by
  rw [h.cut.lower_insts]
  simp

theorem upper_size (h : c.Parted c' b k upper lower) : upper.insts.size = k + 1 := by
  have := h.inside
  rw [h.cut.upper_insts, Array.size_push, Array.size_extract]
  omega

/-- The lower part was no block before. -/
theorem ne_lower (h : c.Parted c' b k upper lower) {x : BlockId} {a : Block}
    (ha : c.blocks[x.index]? = some a) : x ≠ lower.id := by
  rintro rfl
  have hlt := (Array.getElem?_eq_some_iff.mp ha).1
  rw [h.cut.lower_id] at hlt
  exact Nat.lt_irrefl _ hlt

/-- The other blocks are what they were. -/
theorem others (h : c.Parted c' b k upper lower) {x : BlockId} (hb : x ≠ b.id)
    (hl : x ≠ lower.id) :
    c.blocks[x.index]? = none ∧ c'.blocks[x.index]? = none ∨
      ∃ a a', c.blocks[x.index]? = some a ∧ c'.blocks[x.index]? = some a' ∧
        a'.insts = a.insts ∧ a'.successors = a.successors := by
  have hb : x.index ≠ b.id.index := mt BlockId.index_inj.mp hb
  have hl : x.index ≠ c.blocks.size := h.cut.lower_id ▸ mt BlockId.index_inj.mp hl
  cases ha : c.blocks[x.index]? with
  | none =>
    refine .inl ⟨rfl, ?_⟩
    rw [Array.getElem?_eq_none_iff, h.cut.size]
    rw [Array.getElem?_eq_none_iff] at ha
    omega
  | some a =>
    obtain ⟨a', ha', -, hinsts, hsuccessors⟩ := h.cut.others _ a hb ha
    exact .inr ⟨a, a', rfl, ha', hinsts, hsuccessors⟩

/-! ## The instructions after the cut -/

theorem below_other (h : c.Parted c' b k upper lower) {x : BlockId} (hb : x ≠ b.id)
    (hl : x ≠ lower.id) (i : Nat) :
    Point.instBelow? c' ⟨x, i⟩ = Point.instBelow? c ⟨x, i⟩ := by
  rcases h.others hb hl with ⟨ha, ha'⟩ | ⟨a, a', ha, ha', hinsts, -⟩
  · simp [Point.instBelow?, ha, ha']
  · simp [Point.instBelow?, ha, ha', hinsts]

theorem below_upper (h : c.Parted c' b k upper lower) {i : Nat} (hi : i < k) :
    Point.instBelow? c' ⟨b.id, i⟩ = Point.instBelow? c ⟨b.id, i⟩ := by
  have := h.inside
  rw [Point.instBelow?_eq h.before h.block]
  rw [← h.cut.upper_id, Point.instBelow?_eq h.after h.cut.upper_at, h.cut.upper_insts,
    Array.getElem?_push, if_neg (by simp; omega), Array.getElem?_extract, if_pos (by omega),
    Nat.zero_add]

theorem below_jump (h : c.Parted c' b k upper lower) :
    Point.instBelow? c' ⟨b.id, k⟩ = some ⟨.jump, []⟩ := by
  have := h.inside
  rw [← h.cut.upper_id, Point.instBelow?_eq h.after h.cut.upper_at, h.cut.upper_insts,
    Array.getElem?_push, if_pos (by simp; omega)]

theorem below_seam (h : c.Parted c' b k upper lower) :
    Point.instBelow? c' ⟨b.id, k + 1⟩ = none := by
  rw [← h.cut.upper_id, Point.instBelow?_eq h.after h.cut.upper_at,
    Array.getElem?_eq_none (Nat.le_of_eq h.upper_size)]

theorem below_lower (h : c.Parted c' b k upper lower) (j : Nat) :
    Point.instBelow? c' ⟨lower.id, j⟩ = Point.instBelow? c ⟨b.id, k + j⟩ := by
  rw [Point.instBelow?_eq h.after h.lower_at, Point.instBelow?_eq h.before h.block,
    h.cut.lower_insts, Array.getElem?_extract]
  split
  · rfl
  · rw [Array.getElem?_eq_none (by omega)]

end Code.Parted

theorem Universe.not_mem_named_jump (u : Universe) {e : u.Entity} (kind : Role → Bool) :
    e ∉ u.named kind ⟨.jump, []⟩ := by
  simp [mem_named]

namespace Point

/-! ## From before the cut to after it -/

/-- Where a point of the unit before the cut is found after it. The place of the cut itself is above
the jump, where the late uses above it are still to come. -/
inductive Down (b lower : BlockId) (k : Nat) : Point → Point → Prop where
  | other {x : BlockId} {i : Nat} (hx : x ≠ b) : Down b lower k ⟨x, i⟩ ⟨x, i⟩
  | upper {i : Nat} (hi : i ≤ k) : Down b lower k ⟨b, i⟩ ⟨b, i⟩
  | lower {i j : Nat} (hi : i = k + j) (hj : 0 < j) : Down b lower k ⟨b, i⟩ ⟨lower, j⟩

theorem down_head (b lower : BlockId) (k : Nat) (x : BlockId) :
    Down b lower k ⟨x, 0⟩ ⟨x, 0⟩ := by
  by_cases hx : x = b
  · subst hx
    exact .upper (Nat.zero_le k)
  · exact .other hx

/-- The jump leads from the upper part to the lower part and defines nothing. -/
theorem clear_seam (h : c.Parted c' b k upper lower) : Clear c' u e ⟨b.id, k⟩ ⟨lower.id, 0⟩ := by
  refine .across h.below_jump (u.not_mem_named_jump _) ?_
  refine .along h.cut.upper_at h.upper_size.symm ?_ (.here _)
  rw [h.cut.upper_successors]
  exact List.mem_singleton_self _

/-- Before an instruction there may be the jump to cross. -/
theorem exists_clear_of_down (h : c.Parted c' b k upper lower) {p p' : Point} {i : Inst}
    (hp : Down b.id lower.id k p p') (hi : p.instBelow? c = some i) :
    ∃ q, Clear c' u e p' q ∧ q.instBelow? c' = some i ∧
      Down b.id lower.id k ⟨p.block, p.pos + 1⟩ ⟨q.block, q.pos + 1⟩ := by
  cases hp with
  | @other x n hx =>
    obtain ⟨a, ha, -⟩ := Option.bind_eq_some_iff.mp hi
    exact ⟨_, .here _, (h.below_other hx (h.ne_lower ha) n).trans hi, .other hx⟩
  | @upper n hn =>
    rcases Nat.lt_or_eq_of_le hn with hn | rfl
    · exact ⟨_, .here _, (h.below_upper hn).trans hi, .upper hn⟩
    · -- The instruction just below the cut is the first of the lower part now.
      exact ⟨_, clear_seam h, (h.below_lower 0).trans hi, .lower rfl Nat.one_pos⟩
  | @lower n j hn hj =>
    subst hn
    exact ⟨_, .here _, (h.below_lower j).trans hi, .lower (Nat.add_assoc _ _ _) (Nat.succ_pos j)⟩

theorem instAbove?_of_down (h : c.Parted c' b k upper lower) {x : BlockId} {n : Nat} {p' : Point}
    {i : Inst} (hp : Down b.id lower.id k ⟨x, n + 1⟩ p') (hi : instBelow? c ⟨x, n⟩ = some i) :
    p'.instAbove? c' = some i := by
  cases hp with
  | other hx =>
    obtain ⟨a, ha, -⟩ := Option.bind_eq_some_iff.mp hi
    exact (h.below_other hx (h.ne_lower ha) n).trans hi
  | upper hn => exact (h.below_upper hn).trans hi
  | @lower _ j hn hj =>
    obtain ⟨j, rfl⟩ := Nat.exists_eq_add_one_of_ne_zero (Nat.ne_of_gt hj)
    obtain rfl : n = k + j := Nat.succ.inj hn
    exact (h.below_lower j).trans hi

theorem follows_down (h : c.Parted c' b k upper lower) :
    Follows c c' u e (Down b.id lower.id k) where
  early := by
    intro p p' i hp hi he
    obtain ⟨q, hclear, hq, -⟩ := exists_clear_of_down h hp hi
    exact (live_of_used (.inl ⟨i, hq, he⟩)).of_clear hclear
  late := by
    intro x n p' i hp hi he
    exact live_of_used (.inr ⟨i, instAbove?_of_down h hp hi, he⟩)
  across := by
    intro p p' i hp hi hd
    obtain ⟨q, hclear, hq, hnext⟩ := exists_clear_of_down h hp hi
    exact ⟨_, hnext, hclear.trans (.across hq hd (.here _))⟩
  along := by
    intro p p' a s hp ha ht hs
    refine ⟨⟨s, 0⟩, down_head _ _ _ s, ?_⟩
    cases hp with
    | other hx =>
      rcases h.others hx (h.ne_lower ha) with ⟨hnone, -⟩ | ⟨a, a', ha', hblock, hinsts, hsuccessors⟩
      · rw [ha] at hnone
        cases hnone
      · cases ha.symm.trans ha'
        exact .along hblock (hinsts ▸ ht) (hsuccessors ▸ hs) (.here _)
    | upper hn =>
      cases ha.symm.trans h.block
      exact absurd (ht ▸ hn) (Nat.not_le.mpr h.inside)
    | @lower i j hn hj =>
      cases ha.symm.trans h.block
      have ht : i = b.insts.size := ht
      have hlast : j = lower.insts.size := by
        rw [h.lower_size]
        omega
      exact .along h.lower_at hlast (h.cut.lower_successors ▸ hs) (.here _)

/-! ## From after the cut to before it -/

/-- Where a point of the unit after the cut was before it. All that the jump leads past was one
point. -/
inductive Up (b lower : BlockId) (k : Nat) : Point → Point → Prop where
  | other {x : BlockId} {i : Nat} (hx : x ≠ b) (hl : x ≠ lower) : Up b lower k ⟨x, i⟩ ⟨x, i⟩
  | upper {i : Nat} (hi : i ≤ k) : Up b lower k ⟨b, i⟩ ⟨b, i⟩
  | seam : Up b lower k ⟨b, k + 1⟩ ⟨b, k⟩
  | lower {i j : Nat} (hi : i = k + j) : Up b lower k ⟨lower, j⟩ ⟨b, i⟩

theorem up_head {b lower : BlockId} (k : Nat) {x : BlockId} (hl : x ≠ lower) :
    Up b lower k ⟨x, 0⟩ ⟨x, 0⟩ := by
  by_cases hx : x = b
  · subst hx
    exact .upper (Nat.zero_le k)
  · exact .other hx hl

/-- An instruction after the cut was there before it, unless it is the jump. -/
theorem inst_of_up (h : c.Parted c' b k upper lower) {p' p : Point} {i : Inst}
    (hp : Up b.id lower.id k p' p) (hi : p'.instBelow? c' = some i) :
    i = ⟨.jump, []⟩ ∧ Up b.id lower.id k ⟨p'.block, p'.pos + 1⟩ p ∨
      p.instBelow? c = some i ∧
        Up b.id lower.id k ⟨p'.block, p'.pos + 1⟩ ⟨p.block, p.pos + 1⟩ := by
  cases hp with
  | @other x n hx hl => exact .inr ⟨(h.below_other hx hl n).symm.trans hi, .other hx hl⟩
  | @upper n hn =>
    rcases Nat.lt_or_eq_of_le hn with hn | rfl
    · exact .inr ⟨(h.below_upper hn).symm.trans hi, .upper hn⟩
    · cases h.below_jump.symm.trans hi
      exact .inl ⟨rfl, .seam⟩
  | seam => cases h.below_seam.symm.trans hi
  | @lower n j hn =>
    subst hn
    exact .inr ⟨(h.below_lower j).symm.trans hi, .lower (Nat.add_assoc _ _ _)⟩

theorem instAbove?_of_up (h : c.Parted c' b k upper lower) {x : BlockId} {n : Nat} {p : Point}
    {i : Inst} (hp : Up b.id lower.id k ⟨x, n + 1⟩ p) (hi : instBelow? c' ⟨x, n⟩ = some i) :
    i = ⟨.jump, []⟩ ∨ p.instAbove? c = some i := by
  cases hp with
  | other hx hl => exact .inr ((h.below_other hx hl n).symm.trans hi)
  | upper hn => exact .inr ((h.below_upper hn).symm.trans hi)
  | seam =>
    cases h.below_jump.symm.trans hi
    exact .inl rfl
  | lower hn =>
    subst hn
    exact .inr ((h.below_lower n).symm.trans hi)

theorem follows_up (h : c.Parted c' b k upper lower) :
    Follows c' c u e (Up b.id lower.id k) where
  early := by
    intro p' p i hp hi he
    rcases inst_of_up h hp hi with ⟨rfl, -⟩ | ⟨hi, -⟩
    · exact absurd he (u.not_mem_named_jump _)
    · exact live_of_used (.inl ⟨i, hi, he⟩)
  late := by
    intro x n p i hp hi he
    rcases instAbove?_of_up h hp hi with rfl | hi
    · exact absurd he (u.not_mem_named_jump _)
    · exact live_of_used (.inr ⟨i, hi, he⟩)
  across := by
    intro p' p i hp hi hd
    rcases inst_of_up h hp hi with ⟨-, hnext⟩ | ⟨hi, hnext⟩
    · exact ⟨p, hnext, .here _⟩
    · exact ⟨_, hnext, .across hi hd (.here _)⟩
  along := by
    intro p' p a' s hp ha' ht hs
    cases hp with
    | other hx hl =>
      rcases h.others hx hl with ⟨-, hnone⟩ | ⟨a, a', ha, hblock, hinsts, hsuccessors⟩
      · rw [ha'] at hnone
        cases hnone
      · cases ha'.symm.trans hblock
        rw [hsuccessors] at hs
        obtain ⟨_, htarget⟩ := h.before.successor_exists ha hs
        exact ⟨⟨s, 0⟩, up_head k (h.ne_lower htarget), .along ha (hinsts ▸ ht) hs (.here _)⟩
    | upper hn =>
      cases ha'.symm.trans h.cut.upper_at
      have hn : upper.insts.size ≤ k := ht ▸ hn
      rw [h.upper_size] at hn
      exact absurd hn (Nat.not_succ_le_self k)
    | seam =>
      cases ha'.symm.trans h.cut.upper_at
      rw [h.cut.upper_successors, List.mem_singleton] at hs
      subst hs
      exact ⟨_, .lower rfl, .here _⟩
    | @lower i j hn =>
      cases ha'.symm.trans h.lower_at
      rw [h.cut.lower_successors] at hs
      obtain ⟨_, htarget⟩ := h.before.successor_exists h.block hs
      have hlast : i = b.insts.size := by
        have ht : j = lower.insts.size := ht
        have := h.inside
        rw [h.lower_size] at ht
        omega
      exact ⟨⟨s, 0⟩, up_head k (h.ne_lower htarget), .along h.block hlast hs (.here _)⟩

/-! ## Where the two units agree -/

theorem live_other_iff (h : c.Parted c' b k upper lower) {x : BlockId} (hx : x ≠ b.id)
    (hl : x ≠ lower.id) (i : Nat) : Live c u e ⟨x, i⟩ ↔ Live c' u e ⟨x, i⟩ :=
  ⟨live_of_follows (follows_down h) (.other hx), live_of_follows (follows_up h) (.other hx hl)⟩

theorem live_upper_iff (h : c.Parted c' b k upper lower) {i : Nat} (hi : i ≤ k) :
    Live c u e ⟨b.id, i⟩ ↔ Live c' u e ⟨b.id, i⟩ :=
  ⟨live_of_follows (follows_down h) (.upper hi), live_of_follows (follows_up h) (.upper hi)⟩

theorem live_lower_iff (h : c.Parted c' b k upper lower) {j : Nat} (hj : 0 < j) :
    Live c u e ⟨b.id, k + j⟩ ↔ Live c' u e ⟨lower.id, j⟩ :=
  ⟨live_of_follows (follows_down h) (.lower rfl hj), live_of_follows (follows_up h) (.lower rfl)⟩

/-! ## At the seam -/

theorem upper_inst (h : c.Parted c' b k upper lower) (i : Nat) :
    upper.insts[i]? = instBelow? c' ⟨b.id, i⟩ := by
  rw [← h.cut.upper_id, instBelow?_eq h.after h.cut.upper_at]

theorem live_upper_tail_iff (h : c.Parted c' b k upper lower) :
    Live c' u e ⟨upper.id, upper.insts.size⟩ ↔ Live c' u e ⟨lower.id, 0⟩ := by
  have hjump : e ∉ Cursor.lateAbove u upper upper.insts.size := by
    rw [h.upper_size, Cursor.lateAbove, upper_inst h, h.below_jump]
    exact u.not_mem_named_jump _
  rw [live_tail_iff h.after h.cut.upper_at, h.cut.upper_successors]
  simp [hjump]

/-- Above the cut, and so above the jump, lives what lives below it and what is used late just
above. -/
theorem live_seam_iff (h : c.Parted c' b k upper lower) :
    Live c u e ⟨b.id, k⟩ ↔ Live c' u e ⟨lower.id, 0⟩ ∨ e ∈ Cursor.lateAbove u b k := by
  have hlt : k < upper.insts.size := by
    rw [h.upper_size]
    exact Nat.lt_succ_self k
  have hjump : upper.insts[k] = ⟨.jump, []⟩ := by
    apply Option.some.inj
    rw [← Array.getElem?_eq_getElem, upper_inst h, h.below_jump]
  have hlate : Cursor.lateAbove u upper k = Cursor.lateAbove u b k := by
    cases hk : k with
    | zero => rfl
    | succ i =>
      have hi : upper.insts[i]? = b.insts[i]? := by
        rw [upper_inst h, h.below_upper (hk ▸ Nat.lt_succ_self i),
          instBelow?_eq h.before h.block]
      simp only [Cursor.lateAbove, hi]
  have htail := live_upper_tail_iff (u := u) (e := e) h
  rw [h.upper_size] at htail
  rw [live_upper_iff h (Nat.le_refl k), ← h.cut.upper_id,
    live_iff_of_lt h.after h.cut.upper_at hlt, hjump, hlate, htail]
  simp only [Universe.earlyUses, Universe.defines, u.not_mem_named_jump, not_false_eq_true,
    true_and, false_or]
  exact or_comm

end Point

/-! ## The answers on both sides -/

namespace Liveness

variable {l l' : Liveness u}

/-- The results before and after a cut answer alike about the other blocks, down to the cut in the
upper part and, one instruction further on, in the lower part; the tail of the upper part is the
head of the lower part, and above the jump there is besides what is used late above the cut. -/
structure Seamless (c c' : Code) (l l' : Liveness u) (b : Block) (k : Nat) (upper lower : Block) :
    Prop where
  others : ∀ j a a', j ≠ b.id.index → c.blocks[j]? = some a → c'.blocks[j]? = some a' →
    SameAt l l' a a'
  upper_above : ∀ i ≤ k, Agree (l.above b i) (l'.above upper i)
  lower_above : ∀ j, 0 < j → k + j ≤ b.insts.size → Agree (l.above b (k + j)) (l'.above lower j)
  lower_tail : Agree (l.atTail b.id) (l'.atTail lower.id)
  upper_tail : Agree (l'.atTail upper.id) (l'.atHead lower)
  seam : ∃ es es', l.above b k = .ok es ∧ l'.atHead lower = .ok es' ∧
    ∀ e, e ∈ es ↔ e ∈ es' ∨ e ∈ Cursor.lateAbove u b k

theorem seamless_of_parted (h : c.Parted c' b k upper lower) (hl : Truthful c l)
    (hl' : Truthful c' l') : Seamless c c' l l' b k upper lower where
  others := by
    intro j a a' hj ha ha'
    obtain ⟨a'', ha'', hid, hinsts, -⟩ := h.cut.others j a hj ha
    obtain rfl : a'' = a' := Option.some.inj (ha''.symm.trans ha')
    have hindex : a.id.index = j := h.before.block_id ha
    have hlower : a.id ≠ lower.id := h.ne_lower (hindex.symm ▸ ha)
    have hother : a.id ≠ b.id := by
      intro hab
      exact hj (hindex ▸ congrArg BlockId.index hab)
    refine hl.sameAt hl' ha ha' (by rw [hinsts]) fun e i => ?_
    rw [hid]
    exact Point.live_other_iff h hother hlower i
  upper_above := by
    intro i hi
    have hi' : i ≤ upper.insts.size := by
      rw [h.upper_size]
      omega
    have hib : i ≤ b.insts.size := Nat.le_trans hi (Nat.le_of_lt h.inside)
    refine (hl.above _ b i h.block hib).agree (hl'.above _ upper i h.cut.upper_at hi') fun e => ?_
    rw [h.cut.upper_id]
    exact Point.live_upper_iff h hi
  lower_above := by
    intro j hj hjb
    have hj' : j ≤ lower.insts.size := by
      rw [h.lower_size]
      omega
    exact (hl.above _ b _ h.block hjb).agree (hl'.above _ lower j h.lower_at hj') fun e =>
      Point.live_lower_iff h hj
  lower_tail := by
    have hsize : k + lower.insts.size = b.insts.size := by
      have := h.inside
      rw [h.lower_size]
      omega
    have hpos : 0 < lower.insts.size := by
      have := h.inside
      omega
    refine (hl.atTail _ b h.block).agree (hl'.atTail _ lower h.lower_at) fun e => ?_
    rw [← hsize]
    exact Point.live_lower_iff h hpos
  upper_tail := (hl'.atTail _ upper h.cut.upper_at).agree (hl'.atHead h.lower_at) fun e =>
    Point.live_upper_tail_iff h
  seam := by
    obtain ⟨es, hes, hmem⟩ := hl.above _ b k h.block (Nat.le_of_lt h.inside)
    obtain ⟨es', hes', hmem'⟩ := hl'.atHead h.lower_at
    refine ⟨es, es', hes, hes', fun e => ?_⟩
    rw [hmem, hmem']
    exact Point.live_seam_iff h

/-- A block of a finished unit can be cut above any of its instructions, unless there is no number
left for a block; the draft is finished again, and in every universe nothing has become live or
ceased to be live by the cut. -/
theorem cut_seamless {d : Draft} (h : d.finish = .ok c) {n : Nat} (hb : c.blocks[n]? = some b)
    (hk : k < b.insts.size) :
    d.cut b.id k = .error .tooManyBlocks ∧ c.blocks.size = UInt32.size ∨
      ∃ d' c' upper lower, d.cut b.id k = .ok (lower.id, d') ∧ d'.finish = .ok c' ∧
        c.IsCut c' b k upper lower ∧
        ∀ u, ∃ l l' : Liveness u, compute c u = .ok l ∧ compute c' u = .ok l' ∧
          Seamless c c' l l' b k upper lower := by
  have hc := Draft.wellFormed_of_finish h
  rcases Draft.exists_cut h hb hk with hfull | ⟨d', c', upper, lower, hcut, h', hiscut⟩
  · exact .inl hfull
  refine .inr ⟨d', c', upper, lower, hcut, h', hiscut, fun u => ?_⟩
  obtain ⟨l, hl, htrue⟩ := exists_truthful u h
  obtain ⟨l', hl', htrue'⟩ := exists_truthful u h'
  have hparted : c.Parted c' b k upper lower :=
    ⟨hc, Draft.wellFormed_of_finish h', by rw [hc.block_id hb]; exact hb, hk, hiscut⟩
  exact ⟨l, l', hl, hl', seamless_of_parted hparted htrue htrue'⟩

/-- The inner loop of the sample, cut above its branch, below a register that the addition
overwrites. -/
theorem cut_seamless_sample : Draft.sample.finish = .ok Draft.sample.freeze ∧
    ∃ b d' c' upper lower, Draft.sample.freeze.blocks[1]? = some b ∧
      Draft.sample.cut b.id 2 = .ok (lower.id, d') ∧ d'.finish = .ok c' ∧
      Temp.reg ⟨.gp, 0⟩ ∈ Cursor.lateAbove (.temps .gp) b 2 ∧
      ∃ l l' : Liveness (.temps .gp), compute Draft.sample.freeze (.temps .gp) = .ok l ∧
        compute c' (.temps .gp) = .ok l' ∧
        Seamless Draft.sample.freeze c' l l' b 2 upper lower := by
  have hlt : 1 < Draft.sample.freeze.blocks.size := by decide +kernel
  have hb : Draft.sample.freeze.blocks[1]? = some Draft.sample.freeze.blocks[1] :=
    Array.getElem?_eq_getElem hlt
  have hk : 2 < Draft.sample.freeze.blocks[1].insts.size := by decide +kernel +revert
  have hlate : Temp.reg ⟨.gp, 0⟩ ∈
      Cursor.lateAbove (.temps .gp) Draft.sample.freeze.blocks[1] 2 := by decide +kernel +revert
  rcases cut_seamless Draft.finish_sample hb hk with
    ⟨-, hfull⟩ | ⟨d', c', upper, lower, hcut, h', -, hu⟩
  · have hroom : Draft.sample.freeze.blocks.size < UInt32.size := by decide +kernel
    exact absurd hfull (Nat.ne_of_lt hroom)
  · exact ⟨Draft.finish_sample, _, d', c', upper, lower, hb, hcut, h', hlate, hu (.temps .gp)⟩

end Liveness

end MachineLiveness
