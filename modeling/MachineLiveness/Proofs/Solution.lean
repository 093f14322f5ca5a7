import Mathlib.Data.Fintype.Powerset
import Mathlib.Data.Fintype.Prod
import Mathlib.Order.OrderIsoNat
import MachineLiveness.Proofs.Equations

/-!
Solving the equations of liveness round after round. From empty sets every update only adds
(`Rising`), and never more than a solution has; so if there is a bounded solution the rounds come to
sets that no update changes, and these are the least solution.
-/

namespace MachineLiveness.Sets

variable {c : Code} {u : Universe} {s t r : Sets} {b : Block} {k : Nat}

/-! ## Inclusion -/

theorem Le.refl (s : Sets) : s.Le s := fun _ => ⟨fun _ hx => hx, fun _ hx => hx⟩

theorem Le.trans (hst : s.Le t) (htr : t.Le r) : s.Le r :=
  fun k => ⟨fun x hx => (htr k).1 x ((hst k).1 x hx), fun x hx => (htr k).2 x ((hst k).2 x hx)⟩

theorem eq_of_rows (htail : ∀ k, s.tail k = t.tail k) (hhead : ∀ k, s.head k = t.head k) :
    s = t := by
  cases s
  cases t
  cases funext htail
  cases funext hhead
  rfl

theorem Le.antisymm (hst : s.Le t) (hts : t.Le s) : s = t := by
  apply eq_of_rows
  · exact fun k => Std.ExtTreeSet.ext_mem fun x => ⟨(hst k).1 x, (hts k).1 x⟩
  · exact fun k => Std.ExtTreeSet.ext_mem fun x => ⟨(hst k).2 x, (hts k).2 x⟩

/-! ## One update -/

theorem update_tail (j : Nat) :
    (s.update c u b k).tail j = if j = k then tailOf c u s b else s.tail j := rfl

theorem update_head (j : Nat) :
    (s.update c u b k).head j = if j = k then headOf c u b (tailOf c u s b) else s.head j := rfl

/-- No update changes the sets. -/
def Settled (c : Code) (u : Universe) (s : Sets) : Prop :=
  ∀ k b, c.blocks[k]? = some b → s.update c u b k = s

theorem settled_iff : s.Settled c u ↔ s.Solves c u := by
  constructor
  · intro h
    have htail (k : Nat) (b : Block) (hb : c.blocks[k]? = some b) : s.tail k = tailOf c u s b := by
      have hk := update_tail (c := c) (u := u) (s := s) (b := b) (k := k) k
      rwa [h k b hb, if_pos rfl] at hk
    refine ⟨htail, fun k b hb => ?_⟩
    have hk := update_head (c := c) (u := u) (s := s) (b := b) (k := k) k
    rwa [h k b hb, if_pos rfl, ← htail k b hb] at hk
  · intro h k b hb
    apply eq_of_rows
    · intro j
      rw [update_tail]
      split
      · rename_i hj
        rw [hj, h.tail k b hb]
      · rfl
    · intro j
      rw [update_head]
      split
      · rename_i hj
        rw [hj, h.head k b hb, h.tail k b hb]
      · rfl

theorem update_le_of_solves (ht : t.Solves c u) (hb : c.blocks[k]? = some b) (h : s.Le t) :
    (s.update c u b k).Le t := by
  have htail : ∀ x ∈ tailOf c u s b, x ∈ t.tail k := by
    rw [ht.tail k b hb]
    exact tailOf_mono fun j => (h j).2
  intro j
  rw [update_tail, update_head]
  split
  · rename_i hj
    subst hj
    refine ⟨htail, ?_⟩
    rw [ht.head j b hb]
    exact headOf_mono htail
  · exact h j

/-- The equations ask for more than there is, if for anything else. -/
structure Rising (c : Code) (u : Universe) (s : Sets) : Prop where
  tail : ∀ k b, c.blocks[k]? = some b → ∀ x ∈ s.tail k, x ∈ tailOf c u s b
  head : ∀ k b, c.blocks[k]? = some b → ∀ x ∈ s.head k, x ∈ headOf c u b (s.tail k)

theorem rising_empty : (empty).Rising c u where
  tail := fun _ _ _ _ hx => absurd hx Std.ExtTreeSet.not_mem_empty
  head := fun _ _ _ _ hx => absurd hx Std.ExtTreeSet.not_mem_empty

theorem le_update (h : s.Rising c u) (hb : c.blocks[k]? = some b) : s.Le (s.update c u b k) := by
  intro j
  rw [update_tail, update_head]
  split
  · rename_i hj
    subst hj
    exact ⟨h.tail j b hb, fun x hx => headOf_mono (h.tail j b hb) x (h.head j b hb x hx)⟩
  · exact ⟨fun _ hx => hx, fun _ hx => hx⟩

theorem rising_update (h : s.Rising c u) (hb : c.blocks[k]? = some b) :
    (s.update c u b k).Rising c u := by
  have hle := le_update h hb
  constructor
  · intro j a ha x hx
    rw [update_tail] at hx
    split at hx
    · rename_i hj
      rw [hj, hb] at ha
      cases ha
      exact tailOf_mono (fun i => (hle i).2) x hx
    · exact tailOf_mono (fun i => (hle i).2) x (h.tail j a ha x hx)
  · intro j a ha x hx
    rw [update_head] at hx
    rw [update_tail]
    split at hx
    · rename_i hj
      rw [hj, hb] at ha
      cases ha
      rw [if_pos hj]
      exact hx
    · rename_i hj
      rw [if_neg hj]
      exact h.head j a ha x hx

/-! ## One round -/

/-- The updates of a round, of the blocks in this list. -/
def updates (c : Code) (u : Universe) (s : Sets) (bs : List (Block × Nat)) : Sets :=
  bs.foldl (fun s (b, k) => s.update c u b k) s

theorem updates_cons (bs : List (Block × Nat)) :
    s.updates c u ((b, k) :: bs) = (s.update c u b k).updates c u bs := rfl

theorem mem_zipIdx (c : Code) : ∀ x ∈ c.blocks.toList.zipIdx, c.blocks[x.2]? = some x.1 := by
  rintro ⟨b, k⟩ hx
  simpa using List.mk_mem_zipIdx_iff_getElem?.mp hx

/-- What every update keeps, the updates of a list of blocks keep. -/
theorem updates_induct {P : Sets → Prop} {bs : List (Block × Nat)}
    (hp : ∀ s b k, c.blocks[k]? = some b → P s → P (s.update c u b k))
    (hbs : ∀ x ∈ bs, c.blocks[x.2]? = some x.1) (h : P s) : P (s.updates c u bs) := by
  induction bs generalizing s with
  | nil => exact h
  | cons x bs ih =>
    apply ih fun y hy => hbs y (by simp [hy])
    exact hp s x.1 x.2 (hbs x (by simp)) h

theorem updates_rising {bs : List (Block × Nat)} (hbs : ∀ x ∈ bs, c.blocks[x.2]? = some x.1)
    (h : s.Rising c u) : (s.updates c u bs).Rising c u ∧ s.Le (s.updates c u bs) := by
  apply updates_induct (P := fun t => t.Rising c u ∧ s.Le t) _ hbs ⟨h, .refl s⟩
  intro t b k hb ht
  exact ⟨rising_update ht.1 hb, ht.2.trans (le_update ht.1 hb)⟩

/-- If updates of rising sets change nothing in the end, none of them has. -/
theorem update_of_updates {bs : List (Block × Nat)} (hbs : ∀ x ∈ bs, c.blocks[x.2]? = some x.1)
    (h : s.Rising c u) (hs : s.updates c u bs = s) : ∀ x ∈ bs, s.update c u x.1 x.2 = s := by
  induction bs with
  | nil => simp
  | cons x bs ih =>
    have hb := hbs x (by simp)
    have hrest : ∀ y ∈ bs, c.blocks[y.2]? = some y.1 := fun y hy => hbs y (by simp [hy])
    have hle := (updates_rising hrest (rising_update h hb)).2
    have hx : s.update c u x.1 x.2 = s := by
      apply Le.antisymm _ (le_update h hb)
      rw [← updates_cons, hs] at hle
      exact hle
    rw [updates_cons, hx] at hs
    intro y hy
    rcases List.mem_cons.mp hy with rfl | hy
    · exact hx
    · exact ih hrest hs y hy

/-! ## Rounds -/

theorem rounds_induct {P : Sets → Prop}
    (hp : ∀ s b k, c.blocks[k]? = some b → P s → P (s.update c u b k)) (h : P empty) (n : Nat) :
    P (rounds c u n) := by
  induction n with
  | zero => exact h
  | succ n ih => exact updates_induct hp (mem_zipIdx c) ih

theorem rising_rounds (c : Code) (u : Universe) (n : Nat) : (rounds c u n).Rising c u :=
  rounds_induct (fun _ _ _ hb h => rising_update h hb) rising_empty n

theorem rounds_le_succ (c : Code) (u : Universe) (n : Nat) :
    (rounds c u n).Le (rounds c u (n + 1)) :=
  (updates_rising (mem_zipIdx c) (rising_rounds c u n)).2

theorem empty_le (t : Sets) : empty.Le t :=
  fun _ => ⟨fun _ hx => absurd hx Std.ExtTreeSet.not_mem_empty,
    fun _ hx => absurd hx Std.ExtTreeSet.not_mem_empty⟩

theorem rounds_le_of_solves (ht : t.Solves c u) (n : Nat) : (rounds c u n).Le t :=
  rounds_induct (P := fun s => s.Le t) (fun _ _ _ hb h => update_le_of_solves ht hb h)
    (empty_le t) n

theorem settled_rounds_iff (n : Nat) :
    (rounds c u n).Settled c u ↔ rounds c u (n + 1) = rounds c u n := by
  have hupdate := update_of_updates (mem_zipIdx c) (rising_rounds c u n)
  constructor
  · intro h
    have hkeep : ∀ t b k, c.blocks[k]? = some b → t = rounds c u n →
        t.update c u b k = rounds c u n := by
      rintro _ b k hb rfl
      exact h k b hb
    exact updates_induct hkeep (mem_zipIdx c) rfl
  · intro h k b hb
    exact hupdate h (b, k) (List.mk_mem_zipIdx_iff_getElem?.mpr (by simpa using hb))

/-- The sets of the blocks of a unit, and of no other position, with indices of the universe. -/
def Within (c : Code) (u : Universe) (s : Sets) : Prop :=
  ∀ k x, x ∈ s.tail k ∨ x ∈ s.head k → k < c.blocks.size ∧ x < u.size c

/-- Sets as one finite set: which index is at the tail (`true`) or at the head of which block. -/
def cells (c : Code) (u : Universe) (s : Sets) : Set (Bool × Fin c.blocks.size × Fin (u.size c)) :=
  {a | a.2.2.val ∈ if a.1 then s.tail a.2.1 else s.head a.2.1}

theorem cells_mono (h : s.Le t) : s.cells c u ⊆ t.cells c u := by
  rintro ⟨d, k, x⟩ hx
  cases d with
  | true => exact (h k).1 x hx
  | false => exact (h k).2 x hx

theorem le_of_cells (hs : s.Within c u) (h : s.cells c u ⊆ t.cells c u) : s.Le t := by
  intro k
  constructor
  · intro x hx
    obtain ⟨hk, hlt⟩ := hs k x (.inl hx)
    exact h (show (true, ⟨k, hk⟩, ⟨x, hlt⟩) ∈ s.cells c u from hx)
  · intro x hx
    obtain ⟨hk, hlt⟩ := hs k x (.inr hx)
    exact h (show (false, ⟨k, hk⟩, ⟨x, hlt⟩) ∈ s.cells c u from hx)

/-- Rounds below bounded sets come to an end. -/
theorem exists_settled_rounds (ht : t.Solves c u) (hw : t.Within c u) :
    ∃ n, (rounds c u n).Settled c u := by
  have hmono : Monotone fun n => (rounds c u n).cells c u :=
    monotone_nat_of_le_succ fun n => cells_mono (rounds_le_succ c u n)
  obtain ⟨n, hn⟩ := WellFoundedGT.monotone_chain_condition
    (⟨_, hmono⟩ : Nat →o Set (Bool × Fin c.blocks.size × Fin (u.size c)))
  have hwithin : (rounds c u (n + 1)).Within c u := by
    intro k x hx
    have hle := rounds_le_of_solves ht (n + 1) k
    exact hw k x (hx.imp (hle.1 x) (hle.2 x))
  have hcells : (rounds c u (n + 1)).cells c u ⊆ (rounds c u n).cells c u :=
    (hn (n + 1) (Nat.le_succ n)).ge
  have hle := le_of_cells hwithin hcells
  exact ⟨n, (settled_rounds_iff n).mpr (hle.antisymm (rounds_le_succ c u n))⟩

/-! ## The least solution -/

theorem Least.unique (hs : s.Least c u) (ht : t.Least c u) : s = t :=
  Le.antisymm (hs.2 t ht.1) (ht.2 s hs.1)

theorem least_of_settled {n : Nat} (h : (rounds c u n).Settled c u) : (rounds c u n).Least c u :=
  ⟨settled_iff.mp h, fun _ ht => rounds_le_of_solves ht n⟩

end MachineLiveness.Sets
