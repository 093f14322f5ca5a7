import MachineLiveness.Proofs.Cursor
import MachineLiveness.Propagation

/-!
What one visit does to the state of a run. Pushing indices into tails is described once (`Grown`), and
so is a visit (`Visited`); what a run keeps is read off these two and never off the loops themselves.

The weight of a state, its dirty blocks and the room left in its tails together, pays for the visits:
a block becomes dirty only when some tail has lost room.
-/

namespace MachineLiveness

/-! ## Reading and changing the tables -/

namespace Tables

/-- The tail of the block at a position. -/
def tailAt (t : Tables) (k : Nat) : Indices := t.tails[k]?.getD ∅

/-- What is recorded at the head of the block at a position. -/
def headAt (t : Tables) (k : Nat) : List Nat := t.heads[k]?.getD []

variable {t t' : Tables} {b : BlockId}

theorem tail_of_lt (h : b.index < t.tails.size) : t.tail b = .ok (t.tailAt b.index) := by
  simp [tail, entry, tailAt, h]

theorem head_of_lt (h : b.index < t.heads.size) : t.head b = .ok (t.headAt b.index) := by
  simp [head, entry, headAt, h]

theorem addToTail_eq_ok {i : Nat} {new : Bool} (h : t.addToTail b i = .ok (new, t')) :
    ∃ hb : b.index < t.tails.size, new = !t.tails[b.index].contains i ∧ t'.heads = t.heads ∧
      t'.tails = t.tails.set b.index (t.tails[b.index].insert i) := by
  unfold addToTail at h
  split at h
  · rename_i hb
    cases h
    exact ⟨hb, rfl, rfl, rfl⟩
  · cases h

theorem mem_tailAt_of_set {k i : Nat} (hk : k < t.tails.size)
    (h : t'.tails = t.tails.set k (t.tails[k].insert i)) (j x : Nat) :
    x ∈ t'.tailAt j ↔ x ∈ t.tailAt j ∨ j = k ∧ x = i := by
  unfold tailAt
  rw [h, Array.getElem?_set]
  by_cases hj : k = j
  · subst hj
    simp only [if_true, Option.getD_some, Std.ExtTreeSet.mem_insert, Nat.compare_eq_eq, hk,
      getElem?_pos, true_and]
    rw [or_comm, eq_comm]
  · rw [if_neg hj]
    constructor
    · exact .inl
    · rintro (hx | ⟨rfl, -⟩)
      · exact hx
      · exact absurd rfl hj

theorem extendHead_eq_ok {is : List Nat} (h : t.extendHead b is = .ok t') :
    ∃ hb : b.index < t.heads.size, t'.tails = t.tails ∧
      t'.heads = t.heads.set b.index (t.heads[b.index] ++ is) := by
  unfold extendHead at h
  split at h
  · rename_i hb
    split at h
    · cases h
    · cases h
      exact ⟨hb, rfl, rfl⟩
  · cases h

theorem exists_extendHead {is : List Nat} (hb : b.index < t.heads.size)
    (h : ∀ i ∈ is, i ∉ t.headAt b.index) : ∃ t', t.extendHead b is = .ok t' := by
  have hany : is.any (t.heads[b.index].contains ·) = false := by
    rw [List.any_eq_false]
    intro i hi
    have := h i hi
    simpa [headAt, hb] using this
  exact ⟨_, by rw [extendHead, dif_pos hb, hany]; rfl⟩

end Tables

namespace Propagation

/-! ## Reading a state -/

/-- The tail of the block at a position. -/
def tailAt (p : Propagation) (k : Nat) : Indices := p.tables.tailAt k

/-- What is recorded at the head of the block at a position. -/
def headAt (p : Propagation) (k : Nat) : List Nat := p.tables.headAt k

def dirtyAt (p : Propagation) (k : Nat) : Bool := p.dirty[k]?.getD false

theorem total_replicate {α : Type} (f : α → Nat) (n : Nat) (a : α) :
    total f (.replicate n a) = n * f a := by
  induction n with
  | zero => simp [total]
  | succ n ih =>
    rw [List.replicate_succ, total, ih, Nat.succ_mul]
    omega

theorem total_map {α : Type} (f : α → Nat) (as : List α) : total id (as.map f) = total f as := by
  induction as with
  | nil => rfl
  | cons a as ih => rw [List.map_cons, total, total, ih, id]

theorem total_le {α : Type} {f : α → Nat} {n : Nat} {as : List α} (h : ∀ a ∈ as, f a ≤ n) :
    total f as ≤ as.length * n := by
  induction as with
  | nil => simp [total]
  | cons a as ih =>
    have ha := h a (by simp)
    have has := ih fun a' ha' => h a' (by simp [ha'])
    simp only [total, List.length_cons, Nat.succ_mul]
    omega

/-- How many entries are recorded at the heads of all blocks. -/
def recorded (p : Propagation) : Nat := total List.length p.tables.heads.toList

def weight (c : Code) (u : Universe) (p : Propagation) : Nat :=
  p.dirty.count true + p.room c u

variable {c : Code} {u : Universe} {p q r : Propagation}

theorem dirty_eq_ok {k : Nat} {d : Bool} (h : entry p.dirty k = .ok d) :
    k < p.dirty.size ∧ d = p.dirtyAt k := by
  unfold entry at h
  unfold dirtyAt
  cases hd : p.dirty[k]? with
  | none => simp [hd] at h
  | some d' => exact ⟨(Array.getElem?_eq_some_iff.mp hd).1, by simpa [hd] using h.symm⟩

theorem lt_of_dirtyAt {k : Nat} (h : p.dirtyAt k = true) : k < p.dirty.size := by
  unfold dirtyAt at h
  cases hd : p.dirty[k]? with
  | none => simp [hd] at h
  | some d => exact (Array.getElem?_eq_some_iff.mp hd).1

theorem lt_of_mem_tailAt {k x : Nat} (h : x ∈ p.tailAt k) : k < p.tables.tails.size := by
  apply Classical.byContradiction
  intro hk
  rw [tailAt, Tables.tailAt, Array.getElem?_eq_none (Nat.le_of_not_lt hk)] at h
  exact Std.ExtTreeSet.not_mem_empty h

theorem lt_of_mem_headAt {k x : Nat} (h : x ∈ p.headAt k) : k < p.tables.heads.size := by
  apply Classical.byContradiction
  intro hk
  rw [headAt, Tables.headAt, Array.getElem?_eq_none (Nat.le_of_not_lt hk)] at h
  cases h

/-! ## Pushing -/

/-- Indices were given to tails, and nothing else happened: a block is dirty if it was or if its tail
grew, and the sweep has made a change if it had or if a clean block became dirty. -/
structure Grown (c : Code) (u : Universe) (given : Nat → Nat → Prop) (p q : Propagation) : Prop where
  heads : q.tables.heads = p.tables.heads
  scratch : q.scratch = p.scratch
  stats : q.stats = p.stats
  visits : q.visits = p.visits
  tails_size : q.tables.tails.size = p.tables.tails.size
  dirty_size : q.dirty.size = p.dirty.size
  tail : ∀ k x, x ∈ q.tailAt k ↔ x ∈ p.tailAt k ∨ given k x
  dirty : ∀ k, q.dirtyAt k = true ↔ p.dirtyAt k = true ∨ ∃ x, x ∈ q.tailAt k ∧ x ∉ p.tailAt k
  changed : q.changed = true ↔ p.changed = true ∨ ∃ k, q.dirtyAt k = true ∧ p.dirtyAt k = false
  weight : (∀ k x, given k x → x < u.size c) → q.weight c u ≤ p.weight c u

theorem Grown.refl (p : Propagation) : Grown c u (fun _ _ => False) p p where
  heads := rfl
  scratch := rfl
  stats := rfl
  visits := rfl
  tails_size := rfl
  dirty_size := rfl
  tail := by simp
  dirty := by simp
  changed := by simp
  weight := fun _ => Nat.le_refl _

theorem Grown.congr {given given' : Nat → Nat → Prop} (h : Grown c u given p q)
    (hg : ∀ k x, given k x ↔ given' k x) : Grown c u given' p q := by
  have : given = given' := funext fun k => funext fun x => propext (hg k x)
  exact this ▸ h

theorem Grown.trans {given given' : Nat → Nat → Prop} (hpq : Grown c u given p q)
    (hqr : Grown c u given' q r) : Grown c u (fun k x => given k x ∨ given' k x) p r where
  heads := hqr.heads.trans hpq.heads
  scratch := hqr.scratch.trans hpq.scratch
  stats := hqr.stats.trans hpq.stats
  visits := hqr.visits.trans hpq.visits
  tails_size := hqr.tails_size.trans hpq.tails_size
  dirty_size := hqr.dirty_size.trans hpq.dirty_size
  tail := by
    intro k x
    rw [hqr.tail, hpq.tail, or_assoc]
  dirty := by
    intro k
    rw [hqr.dirty, hpq.dirty]
    constructor
    · rintro ((h | ⟨x, hx, hn⟩) | ⟨x, hx, hn⟩)
      · exact .inl h
      · exact .inr ⟨x, (hqr.tail k x).mpr (.inl hx), hn⟩
      · exact .inr ⟨x, hx, fun h => hn ((hpq.tail k x).mpr (.inl h))⟩
    · rintro (h | ⟨x, hx, hn⟩)
      · exact .inl (.inl h)
      · by_cases hq : x ∈ q.tailAt k
        · exact .inl (.inr ⟨x, hq, hn⟩)
        · exact .inr ⟨x, hx, hq⟩
  changed := by
    have hmono (k : Nat) (h : q.dirtyAt k = true) : r.dirtyAt k = true := (hqr.dirty k).mpr (.inl h)
    rw [hqr.changed, hpq.changed]
    constructor
    · rintro ((h | ⟨k, hk, hn⟩) | ⟨k, hk, hn⟩)
      · exact .inl h
      · exact .inr ⟨k, hmono k hk, hn⟩
      · refine .inr ⟨k, hk, ?_⟩
        rw [Bool.eq_false_iff]
        intro hp
        rw [(hpq.dirty k).mpr (.inl hp)] at hn
        cases hn
    · rintro (h | ⟨k, hk, hn⟩)
      · exact .inl (.inl h)
      · cases hq : q.dirtyAt k with
        | true => exact .inl (.inr ⟨k, hq, hn⟩)
        | false => exact .inr ⟨k, hk, hq⟩
  weight := fun h => Nat.le_trans (hqr.weight fun k x hx => h k x (.inr hx))
    (hpq.weight fun k x hx => h k x (.inl hx))

theorem dirtyAt_of_set {k : Nat} {d : Bool} (hk : k < p.dirty.size)
    (h : q.dirty = p.dirty.setIfInBounds k d) (j : Nat) :
    q.dirtyAt j = if j = k then d else p.dirtyAt j := by
  unfold dirtyAt
  rw [h, Array.getElem?_setIfInBounds]
  by_cases hj : k = j
  · subst hj
    simp [hk]
  · rw [if_neg hj, if_neg (Ne.symm hj)]

theorem count_dirty_of_set {k : Nat} {d : Bool} (hk : k < p.dirty.size)
    (h : q.dirty = p.dirty.setIfInBounds k d) :
    q.dirty.count true + (p.dirtyAt k).toNat = p.dirty.count true + d.toNat := by
  have hget : p.dirty[k] = p.dirtyAt k := by simp [dirtyAt, hk]
  rw [h, Array.setIfInBounds, dif_pos hk, Array.count_set hk, hget]
  cases hd : p.dirtyAt k with
  | true =>
    have hpos : 0 < p.dirty.count true := by
      rw [Array.count_pos_iff, ← hd, ← hget]
      exact Array.getElem_mem hk
    cases d <;> simp <;> omega
  | false => cases d <;> simp

/-- What a push does to the tables, whether or not the index is new to the tail. -/
structure Pushed (b : BlockId) (i : Nat) (p q : Propagation) : Prop where
  row : b.index < p.tables.tails.size
  tails : q.tables.tails = p.tables.tails.set b.index (p.tables.tails[b.index].insert i)
  heads : q.tables.heads = p.tables.heads
  scratch : q.scratch = p.scratch
  stats : q.stats = p.stats
  visits : q.visits = p.visits

variable {b : BlockId} {i : Nat}

theorem tailAt_of_lt {k : Nat} (hk : k < p.tables.tails.size) : p.tailAt k = p.tables.tails[k] := by
  simp [tailAt, Tables.tailAt, hk]

theorem Pushed.tails_size (h : Pushed b i p q) : q.tables.tails.size = p.tables.tails.size := by
  simp [h.tails]

theorem Pushed.tail (h : Pushed b i p q) (k x : Nat) :
    x ∈ q.tailAt k ↔ x ∈ p.tailAt k ∨ k = b.index ∧ x = i :=
  Tables.mem_tailAt_of_set h.row h.tails k x

theorem Pushed.room (h : Pushed b i p q) :
    q.room c u + roomFor (u.size c) (p.tailAt b.index) =
      p.room c u + roomFor (u.size c) ((p.tailAt b.index).insert i) := by
  have := total_set (roomFor (u.size c)) p.tables.tails.toList b.index (by simpa using h.row)
    ((p.tailAt b.index).insert i)
  simpa [Propagation.room, h.tails, tailAt_of_lt h.row] using this

/-- A push of an index that is new to the tail makes the block dirty. -/
theorem push_cases (h : p.push b i = .ok q) : Pushed b i p q ∧
    (i ∈ p.tailAt b.index ∧ q.dirty = p.dirty ∧ q.changed = p.changed ∨
      i ∉ p.tailAt b.index ∧ b.index < p.dirty.size ∧
        q.dirty = p.dirty.setIfInBounds b.index true ∧
        q.changed = (p.changed || !p.dirtyAt b.index)) := by
  unfold push at h
  obtain ⟨⟨new, tables⟩, ht, h⟩ := bind_eq_ok.mp h
  obtain ⟨hb, hnew, hheads, htails⟩ := Tables.addToTail_eq_ok ht
  have hmem : new = false ↔ i ∈ p.tailAt b.index := by
    simp [hnew, tailAt_of_lt hb]
  dsimp only at h
  cases new with
  | false =>
    cases h
    exact ⟨⟨hb, htails, hheads, rfl, rfl, rfl⟩, .inl ⟨hmem.mp rfl, rfl, rfl⟩⟩
  | true =>
    obtain ⟨d, hd, h⟩ := bind_eq_ok.mp h
    obtain ⟨hlt, rfl⟩ := dirty_eq_ok hd
    cases h
    have hout : i ∉ p.tailAt b.index := fun hin => by cases hmem.mpr hin
    exact ⟨⟨hb, htails, hheads, rfl, rfl, rfl⟩, .inr ⟨hout, hlt, rfl, rfl⟩⟩

theorem size_of_push (h : p.push b i = .ok q) :
    q.tables.tails.size = p.tables.tails.size ∧ q.dirty.size = p.dirty.size := by
  obtain ⟨hp, ⟨-, hd, -⟩ | ⟨-, -, hd, -⟩⟩ := push_cases h
  · exact ⟨hp.tails_size, by rw [hd]⟩
  · exact ⟨hp.tails_size, by simp [hd]⟩

theorem Pushed.grown_of_mem (h : Pushed b i p q) (hin : i ∈ p.tailAt b.index)
    (hd : q.dirty = p.dirty) (hc : q.changed = p.changed) :
    Grown c u (fun k x => k = b.index ∧ x = i) p q := by
  have hsame : ∀ k x, x ∈ q.tailAt k → x ∈ p.tailAt k := by
    intro k x hx
    rcases (h.tail k x).mp hx with hx | ⟨rfl, rfl⟩
    · exact hx
    · exact hin
  have hdirty (k : Nat) : q.dirtyAt k = p.dirtyAt k := by rw [dirtyAt, hd, dirtyAt]
  refine ⟨h.heads, h.scratch, h.stats, h.visits, h.tails_size, by rw [hd], h.tail, fun k => ?_, ?_,
    fun _ => ?_⟩
  · rw [hdirty]
    constructor
    · exact .inl
    · rintro (hk | ⟨x, hx, hn⟩)
      · exact hk
      · exact absurd (hsame k x hx) hn
  · rw [hc]
    constructor
    · exact .inl
    · rintro (hp | ⟨k, hk, hn⟩)
      · exact hp
      · rw [hdirty, hn] at hk
        cases hk
  · have hroom := h.room (c := c) (u := u)
    have hle := roomFor_insert_le (u.size c) (p.tailAt b.index) i
    simp only [weight, hd]
    omega

theorem Pushed.grown_of_not_mem (h : Pushed b i p q) (hout : i ∉ p.tailAt b.index)
    (hlt : b.index < p.dirty.size) (hd : q.dirty = p.dirty.setIfInBounds b.index true)
    (hc : q.changed = (p.changed || !p.dirtyAt b.index)) :
    Grown c u (fun k x => k = b.index ∧ x = i) p q := by
  have hdirty := dirtyAt_of_set hlt hd
  refine ⟨h.heads, h.scratch, h.stats, h.visits, h.tails_size, by simp [hd], h.tail, fun k => ?_, ?_,
    fun hbelow => ?_⟩
  · rw [hdirty]
    by_cases hk : k = b.index
    · subst hk
      rw [if_pos rfl]
      exact ⟨fun _ => .inr ⟨i, (h.tail _ i).mpr (.inr ⟨rfl, rfl⟩), hout⟩, fun _ => rfl⟩
    · rw [if_neg hk]
      constructor
      · exact .inl
      · rintro (hp | ⟨x, hx, hn⟩)
        · exact hp
        · rcases (h.tail k x).mp hx with hx | ⟨rfl, -⟩
          · exact absurd hx hn
          · exact absurd rfl hk
  · rw [hc, Bool.or_eq_true, Bool.not_eq_true']
    constructor
    · rintro (hp | hp)
      · exact .inl hp
      · exact .inr ⟨b.index, by rw [hdirty, if_pos rfl], hp⟩
    · rintro (hp | ⟨k, hk, hn⟩)
      · exact .inl hp
      · rw [hdirty] at hk
        split at hk
        · rename_i hkb
          exact .inr (hkb ▸ hn)
        · rw [hn] at hk
          cases hk
  · have hcount := count_dirty_of_set hlt hd
    have hroom := h.room (c := c) (u := u)
    have hnew : (p.tailAt b.index).contains i = false := by
      rw [Bool.eq_false_iff]
      exact fun h => hout (Std.ExtTreeSet.mem_iff_contains.mpr h)
    have hless := roomFor_insert_lt (hbelow b.index i ⟨rfl, rfl⟩) hnew
    have hone : (true : Bool).toNat = 1 := rfl
    simp only [weight]
    omega

theorem grown_of_push (h : p.push b i = .ok q) :
    Grown c u (fun k x => k = b.index ∧ x = i) p q := by
  obtain ⟨hp, ⟨hin, hd, hc⟩ | ⟨hout, hlt, hd, hc⟩⟩ := push_cases h
  · exact hp.grown_of_mem hin hd hc
  · exact hp.grown_of_not_mem hout hlt hd hc

theorem exists_push (ht : b.index < p.tables.tails.size)
    (hd : b.index < p.dirty.size) : ∃ q, p.push b i = .ok q := by
  unfold push Tables.addToTail
  rw [dif_pos ht]
  simp only [bind, Except.bind, entry_of_lt hd]
  split
  · exact ⟨_, rfl⟩
  · exact ⟨_, rfl⟩

/-! ## Pushing what was found to every predecessor -/

theorem grown_of_pushAll {found : List Nat}
    (h : found.foldlM (fun p i => p.push b i) p = .ok q) :
    Grown c u (fun k x => k = b.index ∧ x ∈ found) p q := by
  induction found generalizing p with
  | nil =>
    cases h
    exact (Grown.refl q).congr (by simp)
  | cons i found ih =>
    rw [List.foldlM_cons] at h
    obtain ⟨r, hr, h⟩ := bind_eq_ok.mp h
    exact ((grown_of_push hr).trans (ih h)).congr (by simp [and_or_left])

theorem exists_pushAll {found : List Nat} (ht : b.index < p.tables.tails.size)
    (hd : b.index < p.dirty.size) :
    ∃ q, found.foldlM (fun p i => p.push b i) p = .ok q ∧
      q.tables.tails.size = p.tables.tails.size ∧ q.dirty.size = p.dirty.size := by
  induction found generalizing p with
  | nil => exact ⟨p, rfl, rfl, rfl⟩
  | cons i found ih =>
    obtain ⟨r, hr⟩ := exists_push (i := i) ht hd
    obtain ⟨htails, hdirty⟩ := size_of_push hr
    obtain ⟨q, hq, htails', hdirty'⟩ := ih (htails ▸ ht) (hdirty ▸ hd)
    refine ⟨q, ?_, htails'.trans htails, hdirty'.trans hdirty⟩
    rw [List.foldlM_cons]
    exact bind_eq_ok.mpr ⟨r, hr, hq⟩

theorem grown_of_pushEverywhere {bs : List BlockId} {found : List Nat}
    (h : bs.foldlM (fun p b => found.foldlM (fun p i => p.push b i) p) p = .ok q) :
    Grown c u (fun k x => (∃ b ∈ bs, b.index = k) ∧ x ∈ found) p q := by
  induction bs generalizing p with
  | nil =>
    cases h
    exact (Grown.refl q).congr (by simp)
  | cons b bs ih =>
    rw [List.foldlM_cons] at h
    obtain ⟨r, hr, h⟩ := bind_eq_ok.mp h
    refine ((grown_of_pushAll hr).trans (ih h)).congr fun k x => ?_
    rw [← or_and_right]
    simp only [List.mem_cons, exists_eq_or_imp, eq_comm (a := b.index)]

theorem exists_pushEverywhere {bs : List BlockId} {found : List Nat}
    (hb : ∀ b ∈ bs, b.index < p.tables.tails.size ∧ b.index < p.dirty.size) :
    ∃ q, bs.foldlM (fun p b => found.foldlM (fun p i => p.push b i) p) p = .ok q := by
  induction bs generalizing p with
  | nil => exact ⟨p, rfl⟩
  | cons b bs ih =>
    obtain ⟨hbt, hbd⟩ := hb b (by simp)
    obtain ⟨r, hr, htails, hdirty⟩ := exists_pushAll hbt hbd
    obtain ⟨q, hq⟩ := ih (p := r) fun a ha => by
      rw [htails, hdirty]
      exact hb a (by simp [ha])
    exact ⟨q, by rw [List.foldlM_cons]; exact bind_eq_ok.mpr ⟨r, hr, hq⟩⟩

/-! ## Visiting -/

/-- A visit of a dirty block that found these indices: they are recorded at its head and given to the
tails of its predecessors. The block is clean afterwards, unless its own tail grew. -/
structure Visited (c : Code) (u : Universe) (b : Block) (found : List Nat) (p q : Propagation) :
    Prop where
  nodup : found.Nodup
  tails_size : q.tables.tails.size = p.tables.tails.size
  heads_size : q.tables.heads.size = p.tables.heads.size
  dirty_size : q.dirty.size = p.dirty.size
  scratch : q.scratch.bound = u.size c
  head : ∀ k, q.headAt k = if k = b.id.index then p.headAt k ++ found else p.headAt k
  recorded : q.recorded = p.recorded + found.length
  tail : ∀ k x, x ∈ q.tailAt k ↔
    x ∈ p.tailAt k ∨ (∃ a ∈ b.predecessors, a.index = k) ∧ x ∈ found
  dirty : ∀ k, q.dirtyAt k = true ↔
    k ≠ b.id.index ∧ p.dirtyAt k = true ∨ ∃ x, x ∈ q.tailAt k ∧ x ∉ p.tailAt k
  changed : q.changed = true ↔
    p.changed = true ∨ ∃ k, q.dirtyAt k = true ∧ (k = b.id.index ∨ p.dirtyAt k = false)
  stats : q.stats = ⟨p.stats.sweeps, p.stats.blockVisits + 1, p.stats.insertions + found.length⟩
  visits : q.visits = p.visits.push ⟨b.id, found.length⟩
  weight : q.weight c u < p.weight c u

/-- The state in which the pushing of a visit begins: the tails are the old ones, the block is clean,
and what was found is on the books. -/
structure Noted (c : Code) (u : Universe) (b : Block) (found : List Nat) (p r : Propagation) :
    Prop where
  row : b.id.index < p.tables.heads.size
  tails : r.tables.tails = p.tables.tails
  heads : r.tables.heads =
    p.tables.heads.set b.id.index (p.tables.heads[b.id.index] ++ found)
  dirty : r.dirty = p.dirty.setIfInBounds b.id.index false
  scratch : r.scratch.bound = u.size c
  changed : r.changed = p.changed
  stats : r.stats = ⟨p.stats.sweeps, p.stats.blockVisits + 1, p.stats.insertions + found.length⟩
  visits : r.visits = p.visits.push ⟨b.id, found.length⟩

section Noted

variable {b : Block} {found : List Nat}

theorem Noted.tail (h : Noted c u b found p r) (k : Nat) : r.tailAt k = p.tailAt k := by
  rw [tailAt, Tables.tailAt, h.tails, tailAt, Tables.tailAt]

theorem Noted.head (h : Noted c u b found p r) (k : Nat) :
    r.headAt k = if k = b.id.index then p.headAt k ++ found else p.headAt k := by
  unfold headAt Tables.headAt
  rw [h.heads, Array.getElem?_set]
  by_cases hk : b.id.index = k
  · subst hk
    simp [h.row]
  · rw [if_neg hk, if_neg (Ne.symm hk)]

theorem Noted.recorded (h : Noted c u b found p r) :
    r.recorded = p.recorded + found.length := by
  have hrow := h.row
  have hsum := total_set List.length p.tables.heads.toList b.id.index (by simpa using hrow)
    (p.tables.heads[b.id.index] ++ found)
  simp only [Array.getElem_toList, List.length_append] at hsum
  simp only [Propagation.recorded, h.heads, Array.toList_set]
  omega

theorem Noted.dirtyAt_eq_true (h : Noted c u b found p r) (hd : p.dirtyAt b.id.index = true)
    (k : Nat) : r.dirtyAt k = true ↔ k ≠ b.id.index ∧ p.dirtyAt k = true := by
  rw [dirtyAt_of_set (lt_of_dirtyAt hd) h.dirty]
  by_cases hk : k = b.id.index
  · simp [hk]
  · simp [hk]

theorem Noted.dirtyAt_eq_false (h : Noted c u b found p r) (hd : p.dirtyAt b.id.index = true)
    (k : Nat) : r.dirtyAt k = false ↔ k = b.id.index ∨ p.dirtyAt k = false := by
  rw [← Bool.not_eq_true, h.dirtyAt_eq_true hd, Classical.not_and_iff_not_or_not,
    Classical.not_not, Bool.not_eq_true]

theorem Noted.weight (h : Noted c u b found p r) (hd : p.dirtyAt b.id.index = true) :
    r.weight c u < p.weight c u := by
  have hcount := count_dirty_of_set (lt_of_dirtyAt hd) h.dirty
  have hroom : r.room c u = p.room c u := by rw [room, h.tails, room]
  have h1 : (true : Bool).toNat = 1 := rfl
  have h0 : (false : Bool).toNat = 0 := rfl
  rw [hd] at hcount
  simp only [Propagation.weight]
  omega

/-- Pushing what was found from there on makes the visit. -/
theorem visited_of_noted (hn : Noted c u b found p r)
    (hg : Grown c u (fun k x => (∃ a ∈ b.predecessors, a.index = k) ∧ x ∈ found) r q)
    (hnodup : found.Nodup) (hbelow : ∀ x ∈ found, x < u.size c)
    (hd : p.dirtyAt b.id.index = true) : Visited c u b found p q where
  nodup := hnodup
  tails_size := hg.tails_size.trans (congrArg Array.size hn.tails)
  heads_size := by simp [hg.heads, hn.heads]
  dirty_size := by simp [hg.dirty_size, hn.dirty]
  scratch := by rw [hg.scratch, hn.scratch]
  head := fun k => by rw [headAt, Tables.headAt, hg.heads, ← hn.head, headAt, Tables.headAt]
  recorded := by rw [Propagation.recorded, hg.heads, ← hn.recorded, Propagation.recorded]
  tail := fun k x => by rw [hg.tail, hn.tail]
  dirty := fun k => by rw [hg.dirty, hn.dirtyAt_eq_true hd, hn.tail]
  changed := by
    rw [hg.changed, hn.changed]
    simp only [hn.dirtyAt_eq_false hd]
  stats := by rw [hg.stats, hn.stats]
  visits := by rw [hg.visits, hn.visits]
  weight := Nat.lt_of_le_of_lt (hg.weight fun _ x hx => hbelow x hx.2) (hn.weight hd)

end Noted

theorem visited_of_publish {b : Block} {found : IndexSet} (hb : found.bound = u.size c)
    (hd : p.dirtyAt b.id.index = true) (h : (p.note b found).publish b found.toList = .ok q) :
    Visited c u b found.toList p q := by
  obtain ⟨t, ht, h⟩ := bind_eq_ok.mp h
  obtain ⟨hlt, htails, hheads⟩ := Tables.extendHead_eq_ok ht
  have hg := grown_of_pushEverywhere (c := c) (u := u) h
  have hbelow : ∀ x ∈ found.toList, x < u.size c := fun x hx => hb ▸ IndexSet.lt_bound hx
  have hnoted : Noted c u b found.toList p { p.note b found with tables := t } :=
    ⟨hlt, htails, hheads, rfl, hb, rfl, rfl, rfl⟩
  exact visited_of_noted hnoted hg found.nodup hbelow hd

/-- A visit leaves a clean block alone; of a dirty one it records and passes on what it finds. -/
theorem visit_cases {order : Listing} {b : Block} (h : p.visitBy c u order b = .ok q) :
    p.dirtyAt b.id.index = false ∧ q = p ∨
      ∃ found, p.dirtyAt b.id.index = true ∧ p.discover c u order b = .ok found ∧
        Visited c u b found.toList p q := by
  obtain ⟨d, hd, h⟩ := bind_eq_ok.mp h
  obtain ⟨-, rfl⟩ := dirty_eq_ok (keeping_eq_ok.mp hd)
  cases hdirty : p.dirtyAt b.id.index with
  | false =>
    rw [hdirty] at h
    cases h
    exact .inl ⟨rfl, rfl⟩
  | true =>
    rw [hdirty, if_pos rfl] at h
    obtain ⟨found, hfound, h⟩ := bind_eq_ok.mp h
    have hfound := keeping_eq_ok.mp hfound
    have h : (p.note b found).publish b found.toList = .ok q := keeping_eq_ok.mp h
    exact .inr ⟨found, rfl, hfound, visited_of_publish (bound_of_discover hfound) hdirty h⟩

theorem exists_visit {order : Listing} {b : Block} (hb : b.id.index < p.dirty.size)
    (hh : b.id.index < p.tables.heads.size)
    (hp : ∀ a ∈ b.predecessors, a.index < p.tables.tails.size ∧ a.index < p.dirty.size)
    (hf : ∃ found, p.discover c u order b = .ok found ∧
      ∀ i ∈ found.toList, i ∉ p.headAt b.id.index) :
    ∃ q, p.visitBy c u order b = .ok q := by
  obtain ⟨found, hfound, hnew⟩ := hf
  have hentry : keeping p (entry p.dirty b.id.index) = .ok p.dirty[b.id.index] :=
    keeping_eq_ok.mpr (entry_of_lt hb)
  obtain ⟨t, ht⟩ := Tables.exists_extendHead hh hnew
  have htails : t.tails.size = p.tables.tails.size := by
    obtain ⟨-, htails, -⟩ := Tables.extendHead_eq_ok ht
    exact congrArg Array.size htails
  obtain ⟨q, hq⟩ : ∃ q, b.predecessors.foldlM
      (fun p a => found.toList.foldlM (fun p i => p.push a i) p)
      { p.note b found with tables := t } = .ok q := by
    apply exists_pushEverywhere
    intro a ha
    simpa [note, htails] using hp a ha
  cases hd : p.dirty[b.id.index] with
  | false =>
    refine ⟨p, bind_eq_ok.mpr ⟨_, hentry, ?_⟩⟩
    rw [hd]
    rfl
  | true =>
    refine ⟨q, bind_eq_ok.mpr ⟨_, hentry, ?_⟩⟩
    rw [hd, if_pos rfl]
    exact bind_eq_ok.mpr ⟨found, keeping_eq_ok.mpr hfound,
      keeping_eq_ok.mpr (bind_eq_ok.mpr ⟨t, ht, hq⟩)⟩

end Propagation

end MachineLiveness
