import Mathlib.Data.List.Forall2
import MachineLiveness.Proofs.Paths

/-!
Liveness in one unit read off another. Where the uses, the steps across instructions and the steps
along edges of one unit can be followed from related points of the other, what is live at a point is
live at the points related to it (`live_of_follows`). That is so where related blocks stand side by
side, instruction by instruction (`live_of_yields`). The answers of the analysis name exactly the
entities live at a point (`exists_truthful`), so answers about two units can be compared as well.
-/

namespace MachineLiveness

theorem exists_of_forall₂ {α β : Type} {R : α → β → Prop} {xs : List α} {ys : List β}
    (h : List.Forall₂ R xs ys) {n : Nat} {x : α} (hx : xs[n]? = some x) :
    ∃ y, ys[n]? = some y ∧ R x y := by
  induction h generalizing n with
  | nil => cases hx
  | cons hr _ ih =>
    cases n with
    | zero =>
      cases hx
      exact ⟨_, rfl, hr⟩
    | succ n => exact ih hx

/-- The second instruction uses an entity where the first one does, and defines it only if the first
one does. -/
structure Inst.Yields (u : Universe) (e : u.Entity) (i i' : Inst) : Prop where
  early : e ∈ u.earlyUses i → e ∈ u.earlyUses i'
  late : e ∈ u.lateUses i → e ∈ u.lateUses i'
  define : e ∈ u.defines i' → e ∈ u.defines i

theorem Inst.Yields.refl {u : Universe} {e : u.Entity} (i : Inst) : i.Yields u e i :=
  ⟨id, id, id⟩

/-- That holds of the instructions of two blocks one by one, and every edge of the first block has a
related one in the second. -/
structure Block.Yields (u : Universe) (e : u.Entity) (rel : BlockId → BlockId → Prop)
    (b b' : Block) : Prop where
  insts : List.Forall₂ (Inst.Yields u e) b.insts.toList b'.insts.toList
  edges : ∀ s ∈ b.successors, ∃ s' ∈ b'.successors, rel s s'

/-- And that holds of every block and each one related to it in another unit. -/
def Code.YieldsAlong (u : Universe) (e : u.Entity) (rel : BlockId → BlockId → Prop)
    (c c' : Code) : Prop :=
  ∀ x x' b, rel x x' → c.blocks[x.index]? = some b →
    ∃ b', c'.blocks[x'.index]? = some b' ∧ b.Yields u e rel b'

namespace Point

variable {c c' : Code} {u : Universe} {e : u.Entity} {b : Block} {k : Nat}

/-! ## The equations that live points satisfy -/

theorem live_iff_of_lt (hc : c.WellFormed) (hb : c.blocks[k]? = some b) {i : Nat}
    (hi : i < b.insts.size) :
    Live c u e ⟨b.id, i⟩ ↔ e ∈ Cursor.lateAbove u b i ∨ e ∈ u.earlyUses b.insts[i] ∨
      e ∉ u.defines b.insts[i] ∧ Live c u e ⟨b.id, i + 1⟩ := by
  have hbelow : instBelow? c ⟨b.id, i⟩ = some b.insts[i] := by
    rw [instBelow?_eq hc hb, Array.getElem?_eq_getElem hi]
  constructor
  · rintro ⟨q, hclear, hused⟩
    cases hclear with
    | here =>
      rcases (used_iff hc hb).mp hused with ⟨inst, hinst, he⟩ | he
      · rw [Array.getElem?_eq_getElem hi] at hinst
        cases hinst
        exact .inr (.inl he)
      · exact .inl he
    | across hinst hd rest =>
      rw [hbelow] at hinst
      cases hinst
      exact .inr (.inr ⟨hd, q, rest, hused⟩)
    | along ha ht =>
      rw [hc.block_id hb, hb] at ha
      cases ha
      exact absurd ht (Nat.ne_of_lt hi)
  · rintro (he | he | ⟨hd, hlive⟩)
    · exact live_of_used ((used_iff hc hb).mpr (.inr he))
    · exact live_of_used (.inl ⟨_, hbelow, he⟩)
    · exact live_of_below hc hb hi hd hlive

theorem live_tail_iff (hc : c.WellFormed) (hb : c.blocks[k]? = some b) :
    Live c u e ⟨b.id, b.insts.size⟩ ↔ e ∈ Cursor.lateAbove u b b.insts.size ∨
      ∃ s ∈ b.successors, Live c u e ⟨s, 0⟩ := by
  have hbelow : instBelow? c ⟨b.id, b.insts.size⟩ = none := by
    simp [instBelow?_eq hc hb]
  constructor
  · rintro ⟨q, hclear, hused⟩
    cases hclear with
    | here =>
      rcases (used_iff hc hb).mp hused with ⟨inst, hinst, -⟩ | he
      · simp at hinst
      · exact .inl he
    | across hinst =>
      rw [hbelow] at hinst
      cases hinst
    | along ha ht hs rest =>
      rw [hc.block_id hb, hb] at ha
      cases ha
      exact .inr ⟨_, hs, q, rest, hused⟩
  · rintro (he | ⟨s, hs, hlive⟩)
    · exact live_of_used ((used_iff hc hb).mpr (.inr he))
    · exact live_of_successor hc hb hs hlive

/-! ## Following a path in another unit -/

variable (c c' u e) in
/-- From related points, a use in the first unit leads to a use in the second, and a clear step to a
clear path that ends at related points again. -/
structure Follows (rel : Point → Point → Prop) : Prop where
  early : ∀ p p' i, rel p p' → p.instBelow? c = some i → e ∈ u.earlyUses i → Live c' u e p'
  late : ∀ x n p' i, rel ⟨x, n + 1⟩ p' → instBelow? c ⟨x, n⟩ = some i → e ∈ u.lateUses i →
    Live c' u e p'
  across : ∀ p p' i, rel p p' → p.instBelow? c = some i → e ∉ u.defines i →
    ∃ q', rel ⟨p.block, p.pos + 1⟩ q' ∧ Clear c' u e p' q'
  along : ∀ p p' b s, rel p p' → c.blocks[p.block.index]? = some b → p.pos = b.insts.size →
    s ∈ b.successors → ∃ q', rel ⟨s, 0⟩ q' ∧ Clear c' u e p' q'

theorem Follows.live_of_used {rel : Point → Point → Prop} (h : Follows c c' u e rel)
    {p p' : Point} (hrel : rel p p') (hused : Used c u e p) : Live c' u e p' := by
  obtain ⟨x, n⟩ := p
  rcases hused with ⟨i, hi, he⟩ | ⟨i, hi, he⟩
  · exact h.early _ p' i hrel hi he
  · cases n with
    | zero => cases hi
    | succ n => exact h.late x n p' i hrel hi he

/-- What is live at a point is live at the points related to it. -/
theorem live_of_follows {rel : Point → Point → Prop} (h : Follows c c' u e rel) {p p' : Point}
    (hrel : rel p p') (hlive : Live c u e p) : Live c' u e p' := by
  obtain ⟨q, hclear, hused⟩ := hlive
  -- The related point moves along with the path.
  induction hclear generalizing p' with
  | here => exact h.live_of_used hrel hused
  | across hi hd _ ih =>
    obtain ⟨q', hrel, hclear⟩ := h.across _ p' _ hrel hi hd
    exact (ih hrel hused).of_clear hclear
  | along hb ht hs _ ih =>
    obtain ⟨q', hrel, hclear⟩ := h.along _ p' _ _ hrel hb ht hs
    exact (ih hrel hused).of_clear hclear

/-! ## Blocks side by side -/

section

variable {rel : BlockId → BlockId → Prop}

theorem exists_instBelow?_of_yields (h : c.YieldsAlong u e rel c') {x x' : BlockId}
    (hx : rel x x') {n : Nat} {i : Inst} (hi : instBelow? c ⟨x, n⟩ = some i) :
    ∃ i', instBelow? c' ⟨x', n⟩ = some i' ∧ i.Yields u e i' := by
  obtain ⟨b, hb, hi⟩ := Option.bind_eq_some_iff.mp hi
  obtain ⟨b', hb', hyields⟩ := h x x' b hx hb
  rw [← Array.getElem?_toList] at hi
  obtain ⟨i', hi', hy⟩ := exists_of_forall₂ hyields.insts hi
  rw [Array.getElem?_toList] at hi'
  exact ⟨i', Option.bind_eq_some_iff.mpr ⟨b', hb', hi'⟩, hy⟩

theorem follows_of_yields (h : c.YieldsAlong u e rel c') :
    Follows c c' u e fun p p' => rel p.block p'.block ∧ p.pos = p'.pos where
  early := by
    rintro ⟨x, n⟩ ⟨x', _⟩ i ⟨hx, rfl⟩ hi he
    obtain ⟨i', hi', hy⟩ := exists_instBelow?_of_yields h hx hi
    exact live_of_used (.inl ⟨i', hi', hy.early he⟩)
  late := by
    rintro x n ⟨x', _⟩ i ⟨hx, rfl⟩ hi he
    obtain ⟨i', hi', hy⟩ := exists_instBelow?_of_yields h hx hi
    exact live_of_used (.inr ⟨i', hi', hy.late he⟩)
  across := by
    rintro ⟨x, n⟩ ⟨x', _⟩ i ⟨hx, rfl⟩ hi hd
    obtain ⟨i', hi', hy⟩ := exists_instBelow?_of_yields h hx hi
    exact ⟨⟨x', n + 1⟩, ⟨hx, rfl⟩, .across hi' (mt hy.define hd) (.here _)⟩
  along := by
    rintro ⟨x, n⟩ ⟨x', _⟩ b s ⟨hx, rfl⟩ hb ht hs
    obtain ⟨b', hb', hyields⟩ := h x x' b hx hb
    obtain ⟨s', hs', hss'⟩ := hyields.edges s hs
    have hsize : b.insts.size = b'.insts.size := hyields.insts.length_eq
    exact ⟨⟨s', 0⟩, ⟨hss', rfl⟩, .along hb' (ht.trans hsize) hs' (.here _)⟩

/-- What is live in a block is live at the same place of a related one. -/
theorem live_of_yields (h : c.YieldsAlong u e rel c') {x x' : BlockId} (hx : rel x x') {n : Nat}
    (hlive : Live c u e ⟨x, n⟩) : Live c' u e ⟨x', n⟩ := by
  refine live_of_follows (follows_of_yields h) ?_ hlive
  exact ⟨hx, rfl⟩

end

end Point

namespace Liveness

/-! ## Answers -/

section

variable {α : Type} {x y : Except Fault (List α)} {P Q : α → Prop} {a : α}

/-- An answer that lists exactly what has a property. -/
def Gives (x : Except Fault (List α)) (P : α → Prop) : Prop :=
  ∃ as, x = .ok as ∧ ∀ a, a ∈ as ↔ P a

/-- An answer that lists something. -/
def Names (x : Except Fault (List α)) (a : α) : Prop := ∃ as, x = .ok as ∧ a ∈ as

/-- Two answers that list the same. -/
def Agree (x y : Except Fault (List α)) : Prop :=
  ∃ as bs, x = .ok as ∧ y = .ok bs ∧ ∀ a, a ∈ as ↔ a ∈ bs

theorem Gives.names_iff (h : Gives x P) : Names x a ↔ P a := by
  obtain ⟨as, rfl, hmem⟩ := h
  rw [← hmem]
  constructor
  · rintro ⟨bs, hbs, ha⟩
    cases hbs
    exact ha
  · exact fun ha => ⟨as, rfl, ha⟩

theorem Gives.agree (hx : Gives x P) (hy : Gives y Q) (h : ∀ a, P a ↔ Q a) : Agree x y := by
  obtain ⟨as, has, hmem⟩ := hx
  obtain ⟨bs, hbs, hmem'⟩ := hy
  exact ⟨as, bs, has, hbs, fun a => by rw [hmem, hmem', h]⟩

end

variable {u : Universe} {c c' : Code} {l l' : Liveness u}

/-- A result whose answers at the tails of all blocks and at every place inside list exactly what is
live there. -/
structure Truthful (c : Code) (l : Liveness u) : Prop where
  atTail : ∀ (k : Nat) (b : Block), c.blocks[k]? = some b →
    Gives (l.atTail b.id) fun e => Point.Live c u e ⟨b.id, b.insts.size⟩
  above : ∀ (k : Nat) (b : Block) (i : Nat), c.blocks[k]? = some b → i ≤ b.insts.size →
    Gives (l.above b i) fun e => Point.Live c u e ⟨b.id, i⟩

theorem exists_truthful {d : Draft} (u : Universe) (h : d.finish = .ok c) :
    ∃ l, compute c u = .ok l ∧ Truthful c l := by
  have hc := Draft.wellFormed_of_finish h
  have hs := Draft.slots_le_of_finish h
  obtain ⟨q, hq, hconsistent, -, hleast⟩ := Propagation.exists_least_run (u := u) hc
  have hwithin := Propagation.within_of_consistent hconsistent
  refine ⟨ofRun c u q, map_eq_ok.mpr ⟨q, faultOnly_eq_ok.mpr hq, rfl⟩, ?_, ?_⟩
  · intro k b hb
    obtain ⟨es, hes, hlists⟩ := exists_atTail hc hs hconsistent hb
    refine ⟨es, hes, lists_iff_live hc hleast hwithin hb (Nat.le_refl _) ?_⟩
    rw [Cursor.liveAt_size]
    exact hlists
  · intro k b i hb hi
    obtain ⟨es, hes, hlists⟩ := exists_above hc hs hconsistent hb hi
    exact ⟨es, hes, lists_iff_live hc hleast hwithin hb hi hlists⟩

theorem Truthful.atHead (h : Truthful c l) {k : Nat} {b : Block} (hb : c.blocks[k]? = some b) :
    Gives (l.atHead b) fun e => Point.Live c u e ⟨b.id, 0⟩ :=
  h.above k b 0 hb (Nat.zero_le _)

/-- The answers about all of a block are those about another block of as many instructions. -/
structure SameAt (l l' : Liveness u) (b b' : Block) : Prop where
  atTail : Agree (l.atTail b.id) (l'.atTail b'.id)
  atHead : Agree (l.atHead b) (l'.atHead b')
  above : ∀ i ≤ b.insts.size, Agree (l.above b i) (l'.above b' i)

theorem Truthful.sameAt (hl : Truthful c l) (hl' : Truthful c' l') {j k : Nat} {b b' : Block}
    (hb : c.blocks[j]? = some b) (hb' : c'.blocks[k]? = some b')
    (hsize : b'.insts.size = b.insts.size)
    (hlive : ∀ e i, Point.Live c u e ⟨b.id, i⟩ ↔ Point.Live c' u e ⟨b'.id, i⟩) :
    SameAt l l' b b' where
  atTail := (hl.atTail j b hb).agree (hl'.atTail k b' hb') fun e => by rw [hlive, hsize]
  atHead := (hl.atHead hb).agree (hl'.atHead hb') fun e => hlive e 0
  above := fun i hi =>
    (hl.above j b i hb hi).agree (hl'.above k b' i hb' (hsize ▸ hi)) fun e => hlive e i

end Liveness

end MachineLiveness
