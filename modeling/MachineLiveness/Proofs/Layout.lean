import MachineLiveness.Proofs.Follow

/-!
Where the blocks of a unit stand, how often each occurs and in which order its arms are written does
not matter. A map of blocks that keeps the instructions and takes the edges to the edges is followed
by paths forth and back, also when it takes several blocks to one; so the answers about a block and
about its image are the same.
-/

namespace MachineLiveness

/-- The second block has the instructions of the first, and its edges lead to the images of where
those of the first lead. -/
structure Block.Mirrors (φ : BlockId → BlockId) (b b' : Block) : Prop where
  insts : b'.insts = b.insts
  forth : ∀ s ∈ b.successors, φ s ∈ b'.successors
  back : ∀ t ∈ b'.successors, ∃ s ∈ b.successors, φ s = t

/-- A set of blocks of one unit that no edge leaves, and a map to the blocks of another unit under
which each block has its mirror image. -/
structure Code.Carries (c c' : Code) (R : BlockId → Prop) (φ : BlockId → BlockId) : Prop where
  exist : ∀ x, R x → ∃ b, c.blocks[x.index]? = some b
  closed : ∀ x b s, R x → c.blocks[x.index]? = some b → s ∈ b.successors → R s
  images : ∀ x b, R x → c.blocks[x.index]? = some b →
    ∃ b', c'.blocks[(φ x).index]? = some b' ∧ b.Mirrors φ b'

theorem Block.mirrors_iff {φ : BlockId → BlockId} {b b' : Block} :
    b.Mirrors φ b' ↔ b'.insts = b.insts ∧ (∀ s ∈ b.successors, φ s ∈ b'.successors) ∧
      ∀ t ∈ b'.successors, ∃ s ∈ b.successors, φ s = t :=
  ⟨fun h => ⟨h.insts, h.forth, h.back⟩, fun ⟨hi, hf, hb⟩ => ⟨hi, hf, hb⟩⟩

instance (φ : BlockId → BlockId) (b b' : Block) : Decidable (b.Mirrors φ b') :=
  decidable_of_iff _ Block.mirrors_iff.symm

/-- Over a list of blocks there is a finite number of things to look at. -/
theorem Code.carries_iff {c c' : Code} {xs : List BlockId} {φ : BlockId → BlockId} :
    c.Carries c' (· ∈ xs) φ ↔ ∀ x ∈ xs, ∃ b ∈ c.blocks[x.index]?,
      (∀ s ∈ b.successors, s ∈ xs) ∧ ∃ b' ∈ c'.blocks[(φ x).index]?, b.Mirrors φ b' := by
  constructor
  · intro h x hx
    obtain ⟨b, hb⟩ := h.exist x hx
    exact ⟨b, hb, fun s hs => h.closed x b s hx hb hs, h.images x b hx hb⟩
  · intro h
    refine ⟨fun x hx => ?_, fun x b s hx hb => ?_, fun x b hx hb => ?_⟩
    all_goals obtain ⟨a, ha, hclosed, himage⟩ := h x hx
    · exact ⟨a, ha⟩
    · cases ha.symm.trans hb
      exact hclosed s
    · cases ha.symm.trans hb
      exact himage

instance (c c' : Code) (xs : List BlockId) (φ : BlockId → BlockId) :
    Decidable (c.Carries c' (· ∈ xs) φ) :=
  decidable_of_iff _ Code.carries_iff.symm

variable {c c' : Code} {u : Universe} {e : u.Entity} {R : BlockId → Prop}
  {φ : BlockId → BlockId}

namespace Code.Carries

theorem insts_yield {b b' : Block} (h : b'.insts = b.insts) :
    List.Forall₂ (Inst.Yields u e) b.insts.toList b'.insts.toList := by
  rw [h, List.forall₂_same]
  exact fun i _ => .refl i

theorem forth (h : c.Carries c' R φ) : c.YieldsAlong u e (fun x x' => R x ∧ x' = φ x) c' := by
  rintro x _ b ⟨hx, rfl⟩ hb
  obtain ⟨b', hb', hm⟩ := h.images x b hx hb
  refine ⟨b', hb', insts_yield hm.insts, fun s hs => ?_⟩
  exact ⟨φ s, hm.forth s hs, h.closed x b s hx hb hs, rfl⟩

/-- Back from an image to each block that it is the image of. -/
theorem back (h : c.Carries c' R φ) : c'.YieldsAlong u e (fun x' x => R x ∧ x' = φ x) c := by
  rintro _ x b' ⟨hx, rfl⟩ hb'
  obtain ⟨b, hb⟩ := h.exist x hx
  obtain ⟨a, ha, hm⟩ := h.images x b hx hb
  obtain rfl : a = b' := Option.some.inj (ha.symm.trans hb')
  refine ⟨b, hb, insts_yield hm.insts.symm, fun t ht => ?_⟩
  obtain ⟨s, hs, rfl⟩ := hm.back t ht
  exact ⟨s, hs, h.closed x b s hx hb hs, rfl⟩

theorem live_iff (h : c.Carries c' R φ) {x : BlockId} (hx : R x) (n : Nat) :
    Point.Live c u e ⟨x, n⟩ ↔ Point.Live c' u e ⟨φ x, n⟩ :=
  ⟨Point.live_of_yields h.forth ⟨hx, rfl⟩, Point.live_of_yields h.back ⟨hx, rfl⟩⟩

end Code.Carries

namespace Liveness

/-- Two finished units and a map of blocks that keeps instructions and edges: whatever is asked of a
block has the same answer for its image, in every universe. -/
theorem carried_alike {d d' : Draft} (u : Universe) (h : d.finish = .ok c)
    (h' : d'.finish = .ok c') (hφ : c.Carries c' R φ) :
    ∃ l l' : Liveness u, compute c u = .ok l ∧ compute c' u = .ok l' ∧
      ∀ x, R x → ∃ b b', c.blocks[x.index]? = some b ∧ c'.blocks[(φ x).index]? = some b' ∧
        SameAt l l' b b' := by
  obtain ⟨l, hl, htrue⟩ := exists_truthful u h
  obtain ⟨l', hl', htrue'⟩ := exists_truthful u h'
  refine ⟨l, l', hl, hl', fun x hx => ?_⟩
  obtain ⟨b, hb⟩ := hφ.exist x hx
  obtain ⟨b', hb', hm⟩ := hφ.images x b hx hb
  have hid : b.id = x := BlockId.index_inj.mp ((Draft.wellFormed_of_finish h).block_id hb)
  have hid' : b'.id = φ x := BlockId.index_inj.mp ((Draft.wellFormed_of_finish h').block_id hb')
  refine ⟨b, b', hb, hb', htrue.sameAt htrue' hb hb' (by rw [hm.insts]) fun e i => ?_⟩
  rw [hid, hid']
  exact hφ.live_iff hx i

/-- The sample with its inner loop unrolled once and the arms of two branches exchanged, after a
block that nothing leads to. -/
def unrolled : Draft :=
  let insts (n : Nat) : Array Inst := (Draft.sample.blocks[n]?.map (·.insts)).getD #[]
  { Draft.sample with
    blocks := #[⟨insts 1, [⟨2⟩, ⟨4⟩]⟩, ⟨insts 0, [⟨2⟩]⟩, ⟨insts 1, [⟨3⟩, ⟨4⟩]⟩,
      ⟨insts 1, [⟨4⟩, ⟨2⟩]⟩, ⟨insts 2, [⟨5⟩, ⟨1⟩]⟩, ⟨insts 3, []⟩]
    blocks_le := by decide }

/-- Where the blocks of `unrolled` come from. -/
def unrolledFrom (x : BlockId) : BlockId :=
  match x.num with
  | 1 => ⟨0⟩
  | 2 | 3 => ⟨1⟩
  | 4 => ⟨2⟩
  | _ => ⟨3⟩

theorem carries_unrolled : unrolled.freeze.Carries Draft.sample.freeze
    (· ∈ [⟨1⟩, ⟨2⟩, ⟨3⟩, ⟨4⟩, ⟨5⟩]) unrolledFrom := by
  decide +kernel

theorem carried_alike_unrolled : unrolled.finish = .ok unrolled.freeze ∧
    Draft.sample.finish = .ok Draft.sample.freeze ∧
    ∃ l l' : Liveness (.temps .gp), compute unrolled.freeze (.temps .gp) = .ok l ∧
      compute Draft.sample.freeze (.temps .gp) = .ok l' ∧
      ∃ b b', unrolled.freeze.blocks[3]? = some b ∧ Draft.sample.freeze.blocks[1]? = some b' ∧
        SameAt l l' b b' := by
  have hfinish : unrolled.finish = .ok unrolled.freeze :=
    Draft.finish_eq_ok.mpr ⟨by decide +kernel, rfl⟩
  obtain ⟨l, l', hl, hl', h⟩ :=
    carried_alike (.temps .gp) hfinish Draft.finish_sample carries_unrolled
  exact ⟨hfinish, Draft.finish_sample, l, l', hl, hl', h ⟨3⟩ (by decide)⟩

end Liveness

end MachineLiveness
