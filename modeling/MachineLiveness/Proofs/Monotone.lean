import MachineLiveness.Proofs.Follow

/-!
One entity at a time. Between two units of the same shape, further edges, further uses and fewer
definitions of an entity only make it live at more places, whatever happens to the other entities: a
clear path of the first unit is a clear path of the second. So where an entity is live depends on
nothing but the edges and the operands that name it.
-/

namespace MachineLiveness

/-! ## Two units side by side -/

/-- The operands of two instructions that name an entity say the same of it. -/
structure Inst.NameAlike (u : Universe) (e : u.Entity) (i i' : Inst) : Prop where
  forth : ∀ m ∈ u.mentions i, m.entity = e → m ∈ u.mentions i'
  back : ∀ m ∈ u.mentions i', m.entity = e → m ∈ u.mentions i

/-- Two blocks with related edges and equally many instructions, related one by one. -/
structure Block.Aligned (edges : List BlockId → List BlockId → Prop) (insts : Inst → Inst → Prop)
    (b b' : Block) : Prop where
  edges : edges b.successors b'.successors
  insts : List.Forall₂ insts b.insts.toList b'.insts.toList

/-- Two units with equally many blocks, aligned one by one. -/
def Code.Aligned (edges : List BlockId → List BlockId → Prop) (insts : Inst → Inst → Prop)
    (c c' : Code) : Prop :=
  List.Forall₂ (Block.Aligned edges insts) c.blocks.toList c'.blocks.toList

/-- Lists with the same members. -/
def SameMembers (ss ts : List BlockId) : Prop := ss ⊆ ts ∧ ts ⊆ ss

theorem SameMembers.symm {ss ts : List BlockId} (h : SameMembers ss ts) : SameMembers ts ss :=
  And.symm h

/-- Every edge of the first unit is an edge of the second, and instruction by instruction the second
uses an entity wherever the first does and defines it nowhere else. -/
def Code.Yields (u : Universe) (e : u.Entity) (c c' : Code) : Prop :=
  Code.Aligned (· ⊆ ·) (Inst.Yields u e) c c'

/-- The units have the same edges, and instruction by instruction the operands that name an entity
are the same. -/
def Code.NameAlike (u : Universe) (e : u.Entity) (c c' : Code) : Prop :=
  Code.Aligned SameMembers (Inst.NameAlike u e) c c'

instance (u : Universe) (e : u.Entity) (i i' : Inst) : Decidable (i.Yields u e i') :=
  decidable_of_iff ((e ∈ u.earlyUses i → e ∈ u.earlyUses i') ∧
    (e ∈ u.lateUses i → e ∈ u.lateUses i') ∧ (e ∈ u.defines i' → e ∈ u.defines i))
    ⟨fun ⟨he, hl, hd⟩ => ⟨he, hl, hd⟩, fun h => ⟨h.early, h.late, h.define⟩⟩

instance (u : Universe) (e : u.Entity) (i i' : Inst) : Decidable (i.NameAlike u e i') :=
  decidable_of_iff ((∀ m ∈ u.mentions i, m.entity = e → m ∈ u.mentions i') ∧
    ∀ m ∈ u.mentions i', m.entity = e → m ∈ u.mentions i)
    ⟨fun ⟨hf, hb⟩ => ⟨hf, hb⟩, fun h => ⟨h.forth, h.back⟩⟩

instance (edges : List BlockId → List BlockId → Prop) (insts : Inst → Inst → Prop) (b b' : Block)
    [DecidableRel edges] [DecidableRel insts] : Decidable (b.Aligned edges insts b') :=
  decidable_of_iff (edges b.successors b'.successors ∧
    List.Forall₂ insts b.insts.toList b'.insts.toList)
    ⟨fun ⟨he, hi⟩ => ⟨he, hi⟩, fun h => ⟨h.edges, h.insts⟩⟩

instance (edges : List BlockId → List BlockId → Prop) (insts : Inst → Inst → Prop) (c c' : Code)
    [DecidableRel edges] [DecidableRel insts] : Decidable (c.Aligned edges insts c') :=
  inferInstanceAs (Decidable (List.Forall₂ _ _ _))

instance (ss ts : List BlockId) : Decidable (SameMembers ss ts) :=
  inferInstanceAs (Decidable (_ ∧ _))

instance (u : Universe) (e : u.Entity) (c c' : Code) : Decidable (c.Yields u e c') :=
  inferInstanceAs (Decidable (c.Aligned (· ⊆ ·) (Inst.Yields u e) c'))

instance (u : Universe) (e : u.Entity) (c c' : Code) : Decidable (c.NameAlike u e c') :=
  inferInstanceAs (Decidable (c.Aligned SameMembers (Inst.NameAlike u e) c'))

variable {c c' : Code} {u : Universe} {e : u.Entity}

namespace Code.Aligned

variable {edges edges' : List BlockId → List BlockId → Prop} {insts insts' : Inst → Inst → Prop}

theorem imp (h : c.Aligned edges insts c') (he : ∀ ss ts, edges ss ts → edges' ss ts)
    (hi : ∀ i i', insts i i' → insts' i i') : c.Aligned edges' insts' c' :=
  List.Forall₂.imp (fun _ _ hb => ⟨he _ _ hb.edges, hb.insts.imp hi⟩) h

theorem exists_block (h : c.Aligned edges insts c') {k : Nat} {b : Block}
    (hb : c.blocks[k]? = some b) : ∃ b', c'.blocks[k]? = some b' ∧ b.Aligned edges insts b' := by
  rw [← Array.getElem?_toList] at hb
  obtain ⟨b', hb', haligned⟩ := exists_of_forall₂ h hb
  rw [Array.getElem?_toList] at hb'
  exact ⟨b', hb', haligned⟩

end Code.Aligned

theorem Inst.NameAlike.symm {i i' : Inst} (h : i.NameAlike u e i') : i'.NameAlike u e i :=
  ⟨h.back, h.forth⟩

theorem Inst.NameAlike.yields {i i' : Inst} (h : i.NameAlike u e i') : i.Yields u e i' := by
  have hnamed {i i' : Inst} (kind : Role → Bool)
      (hm : ∀ m ∈ u.mentions i, m.entity = e → m ∈ u.mentions i') :
      e ∈ u.named kind i → e ∈ u.named kind i' := by
    simp only [Universe.named, List.mem_map, List.mem_filter]
    rintro ⟨m, ⟨hmem, hkind⟩, hentity⟩
    exact ⟨m, ⟨hm m hmem hentity, hkind⟩, hentity⟩
  exact ⟨hnamed _ h.forth, hnamed _ h.forth, hnamed _ h.back⟩

theorem Code.NameAlike.yields (h : c.NameAlike u e c') : c.Yields u e c' :=
  h.imp (fun _ _ hs => hs.1) fun _ _ hi => hi.yields

theorem Code.NameAlike.symm (h : c.NameAlike u e c') : c'.NameAlike u e c := by
  refine List.Forall₂.flip (List.Forall₂.imp (fun b b' hb => ?_) h)
  exact ⟨hb.edges.symm, List.Forall₂.flip (hb.insts.imp fun _ _ hi => hi.symm)⟩

/-! ## The same path in the larger unit -/

theorem Code.Yields.along (h : c.Yields u e c') : c.YieldsAlong u e (· = ·) c' := by
  rintro x _ b rfl hb
  obtain ⟨b', hb', haligned⟩ := h.exists_block hb
  exact ⟨b', hb', haligned.insts, fun s hs => ⟨s, haligned.edges hs, rfl⟩⟩

namespace Point

theorem live_of_code_yields (h : c.Yields u e c') {p : Point} (hp : Live c u e p) :
    Live c' u e p := live_of_yields h.along rfl hp

theorem live_iff_of_nameAlike (h : c.NameAlike u e c') (p : Point) :
    Live c u e p ↔ Live c' u e p :=
  ⟨live_of_code_yields h.yields, live_of_code_yields h.symm.yields⟩

end Point

namespace Liveness

variable {l l' : Liveness u}

/-- At the tail of every block and at every place inside, whether one result names an entity is
related to whether the other one does. -/
def Throughout (R : Prop → Prop → Prop) (e : u.Entity) (c c' : Code) (l l' : Liveness u) : Prop :=
  ∀ (k : Nat) (b b' : Block), c.blocks[k]? = some b → c'.blocks[k]? = some b' →
    R (Names (l.atTail b.id) e) (Names (l'.atTail b'.id) e) ∧
      ∀ i ≤ b.insts.size, R (Names (l.above b i) e) (Names (l'.above b' i) e)

theorem throughout_of_live {edges : List BlockId → List BlockId → Prop}
    {insts : Inst → Inst → Prop} {R : Prop → Prop → Prop} (hc : c.WellFormed)
    (hc' : c'.WellFormed) (hl : Truthful c l) (hl' : Truthful c' l')
    (haligned : c.Aligned edges insts c')
    (h : ∀ p, R (Point.Live c u e p) (Point.Live c' u e p)) : Throughout R e c c' l l' := by
  intro k b b' hb hb'
  have hid : b'.id = b.id :=
    BlockId.index_inj.mp ((hc'.block_id hb').trans (hc.block_id hb).symm)
  have hsize : b'.insts.size = b.insts.size := by
    obtain ⟨a, ha, hba⟩ := haligned.exists_block hb
    obtain rfl : a = b' := Option.some.inj (ha.symm.trans hb')
    exact hba.insts.length_eq.symm
  constructor
  · rw [(hl.atTail k b hb).names_iff, (hl'.atTail k b' hb').names_iff, hid, hsize]
    exact h _
  · intro i hi
    rw [(hl.above k b i hb hi).names_iff, (hl'.above k b' i hb' (hsize ▸ hi)).names_iff, hid]
    exact h _

/-- The analyses of two finished units end. An entity that the second unit uses wherever the first
one does, and defines nowhere else, is named by the second result wherever it is by the first, if no
edge is missing; and if the edges and all that the operands say of the entity are the same, the
results name it at the same places. -/
theorem named_throughout {d d' : Draft} (e : u.Entity) (h : d.finish = .ok c)
    (h' : d'.finish = .ok c') :
    ∃ l l' : Liveness u, compute c u = .ok l ∧ compute c' u = .ok l' ∧
      (c.Yields u e c' → Throughout (· → ·) e c c' l l') ∧
      (c.NameAlike u e c' → Throughout (· ↔ ·) e c c' l l') := by
  have hc := Draft.wellFormed_of_finish h
  have hc' := Draft.wellFormed_of_finish h'
  obtain ⟨l, hl, htrue⟩ := exists_truthful u h
  obtain ⟨l', hl', htrue'⟩ := exists_truthful u h'
  refine ⟨l, l', hl, hl', fun hyields => ?_, fun halike => ?_⟩
  · exact throughout_of_live hc hc' htrue htrue' hyields fun _ =>
      Point.live_of_code_yields hyields
  · exact throughout_of_live hc hc' htrue htrue' halike (Point.live_iff_of_nameAlike halike)

/-- The sample with one more edge, a use of the sum at the end and a definition of it less; other
temporaries have other operands. -/
def busier : Draft := { Draft.sample with
  blocks := #[
    ⟨#[⟨.move, [.ofTemp (.reg ⟨.gp, 0⟩) .scratch, .ofImm 9]⟩, ⟨.branch, []⟩], [⟨1⟩, ⟨3⟩]⟩,
    ⟨#[⟨.nop, []⟩, ⟨.sub, [.ofTemp (.virtual .gp 1) .earlyUse]⟩,
      ⟨.branch, [.ofTemp (.virtual .gp 1) .lateUse]⟩], [⟨2⟩, ⟨1⟩]⟩,
    ⟨#[⟨.nop, []⟩, ⟨.branch, [.ofTemp (.virtual .gp 1) .earlyUse]⟩], [⟨0⟩, ⟨3⟩]⟩,
    ⟨#[⟨.ret, [.ofTemp (.virtual .gp 1) .earlyUse]⟩], []⟩]
  blocks_le := by decide }

/-- The sample with its edges and what its operands say of the sum, and nothing else. -/
def restyled : Draft := { Draft.sample with
  blocks := #[
    ⟨#[⟨.nop, []⟩, ⟨.jump, []⟩], [⟨1⟩]⟩,
    ⟨#[⟨.call, [⟨.slot ⟨0⟩, .lateUse, .fp⟩]⟩, ⟨.swap, [.ofTemp (.virtual .gp 1) .useDefine]⟩,
      ⟨.branch, [.ofImm 1, .ofTemp (.virtual .gp 1) .lateUse]⟩], [⟨2⟩, ⟨1⟩]⟩,
    ⟨#[⟨.nop, []⟩, ⟨.branch, [.ofTemp (.virtual .fp 0) .scratch]⟩], [⟨3⟩, ⟨0⟩]⟩,
    ⟨#[⟨.oops, []⟩], []⟩]
  blocks_le := by decide }

theorem named_throughout_sample :
    let sum : (Universe.temps .gp).Entity := Temp.virtual .gp 1
    Draft.sample.finish = .ok Draft.sample.freeze ∧ busier.finish = .ok busier.freeze ∧
      restyled.finish = .ok restyled.freeze ∧
      (∃ l l', compute Draft.sample.freeze (.temps .gp) = .ok l ∧
        compute busier.freeze (.temps .gp) = .ok l' ∧
        Throughout (· → ·) sum Draft.sample.freeze busier.freeze l l') ∧
      ∃ l l', compute Draft.sample.freeze (.temps .gp) = .ok l ∧
        compute restyled.freeze (.temps .gp) = .ok l' ∧
        Throughout (· ↔ ·) sum Draft.sample.freeze restyled.freeze l l' := by
  intro sum
  have hbusier : busier.finish = .ok busier.freeze :=
    Draft.finish_eq_ok.mpr ⟨by decide +kernel, rfl⟩
  have hrestyled : restyled.finish = .ok restyled.freeze :=
    Draft.finish_eq_ok.mpr ⟨by decide +kernel, rfl⟩
  have hyields : Draft.sample.freeze.Yields (.temps .gp) sum busier.freeze := by decide +kernel
  have halike : Draft.sample.freeze.NameAlike (.temps .gp) sum restyled.freeze := by
    decide +kernel
  obtain ⟨l, l', hl, hl', hgrown, -⟩ := named_throughout sum Draft.finish_sample hbusier
  obtain ⟨m, m', hm, hm', -, hsame⟩ := named_throughout sum Draft.finish_sample hrestyled
  exact ⟨Draft.finish_sample, hbusier, hrestyled, ⟨l, l', hl, hl', hgrown hyields⟩,
    ⟨m, m', hm, hm', hsame halike⟩⟩

end Liveness

end MachineLiveness
