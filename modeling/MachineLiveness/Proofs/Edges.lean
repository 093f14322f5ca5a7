import Mathlib.Data.List.Nodup
import MachineLiveness.Draft.Edges
import MachineLiveness.Proofs.Record
import MachineLiveness.Proofs.Universe

/-!
How the blocks of a finished unit are linked. A block has the instructions and the edges that the
history gave it, in the order of the history; and its predecessors are the blocks with an edge to it,
each once, by number. One pass over the edges (`Draft.listPredecessors`) yields the same lists: a step
of the pass adds one block to the lists of its targets (`Adds`), and these additions add up.
-/

namespace MachineLiveness

/-! ## The pass -/

/-- The list of every block has grown by what is to be added to it. -/
structure Adds (lists lists' : Array (List BlockId)) (added : BlockId → List BlockId) : Prop where
  size : lists'.size = lists.size
  list : ∀ b : BlockId, lists'[b.index]? = lists[b.index]?.map (· ++ added b)

namespace Adds

variable {lists lists' lists'' : Array (List BlockId)} {f g added : BlockId → List BlockId}

theorem nothing (lists : Array (List BlockId)) : Adds lists lists fun _ => [] where
  size := rfl
  list := fun b => by simp

/-- Two additions one after the other are one. -/
theorem trans (h : Adds lists lists' f) (h' : Adds lists' lists'' g)
    (hadded : ∀ b, f b ++ g b = added b) : Adds lists lists'' added where
  size := h'.size.trans h.size
  list := fun b => by
    rw [h'.list, h.list, Option.map_map]
    congr 1
    funext list
    rw [Function.comp_apply, List.append_assoc, hadded]

theorem one {target : BlockId} (h : target.index < lists.size) (source : BlockId) :
    Adds lists (lists.setIfInBounds target.index (lists[target.index] ++ [source])) fun b =>
      if b = target then [source] else [] where
  size := Array.size_setIfInBounds
  list := fun b => by
    rw [Array.getElem?_setIfInBounds]
    by_cases hb : b = target
    · subst hb
      simp [h]
    · simp [hb, Ne.symm hb, BlockId.index_inj]

end Adds

namespace Draft

variable {d : Draft}

/-- The edges of one block add it to each of their targets that does not have it yet. -/
theorem exists_noteEdges (source : BlockId) (targets seen : List BlockId)
    (lists : Array (List BlockId)) (h : ∀ t ∈ targets, t.index < lists.size) :
    ∃ lists', noteEdges source seen lists targets = .ok lists' ∧
      Adds lists lists' fun b => if b ∈ targets ∧ b ∉ seen then [source] else [] := by
  induction targets generalizing seen lists with
  | nil => exact ⟨lists, rfl, by simpa using Adds.nothing lists⟩
  | cons t ts ih =>
    rw [List.forall_mem_cons] at h
    by_cases hseen : t ∈ seen
    · obtain ⟨lists', hlists', hadds⟩ := ih seen lists h.2
      refine ⟨lists', by rw [noteEdges, if_pos hseen, hlists'], (Adds.nothing lists).trans hadds ?_⟩
      intro b
      grind
    · have hone := Adds.one h.1 source
      obtain ⟨lists', hlists', hadds⟩ := ih (t :: seen) _ fun s hs => hone.size ▸ h.2 s hs
      refine ⟨lists', ?_, hone.trans hadds ?_⟩
      · rw [noteEdges, if_neg hseen, entry_of_lt h.1]
        exact hlists'
      · intro b
        grind

/-- Of some numbered blocks those with an edge to a block. -/
def sources (target : BlockId) (bs : List (DraftBlock × Nat)) : List BlockId :=
  bs.filterMap fun (b, n) => if target ∈ b.successors then some (.ofIndex n) else none

theorem exists_noteBlocks (bs : List (DraftBlock × Nat)) (lists : Array (List BlockId))
    (h : ∀ b ∈ bs, ∀ s ∈ b.1.successors, s.index < lists.size) :
    ∃ lists', noteBlocks lists bs = .ok lists' ∧ Adds lists lists' fun b => sources b bs := by
  induction bs generalizing lists with
  | nil => exact ⟨lists, rfl, Adds.nothing lists⟩
  | cons x bs ih =>
    obtain ⟨b, n⟩ := x
    rw [List.forall_mem_cons] at h
    obtain ⟨lists₁, hlists₁, hadds₁⟩ := exists_noteEdges (.ofIndex n) b.successors [] lists h.1
    obtain ⟨lists₂, hlists₂, hadds₂⟩ := ih lists₁ fun b hb s hs => hadds₁.size ▸ h.2 b hb s hs
    refine ⟨lists₂, ?_, hadds₁.trans hadds₂ fun target => ?_⟩
    · rw [noteBlocks, hlists₁]
      exact hlists₂
    · by_cases hb : target ∈ b.successors
      · simp [sources, hb]
      · simp [sources, hb]

/-- If every edge leads to a block, the pass goes through and lists each block's predecessors. -/
theorem listPredecessors_eq (h : ∀ b ∈ d.blocks, ∀ s ∈ b.successors, s.index < d.blocks.size) :
    d.listPredecessors = .ok (d.freeze.blocks.map Block.predecessors) := by
  obtain ⟨lists, hlists, hadds⟩ := exists_noteBlocks d.blocks.toList.zipIdx
    (.replicate d.blocks.size []) (by
      rintro ⟨b, n⟩ hb s hs
      rw [Array.size_replicate]
      exact h b (Array.mem_of_getElem? (by simpa using List.mk_mem_zipIdx_iff_getElem?.mp hb)) s hs)
  rw [listPredecessors, hlists]
  congr 1
  refine Array.ext_getElem? fun k => ?_
  rw [Array.getElem?_map, getElem?_freeze, Option.map_map]
  rcases Nat.lt_or_ge k d.blocks.size with hk | hk
  · have hindex := BlockId.index_ofIndex (Nat.lt_of_lt_of_le hk d.blocks_le)
    have hlist := hadds.list (.ofIndex k)
    rw [hindex, Array.getElem?_replicate, if_pos hk] at hlist
    rw [hlist, Array.getElem?_eq_getElem hk]
    rfl
  · rw [Array.getElem?_eq_none hk, Array.getElem?_eq_none (by simpa [hadds.size] using hk)]
    rfl

end Draft

/-! ## Links -/

/-- A block without what its unit adds to it. -/
def Block.draft (b : Block) : DraftBlock := ⟨b.insts, b.successors⟩

/-- Every list of predecessors is in the order of the block numbers. -/
def Code.Ascending (c : Code) : Prop :=
  ∀ b ∈ c.blocks, b.predecessors.Pairwise fun p q => p.index < q.index

/-- Blocks stand where their ids say, and the predecessors of a block are the blocks with an edge to
it, each once, by number. -/
structure Code.Linked (c : Code) : Prop where
  ids : ∀ (k : Nat) (b : Block), c.blocks[k]? = some b → b.id.index = k
  once : ∀ p ∈ c.blocks, ∀ b ∈ c.blocks,
    b.predecessors.count p.id = if b.id ∈ p.successors then 1 else 0
  exist : ∀ b ∈ c.blocks, ∀ p ∈ b.predecessors, ∃ source ∈ c.blocks, source.id = p
  ascending : c.Ascending

namespace Code.WellFormed

variable {c : Code} {p b : Block}

theorem eq_of_id (h : c.WellFormed) (hp : p ∈ c.blocks) (hb : b ∈ c.blocks) (hid : p.id = b.id) :
    p = b := by
  obtain ⟨j, hj⟩ := Array.mem_iff_getElem?.mp hp
  obtain ⟨k, hk⟩ := Array.mem_iff_getElem?.mp hb
  have hjk : j = k := by rw [← h.block_id hj, ← h.block_id hk, hid]
  rw [hjk, hk] at hj
  exact (Option.some.inj hj).symm

theorem id_mem_predecessors (h : c.WellFormed) (hp : p ∈ c.blocks) (hb : b ∈ c.blocks) :
    p.id ∈ b.predecessors ↔ b.id ∈ p.successors := by
  rw [h.mem_predecessors b hb]
  constructor
  · rintro ⟨source, hsource, hid, hedge⟩
    rwa [← h.eq_of_id hsource hp hid]
  · intro hedge
    exact ⟨p, hp, rfl, hedge⟩

theorem linked (h : c.WellFormed) (ha : c.Ascending) : c.Linked where
  ids := h.ids
  once := by
    intro p hp b hb
    split
    · rename_i hedge
      exact List.count_eq_one_of_mem (h.predecessors_nodup b hb)
        ((h.id_mem_predecessors hp hb).mpr hedge)
    · rename_i hedge
      exact List.count_eq_zero.mpr fun hmem => hedge ((h.id_mem_predecessors hp hb).mp hmem)
  exist := by
    intro b hb p hp
    obtain ⟨source, hsource, hid, -⟩ := (h.mem_predecessors b hb p).mp hp
    exact ⟨source, hsource, hid⟩
  ascending := ha

end Code.WellFormed

namespace Draft

variable {d : Draft}

theorem map_draft_freeze (d : Draft) : d.freeze.blocks.map Block.draft = d.blocks := by
  refine Array.ext_getElem? fun k => ?_
  rw [Array.getElem?_map, getElem?_freeze, Option.map_map]
  exact Option.map_id_apply

theorem ascending_freeze (d : Draft) : d.freeze.Ascending := by
  intro b hb
  obtain ⟨k, source, -, rfl⟩ := exists_of_mem_freeze hb
  exact predecessors_ascending _

/-- A block of the frozen unit holds what the draft has under its id. -/
theorem blockAt_of_mem_freeze {b : Block} (h : b ∈ d.freeze.blocks) :
    d.blockAt b.id = b.draft := by
  obtain ⟨k, source, hsource, rfl⟩ := exists_of_mem_freeze h
  rw [blockAt, BlockId.index_ofIndex (lt_of_block hsource), hsource]
  rfl

/-- Of an accepted draft the blocks are numbered in order and keep their instructions and edges as
they were given, and their predecessors are the edges turned around, as the pass lists them. -/
theorem edges_inverted {c : Code} (h : d.finish = .ok c) :
    c.Linked ∧ c.blocks.map Block.draft = d.blocks ∧
      d.listPredecessors = .ok (c.blocks.map Block.predecessors) ∧
      ∀ (registers : RegisterFile) (ss : List Step), ((empty registers).performAll ss).2 = d →
        ∀ b ∈ c.blocks,
          b.insts.toList = ((empty registers).performed ss).filterMap (Step.inst? b.id) ∧
          b.successors = ((empty registers).performed ss).filterMap (Step.target? b.id) := by
  obtain ⟨hdefect, rfl⟩ := finish_eq_ok.mp h
  have hwell := defect?_eq_none.mp hdefect
  refine ⟨(wellFormed_freeze hwell).linked d.ascending_freeze, map_draft_freeze d,
    listPredecessors_eq fun b hb => (hwell b hb).successors_exist, ?_⟩
  rintro registers ss rfl b hb
  have hgrown := performAll_grown (empty registers) ss b.id
  rw [blockAt_of_mem_freeze hb] at hgrown
  exact hgrown

/-! ## A history with a double edge -/

/-- Both arms of a branch lead to one block, which loops; a step that names a block too early is
refused. -/
def doubled : List Step := [
  .addBlock, .addSuccessor ⟨0⟩ ⟨1⟩, .addSuccessor ⟨1⟩ ⟨1⟩, .addBlock, .addSuccessor ⟨0⟩ ⟨1⟩,
  .addSuccessor ⟨1⟩ ⟨2⟩, .addSuccessor ⟨1⟩ ⟨1⟩, .addBlock, .push ⟨2⟩ ⟨.ret, []⟩,
  .push ⟨1⟩ ⟨.branch, []⟩, .push ⟨0⟩ ⟨.nop, []⟩, .push ⟨0⟩ ⟨.branch, []⟩]

theorem edges_inverted_doubled :
    let d := ((empty ⟨1, 1⟩).performAll doubled).2
    d.finish = .ok d.freeze ∧ d.freeze.Linked ∧
      d.listPredecessors = .ok #[[], [⟨0⟩, ⟨1⟩], [⟨1⟩]] ∧
      ∀ b ∈ d.freeze.blocks, b.successors =
        ((empty ⟨1, 1⟩).performed doubled).filterMap (Step.target? b.id) := by
  intro d
  have hfinish : d.finish = .ok d.freeze := finish_eq_ok.mpr ⟨by decide +kernel, rfl⟩
  obtain ⟨hlinked, -, hlist, hkept⟩ := edges_inverted hfinish
  refine ⟨hfinish, hlinked, ?_, fun b hb => (hkept ⟨1, 1⟩ doubled rfl b hb).2⟩
  rw [hlist]
  decide +kernel

end Draft

end MachineLiveness
