import MachineLiveness.Draft

/-!
Predecessors in one pass over the edges: each block adds itself to the list of every block it has an
edge to, once.
-/

namespace MachineLiveness.Draft

/-- The lists after the edges of one block; the targets in `seen` have it on their list already. -/
def noteEdges (source : BlockId) (seen : List BlockId) (lists : Array (List BlockId)) :
    List BlockId → Except Fault (Array (List BlockId))
  | [] => .ok lists
  | target :: targets =>
    if target ∈ seen then noteEdges source seen lists targets
    else do
      let list ← entry lists target.index
      noteEdges source (target :: seen) (lists.setIfInBounds target.index (list ++ [source])) targets

/-- The lists after the edges of some numbered blocks. -/
def noteBlocks (lists : Array (List BlockId)) :
    List (DraftBlock × Nat) → Except Fault (Array (List BlockId))
  | [] => .ok lists
  | (b, n) :: bs => do
    let lists ← noteEdges (.ofIndex n) [] lists b.successors
    noteBlocks lists bs

/-- The list of every block; an edge to no block stops the pass. -/
def listPredecessors (d : Draft) : Except Fault (Array (List BlockId)) :=
  noteBlocks (.replicate d.blocks.size []) d.blocks.toList.zipIdx

end MachineLiveness.Draft
