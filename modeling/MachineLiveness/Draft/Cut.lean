import MachineLiveness.Draft

/-!
Cutting a block of a draft in two.
-/

namespace MachineLiveness.Draft

/-- Move the instructions from position `k` on, and the edges, of a block to a new last block, and
leave a jump to it. -/
def cut (d : Draft) (b : BlockId) (k : Nat) : Except Fault (BlockId × Draft) := do
  let block ← entry d.blocks b.index
  let (new, d) ← d.addBlock
  let d ← d.editBlock new fun _ => ⟨block.insts.extract k block.insts.size, block.successors⟩
  let d ← d.editBlock b fun _ => ⟨(block.insts.extract 0 k).push ⟨.jump, []⟩, [new]⟩
  .ok (new, d)

end MachineLiveness.Draft
