import MachineLiveness.Draft

/-!
Which units are well formed, said without the checks of `Draft.finish`; and what each defect says of
a draft.
-/

namespace MachineLiveness

/-- What a unit has allocated: the registers of the target, temporaries of each bank, slots, blocks. -/
structure Allocated where
  registers : PerBank Nat
  temps : PerBank Nat
  slots : Nat
  blocks : Nat

def Draft.allocated (d : Draft) : Allocated where
  registers := ⟨d.registers.gp.toNat, d.registers.fp.toNat⟩
  temps := ⟨d.temps.gp.toNat, d.temps.fp.toNat⟩
  slots := d.slots.size
  blocks := d.blocks.size

def Code.allocated (c : Code) : Allocated where
  registers := ⟨c.registers.gp.toNat, c.registers.fp.toNat⟩
  temps := ⟨c.temps.gp.toNat, c.temps.fp.toNat⟩
  slots := c.slots.size
  blocks := c.blocks.size

namespace Allocated

variable (a : Allocated)

/-- The register exists, or the virtual temporary was allocated. -/
def HasTemp : Temp → Prop
  | .reg r => r.index < a.registers.get r.bank
  | .virtual b n => n.toNat < a.temps.get b

/-- A temporary carries a value of its own bank, an address begins in the general-purpose bank, and
what is named exists. -/
def Admits (o : Operand) : Prop :=
  match o.arg with
  | .temp t => t.bank = o.bank ∧ a.HasTemp t
  | .addr base _ => base.bank = .gp ∧ a.HasTemp base
  | .slot s => s.index < a.slots
  | .imm _ => True

/-- The last instruction and no other ends the block, with as many edges as it asks for; the edges
lead to blocks, and the operands are in order. -/
structure BlockWellFormed (insts : List Inst) (successors : List BlockId) : Prop where
  terminated : ∃ last, insts.getLast? = some last ∧
    last.opcode.successorCount? = some successors.length
  terminal_last : ∀ (k : Nat) (i : Inst), insts[k]? = some i → i.isTerminal = true →
    k + 1 = insts.length
  successors_exist : ∀ s ∈ successors, s.index < a.blocks
  operands_admitted : ∀ i ∈ insts, ∀ o ∈ i.operands, a.Admits o

end Allocated

/-- Every block is well formed. -/
def Draft.WellFormed (d : Draft) : Prop :=
  ∀ b ∈ d.blocks, d.allocated.BlockWellFormed b.insts.toList b.successors

/-- Every block is well formed, is named by its position, and knows the blocks with an edge to it,
each once. -/
structure Code.WellFormed (c : Code) : Prop where
  blocks : ∀ b ∈ c.blocks, c.allocated.BlockWellFormed b.insts.toList b.successors
  ids : ∀ (k : Nat) (b : Block), c.blocks[k]? = some b → b.id.index = k
  predecessors_nodup : ∀ b ∈ c.blocks, b.predecessors.Nodup
  mem_predecessors : ∀ b ∈ c.blocks, ∀ p, p ∈ b.predecessors ↔
    ∃ source ∈ c.blocks, source.id = p ∧ b.id ∈ source.successors

namespace Malformed

/-- The instruction at a position of a block names the argument under a bank. -/
def Names (block : DraftBlock) (inst : Nat) (arg : Arg → Prop) (bank : Bank → Prop) : Prop :=
  ∃ i, block.insts[inst]? = some i ∧ ∃ o ∈ i.operands, arg o.arg ∧ bank o.bank

/-- The argument is this temporary, or an address that begins there. -/
def IsTemp (t : Temp) : Arg → Prop
  | .temp t' => t' = t
  | .addr base _ => base = t
  | .slot _ | .imm _ => False

/-- What a defect says is so of its block. -/
def Holds (d : Draft) (block : DraftBlock) : Malformed → Prop
  | emptyBlock _ => block.insts = #[]
  | missingTerminator _ op =>
    ∃ last, block.insts.back? = some last ∧ last.opcode = op ∧ op.isTerminal = false
  | terminatorNotLast _ inst op =>
    inst + 1 < block.insts.size ∧ op.isTerminal = true ∧
      ∃ i, block.insts[inst]? = some i ∧ i.opcode = op
  | successorCount _ op expected found =>
    (∃ last, block.insts.back? = some last ∧ last.opcode = op) ∧
      op.successorCount? = some expected ∧ found = block.successors.length ∧ expected ≠ found
  | successorOutOfRange _ s blocks =>
    s ∈ block.successors ∧ blocks = d.blocks.size ∧ blocks ≤ s.index
  | bankMismatch _ inst t bank =>
    Names block inst (· = .temp t) (· = bank) ∧ t.bank ≠ bank
  | baseNotGp _ inst base =>
    Names block inst (fun a => ∃ offset, a = .addr base offset) (fun _ => True) ∧ base.bank ≠ .gp
  | tempOutOfRange _ inst t count =>
    Names block inst (IsTemp t) (fun _ => True) ∧
      ∃ b n, t = .virtual b n ∧ count = (d.temps.get b).toNat ∧ count ≤ n.toNat
  | registerOutOfRange _ inst t count =>
    Names block inst (IsTemp t) (fun _ => True) ∧
      ∃ r, t = .reg r ∧ count = (d.registers.get r.bank).toNat ∧ count ≤ r.index
  | slotOutOfRange _ inst s count =>
    Names block inst (· = .slot s) (fun _ => True) ∧ count = d.slots.size ∧ count ≤ s.index

/-- The instruction that a defect blames, if it blames one. -/
def inst? : Malformed → Option Nat
  | terminatorNotLast _ i _ | bankMismatch _ i _ _ | baseNotGp _ i _ | tempOutOfRange _ i _ _
  | registerOutOfRange _ i _ _ | slotOutOfRange _ i _ _ => some i
  | emptyBlock _ | missingTerminator _ _ | successorCount _ _ _ _ | successorOutOfRange _ _ _ => none

end Malformed

end MachineLiveness
