import MachineLiveness.Draft.Malformed
import MachineLiveness.History
import MachineLiveness.Outcome

/-!
Units under construction. Lowering allocates temporaries, slots and blocks, appends instructions to
blocks in any order and adds edges between them; `Draft.finish` looks for a defect, block by block,
and if there is none freezes the unit and lists each block's predecessors.
-/

namespace MachineLiveness

/-- A block under construction. -/
structure DraftBlock where
  insts : Array Inst
  successors : List BlockId
  deriving DecidableEq, Repr

/-- A unit under construction. There are never more blocks or slots than there are numbers. -/
structure Draft where
  registers : RegisterFile
  blocks : Array DraftBlock
  temps : PerBank UInt32
  slots : Array Slot
  blocks_le : blocks.size ≤ UInt32.size
  slots_le : slots.size ≤ UInt32.size
  deriving DecidableEq, Repr

namespace Draft

/-- Nothing is allocated yet. -/
def empty (registers : RegisterFile) : Draft := ⟨registers, #[], ⟨0, 0⟩, #[], by simp, by simp⟩

/-! ## Building -/

/-- Append an empty block. -/
def addBlock (d : Draft) : Except Fault (BlockId × Draft) :=
  if h : d.blocks.size < UInt32.size then
    .ok (.ofIndex d.blocks.size,
      { d with blocks := d.blocks.push ⟨#[], []⟩, blocks_le := by rw [Array.size_push]; exact h })
  else .error .tooManyBlocks

/-- Allocate the next virtual temporary of a bank. The last number is never given out, so that the
count stays a number. -/
def addTemp (d : Draft) (b : Bank) : Except Fault (Temp × Draft) :=
  let n := d.temps.get b
  if n + 1 = 0 then .error (.tooManyTemps b)
  else .ok (.virtual b n, { d with temps := d.temps.set b (n + 1) })

/-- Allocate a stack slot. -/
def addSlot (d : Draft) (s : Slot) : Except Fault (SlotId × Draft) :=
  if h : d.slots.size < UInt32.size then
    .ok (⟨UInt32.ofNat d.slots.size⟩,
      { d with slots := d.slots.push s, slots_le := by rw [Array.size_push]; exact h })
  else .error .tooManySlots

/-- Change one block. -/
def editBlock (d : Draft) (b : BlockId) (edit : DraftBlock → DraftBlock) : Except Fault Draft :=
  if h : b.index < d.blocks.size then
    .ok { d with
      blocks := d.blocks.set b.index (edit d.blocks[b.index]) h
      blocks_le := by simpa using d.blocks_le }
  else .error (.noEntry d.blocks.size b.index)

/-- Append an instruction to a block. -/
def push (d : Draft) (b : BlockId) (i : Inst) : Except Fault Draft :=
  d.editBlock b fun block => { block with insts := block.insts.push i }

/-- Add an edge; its target need not exist yet. -/
def addSuccessor (d : Draft) (source target : BlockId) : Except Fault Draft :=
  d.editBlock source fun block => { block with successors := block.successors ++ [target] }

/-! ## Histories -/

/-- One step of building. -/
inductive Step where
  | addTemp (bank : Bank)
  | addSlot (slot : Slot)
  | addBlock
  | push (block : BlockId) (inst : Inst)
  | addSuccessor (source target : BlockId)
  deriving DecidableEq, Repr

/-- What a step hands out. -/
inductive Issued where
  | temp (t : Temp)
  | slot (s : SlotId)
  | block (b : BlockId)
  | nothing
  deriving DecidableEq, Repr

/-- A step that stops leaves the draft as it was. -/
def perform (d : Draft) : Step → Except Fault Issued × Draft
  | .addTemp b => issue .temp (d.addTemp b)
  | .addSlot s => issue .slot (d.addSlot s)
  | .addBlock => issue .block d.addBlock
  | .push b i => issue (fun _ => .nothing) ((d.push b i).map ((), ·))
  | .addSuccessor b t => issue (fun _ => .nothing) ((d.addSuccessor b t).map ((), ·))
where
  issue {α : Type} (f : α → Issued) : Except Fault (α × Draft) → Except Fault Issued × Draft
    | .ok (a, d') => (.ok (f a), d')
    | .error e => (.error e, d)

/-- Steps one after another, with what each has handed out. -/
def performAll (d : Draft) (ss : List Step) : List (Except Fault Issued) × Draft :=
  history perform d ss

theorem performAll_nil (d : Draft) : d.performAll [] = ([], d) := rfl

theorem performAll_cons (d : Draft) (s : Step) (ss : List Step) :
    d.performAll (s :: ss) = ((d.perform s).1 :: ((d.perform s).2.performAll ss).1,
      ((d.perform s).2.performAll ss).2) := history_cons perform d s ss

theorem performAll_append (d : Draft) (ss ts : List Step) :
    (d.performAll (ss ++ ts)).2 = ((d.performAll ss).2.performAll ts).2 :=
  history_append perform d ss ts

/-! ## Looking for a defect -/

variable (d : Draft)

/-- A temporary that was never allocated, or a register that the target does not have. -/
def tempDefect? (block : BlockId) (inst : Nat) (t : Temp) : Option Malformed :=
  match t with
  | .reg r =>
    let count := (d.registers.get r.bank).toNat
    if r.index < count then none else some (.registerOutOfRange block inst t count)
  | .virtual bank n =>
    let count := (d.temps.get bank).toNat
    if n.toNat < count then none else some (.tempOutOfRange block inst t count)

def operandDefect? (block : BlockId) (inst : Nat) (o : Operand) : Option Malformed :=
  match o.arg with
  | .temp t =>
    if t.bank = o.bank then d.tempDefect? block inst t
    else some (.bankMismatch block inst t o.bank)
  | .addr base _ =>
    if base.bank = .gp then d.tempDefect? block inst base
    else some (.baseNotGp block inst base)
  | .slot s =>
    if s.index < d.slots.size then none
    else some (.slotOutOfRange block inst s d.slots.size)
  | .imm _ => none

/-- A terminator before the block's last position `last` comes first, then the operands in order. -/
def instDefect? (block : BlockId) (last inst : Nat) (i : Inst) : Option Malformed :=
  if i.isTerminal ∧ inst ≠ last then some (.terminatorNotLast block inst i.opcode)
  else i.operands.findSome? (d.operandDefect? block inst)

/-- The edges that a block's terminator asks for, and targets that exist. -/
def edgeDefect? (block : BlockId) (opcode : Opcode) (expected : Nat) (successors : List BlockId) :
    Option Malformed :=
  if successors.length = expected then
    (successors.find? (d.blocks.size ≤ ·.index)).map fun s =>
      .successorOutOfRange block s d.blocks.size
  else some (.successorCount block opcode expected successors.length)

/-- The block's terminator comes first, then its edges, then its instructions in order. -/
def blockDefect? (block : BlockId) (b : DraftBlock) : Option Malformed :=
  match b.insts.back? with
  | none => some (.emptyBlock block)
  | some last =>
    match last.opcode.successorCount? with
    | none => some (.missingTerminator block last.opcode)
    | some expected =>
      (d.edgeDefect? block last.opcode expected b.successors).or
        (b.insts.toList.zipIdx.findSome? fun (i, n) =>
          d.instDefect? block (b.insts.size - 1) n i)

/-- The first defect of the first block that has one. -/
def defect? : Option Malformed :=
  d.blocks.toList.zipIdx.findSome? fun (b, n) => d.blockDefect? (.ofIndex n) b

/-! ## Freezing -/

/-- The blocks with an edge to a block, each once, in the order of their numbers. -/
def predecessors (b : BlockId) : List BlockId :=
  d.blocks.toList.zipIdx.filterMap fun (source, n) =>
    if b ∈ source.successors then some (.ofIndex n) else none

/-- The draft as a unit, with ids and predecessors filled in. -/
def freeze : Code where
  blocks := d.blocks.mapIdx fun n b =>
    ⟨.ofIndex n, b.insts, b.successors, d.predecessors (.ofIndex n)⟩
  temps := d.temps
  slots := d.slots
  registers := d.registers

/-- The unit that was built, or its first defect. -/
def finish : Except Malformed Code :=
  match d.defect? with
  | some m => .error m
  | none => .ok d.freeze

variable {d : Draft}

theorem finish_eq_ok {c : Code} : d.finish = .ok c ↔ d.defect? = none ∧ d.freeze = c := by
  unfold finish
  split <;> simp_all

theorem finish_eq_error {m : Malformed} : d.finish = .error m ↔ d.defect? = some m := by
  unfold finish
  split <;> simp_all

end Draft

end MachineLiveness
