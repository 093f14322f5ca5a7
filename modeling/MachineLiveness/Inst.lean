import MachineLiveness.Operand

/-!
Instructions: an opcode with its operands, and the temporaries and slots that they mention.
-/

namespace MachineLiveness

inductive Opcode where
  | nop
  | move
  | add
  | sub
  | mul
  /-- Exchanges two operands in place. -/
  | swap
  | load
  | store
  | call
  /-- An opaque instruction; its operands' roles say all there is to know. -/
  | patch
  | jump
  | branch
  | ret
  /-- A trap that is never reached. -/
  | oops
  deriving DecidableEq, Repr

namespace Opcode

def all : List Opcode :=
  [.nop, .move, .add, .sub, .mul, .swap, .load, .store, .call, .patch, .jump, .branch, .ret, .oops]

theorem mem_all (o : Opcode) : o ∈ all := by
  cases o <;> decide

def name : Opcode → String
  | .nop => "nop"
  | .move => "move"
  | .add => "add"
  | .sub => "sub"
  | .mul => "mul"
  | .swap => "swap"
  | .load => "load"
  | .store => "store"
  | .call => "call"
  | .patch => "patch"
  | .jump => "jump"
  | .branch => "branch"
  | .ret => "ret"
  | .oops => "oops"

/-- How many edges leave a block that ends in this opcode; none is given for an opcode that does
not end a block. -/
def successorCount? : Opcode → Option Nat
  | .jump => some 1
  | .branch => some 2
  | .ret | .oops => some 0
  | _ => none

/-- Whether the opcode ends a block. -/
def isTerminal (o : Opcode) : Bool := o.successorCount?.isSome

end Opcode

structure Inst where
  opcode : Opcode
  operands : List Operand
  deriving DecidableEq, Repr

/-- One place where an instruction names an entity. -/
structure Mention (α : Type) where
  entity : α
  role : Role
  bank : Bank
  deriving DecidableEq, Repr

/-- The base of an address is an early use in its own bank. -/
def Operand.temp? (o : Operand) : Option (Mention Temp) :=
  match o.arg with
  | .temp t => some ⟨t, o.role, o.bank⟩
  | .addr base _ => some ⟨base, .earlyUse, base.bank⟩
  | .slot _ | .imm _ => none

def Operand.slot? (o : Operand) : Option (Mention SlotId) :=
  match o.arg with
  | .slot s => some ⟨s, o.role, o.bank⟩
  | .temp _ | .addr _ _ | .imm _ => none

theorem Operand.temp?_eq_some {o : Operand} {m : Mention Temp} :
    o.temp? = some m ↔ o.arg = .temp m.entity ∧ m.role = o.role ∧ m.bank = o.bank ∨
      (∃ offset, o.arg = .addr m.entity offset) ∧ m.role = .earlyUse ∧ m.bank = m.entity.bank := by
  obtain ⟨e, r, b⟩ := m
  unfold Operand.temp?
  cases o.arg with
  | temp t => simp [eq_comm]
  | addr base offset => simp +contextual [and_comm, eq_comm]
  | slot s => simp
  | imm v => simp

theorem Operand.slot?_eq_some {o : Operand} {m : Mention SlotId} :
    o.slot? = some m ↔ o.arg = .slot m.entity ∧ m.role = o.role ∧ m.bank = o.bank := by
  obtain ⟨e, r, b⟩ := m
  unfold Operand.slot?
  cases o.arg with
  | slot s => simp [eq_comm]
  | temp t => simp
  | addr base offset => simp
  | imm v => simp

namespace Inst

/-- Whether the instruction ends a block. -/
def isTerminal (i : Inst) : Bool := i.opcode.isTerminal

/-- The temporaries that the instruction mentions, operand by operand. -/
def temps (i : Inst) : List (Mention Temp) := i.operands.filterMap Operand.temp?

/-- The slots that the instruction mentions, operand by operand. -/
def slots (i : Inst) : List (Mention SlotId) := i.operands.filterMap Operand.slot?

/-- The opcode, a blank, and the operands with a comma and a blank between them. -/
def text (i : Inst) : String :=
  match i.operands with
  | [] => i.opcode.name
  | os => i.opcode.name ++ " " ++ String.intercalate ", " (os.map Operand.text)

end Inst

end MachineLiveness
