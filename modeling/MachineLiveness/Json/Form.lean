import MachineLiveness.Block
import MachineLiveness.Json

/-!
The JSON form of a unit and of its parts: records are objects, ids are bare numbers, and a value of
one of several kinds is an object with the name of its kind. Reading checks the form and the ranges of
the numbers, and nothing about the graph.
-/

namespace MachineLiveness

/-! ## Names in data -/

def Role.tag : Role → String
  | .earlyUse => "EarlyUse"
  | .lateUse => "LateUse"
  | .define => "Def"
  | .useDefine => "UseDef"
  | .scratch => "Scratch"

def Role.all : List Role := [.earlyUse, .lateUse, .define, .useDefine, .scratch]

def Opcode.tag : Opcode → String
  | .nop => "Nop"
  | .move => "Move"
  | .add => "Add"
  | .sub => "Sub"
  | .mul => "Mul"
  | .swap => "Swap"
  | .load => "Load"
  | .store => "Store"
  | .call => "Call"
  | .patch => "Patch"
  | .jump => "Jump"
  | .branch => "Branch"
  | .ret => "Ret"
  | .oops => "Oops"

def SlotKind.tag : SlotKind → String
  | .locked => "Locked"
  | .spill => "Spill"

def SlotKind.all : List SlotKind := [.locked, .spill]

/-! ## Writing -/

def Bank.toJson (b : Bank) : Json := .str b.tag

def Role.toJson (r : Role) : Json := .str r.tag

def Opcode.toJson (o : Opcode) : Json := .str o.tag

def SlotKind.toJson (k : SlotKind) : Json := .str k.tag

def SlotId.toJson (s : SlotId) : Json := .int s.index

def BlockId.toJson (b : BlockId) : Json := .int b.index

def Reg.toJson (r : Reg) : Json := .obj [("bank", r.bank.toJson), ("num", .int r.index)]

def Temp.toJson : Temp → Json
  | .reg r => .ofVariant "Reg" r.toJson
  | .virtual b n => .ofVariant "Virtual" (.obj [("bank", b.toJson), ("index", .int n.toNat)])

def Arg.toJson : Arg → Json
  | .temp t => .ofVariant "Tmp" t.toJson
  | .slot s => .ofVariant "Stack" s.toJson
  | .imm v => .ofVariant "Imm" (.int v.toInt)
  | .addr base offset =>
    .ofVariant "Addr" (.obj [("base", base.toJson), ("offset", .int offset.toInt)])

def Operand.toJson (o : Operand) : Json :=
  .obj [("arg", o.arg.toJson), ("role", o.role.toJson), ("bank", o.bank.toJson)]

def Inst.toJson (i : Inst) : Json :=
  .obj [("opcode", i.opcode.toJson), ("args", .ofList Operand.toJson i.operands)]

def Block.toJson (b : Block) : Json :=
  .obj [("id", b.id.toJson), ("insts", .ofList Inst.toJson b.insts.toList),
    ("successors", .ofList BlockId.toJson b.successors),
    ("predecessors", .ofList BlockId.toJson b.predecessors)]

def Slot.toJson (s : Slot) : Json :=
  .obj [("byte_size", .int s.byteSize.toNat), ("kind", s.kind.toJson)]

def RegisterFile.toJson (r : RegisterFile) : Json :=
  .obj [("gp", .int r.gp.toNat), ("fp", .int r.fp.toNat)]

def Code.toJson (c : Code) : Json :=
  .obj [("blocks", .ofList Block.toJson c.blocks.toList),
    ("num_tmps", .arr [.int c.temps.gp.toNat, .int c.temps.fp.toNat]),
    ("stack_slots", .ofList Slot.toJson c.slots.toList),
    ("registers", RegisterFile.toJson c.registers)]

/-! ## Reading -/

def Bank.ofJson? (j : Json) : Option Bank := j.named? Bank.all Bank.tag

def Role.ofJson? (j : Json) : Option Role := j.named? Role.all Role.tag

def Opcode.ofJson? (j : Json) : Option Opcode := j.named? Opcode.all Opcode.tag

def SlotKind.ofJson? (j : Json) : Option SlotKind := j.named? SlotKind.all SlotKind.tag

def SlotId.ofJson? (j : Json) : Option SlotId := j.uint32?.map SlotId.mk

def BlockId.ofJson? (j : Json) : Option BlockId := j.uint32?.map BlockId.mk

def Reg.ofJson? (j : Json) : Option Reg := do
  let [bank, num] ← j.record? ["bank", "num"] | none
  some ⟨← Bank.ofJson? bank, ← num.uint8?⟩

def Temp.ofJson? (j : Json) : Option Temp := do
  match ← j.variant? with
  | ("Reg", j) => some (.reg (← Reg.ofJson? j))
  | ("Virtual", j) =>
    let [bank, index] ← j.fields? ["bank", "index"] | none
    some (.virtual (← Bank.ofJson? bank) (← index.uint32?))
  | _ => none

def Arg.ofJson? (j : Json) : Option Arg := do
  match ← j.variant? with
  | ("Tmp", j) => some (.temp (← Temp.ofJson? j))
  | ("Stack", j) => some (.slot (← SlotId.ofJson? j))
  | ("Imm", j) => some (.imm (← j.int64?))
  | ("Addr", j) =>
    let [base, offset] ← j.fields? ["base", "offset"] | none
    some (.addr (← Temp.ofJson? base) (← offset.int32?))
  | _ => none

def Operand.ofJson? (j : Json) : Option Operand := do
  let [arg, role, bank] ← j.record? ["arg", "role", "bank"] | none
  some ⟨← Arg.ofJson? arg, ← Role.ofJson? role, ← Bank.ofJson? bank⟩

def Inst.ofJson? (j : Json) : Option Inst := do
  let [opcode, args] ← j.record? ["opcode", "args"] | none
  some ⟨← Opcode.ofJson? opcode, ← args.list? Operand.ofJson?⟩

def Block.ofJson? (j : Json) : Option Block := do
  let [id, insts, successors, predecessors] ←
    j.record? ["id", "insts", "successors", "predecessors"] | none
  some ⟨← BlockId.ofJson? id, (← insts.list? Inst.ofJson?).toArray,
    ← successors.list? BlockId.ofJson?, ← predecessors.list? BlockId.ofJson?⟩

def Slot.ofJson? (j : Json) : Option Slot := do
  let [size, kind] ← j.record? ["byte_size", "kind"] | none
  some ⟨← size.uint32?, ← SlotKind.ofJson? kind⟩

def RegisterFile.ofJson? (j : Json) : Option RegisterFile := do
  let [gp, fp] ← j.record? ["gp", "fp"] | none
  some ⟨← gp.uint8?, ← fp.uint8?⟩

def Code.ofJson? (j : Json) : Option Code := do
  let [blocks, temps, slots, registers] ←
    j.record? ["blocks", "num_tmps", "stack_slots", "registers"] | none
  let [gp, fp] ← temps.list? Json.uint32? | none
  some ⟨(← blocks.list? Block.ofJson?).toArray, ⟨gp, fp⟩, (← slots.list? Slot.ofJson?).toArray,
    ← RegisterFile.ofJson? registers⟩

end MachineLiveness
