import MachineLiveness.Slot
import MachineLiveness.Temp

/-!
Operands of an instruction: what each one names, and when the instruction reads or writes it.
-/

namespace MachineLiveness

/-- What an operand names. -/
inductive Arg where
  | temp (t : Temp)
  | slot (s : SlotId)
  | imm (value : Int64)
  /-- Memory at `base + offset`. The base is read before the access, whatever the operand's role. -/
  | addr (base : Temp) (offset : Int32)
  deriving DecidableEq, Repr

def Arg.text : Arg → String
  | .temp t => t.text
  | .slot s => "(" ++ s.text ++ ")"
  | .imm v => "$" ++ toString v.toInt
  | .addr base offset => toString offset.toInt ++ "(" ++ base.text ++ ")"

/-- When an instruction reads or writes an operand. -/
inductive Role where
  /-- Read before the instruction executes. -/
  | earlyUse
  /-- Read after the instruction's own writes, so that the value outlives the instruction. -/
  | lateUse
  /-- Written by the instruction. -/
  | define
  /-- Read early and then written. -/
  | useDefine
  /-- Overwritten at any time while the instruction executes. -/
  | scratch
  deriving DecidableEq, Repr

namespace Role

def isEarlyUse : Role → Bool
  | .earlyUse | .useDefine => true
  | .lateUse | .define | .scratch => false

def isLateUse : Role → Bool
  | .lateUse | .scratch => true
  | .earlyUse | .define | .useDefine => false

def isDefine : Role → Bool
  | .define | .useDefine | .scratch => true
  | .earlyUse | .lateUse => false

theorem isEarlyUse_iff {r : Role} : r.isEarlyUse = true ↔ r = .earlyUse ∨ r = .useDefine := by
  cases r <;> simp [isEarlyUse]

theorem isLateUse_iff {r : Role} : r.isLateUse = true ↔ r = .lateUse ∨ r = .scratch := by
  cases r <;> simp [isLateUse]

theorem isDefine_iff {r : Role} :
    r.isDefine = true ↔ r = .define ∨ r = .useDefine ∨ r = .scratch := by
  cases r <;> simp [isDefine]

/-- What follows an operand in the text of an instruction; an early use is the plain case. -/
def tail : Role → String
  | .earlyUse => ""
  | .lateUse => ":late"
  | .define => ":def"
  | .useDefine => ":usedef"
  | .scratch => ":scratch"

end Role

/-- An operand; `bank` is the bank of the value that it carries. -/
structure Operand where
  arg : Arg
  role : Role
  bank : Bank
  deriving DecidableEq, Repr

namespace Operand

/-- A temporary as an operand of its own bank. -/
def ofTemp (t : Temp) (role : Role) : Operand := ⟨.temp t, role, t.bank⟩

/-- A constant is an early use of the general-purpose bank. -/
def ofImm (value : Int64) : Operand := ⟨.imm value, .earlyUse, .gp⟩

def text (o : Operand) : String := o.arg.text ++ o.role.tail

end Operand

end MachineLiveness
