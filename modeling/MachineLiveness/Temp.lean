import MachineLiveness.Bank

/-!
Temporaries: the physical registers of the target and the virtual ones that code may use without
limit. `Temp.lt` is the order in which sets of them are listed.
-/

namespace MachineLiveness

/-- A physical register: its number within a bank. -/
structure Reg where
  bank : Bank
  num : UInt8
  deriving DecidableEq, Repr

/-- The number as a position in a table. -/
def Reg.index (r : Reg) : Nat := r.num.toNat

/-- A temporary: a physical register, or a virtual one, numbered per bank from 0. -/
inductive Temp where
  | reg (r : Reg)
  | virtual (bank : Bank) (num : UInt32)
  deriving DecidableEq, Repr

namespace Temp

def bank : Temp → Bank
  | .reg r => r.bank
  | .virtual b _ => b

/-- The register that a temporary is, if it is physical. -/
def reg? : Temp → Option Reg
  | .reg r => some r
  | .virtual _ _ => none

/-- Number of a temporary among those of its kind and bank. -/
def index : Temp → Nat
  | .reg r => r.index
  | .virtual _ n => n.toNat

/-- The four spellings tell the kind and the bank: `%r`, `%f`, `%tmp` and `%ftmp`. -/
def sigil : Temp → String
  | .reg ⟨.gp, _⟩ => "%r"
  | .reg ⟨.fp, _⟩ => "%f"
  | .virtual .gp _ => "%tmp"
  | .virtual .fp _ => "%ftmp"

def text (t : Temp) : String := t.sigil ++ toString t.index

/-- Registers come before virtual temporaries, then gp before fp, then by number. -/
def lt : Temp → Temp → Prop
  | .reg r, .reg s => r.bank.index < s.bank.index ∨ r.bank = s.bank ∧ r.num < s.num
  | .reg _, .virtual _ _ => True
  | .virtual _ _, .reg _ => False
  | .virtual b m, .virtual c n => b.index < c.index ∨ b = c ∧ m < n

instance : LT Temp := ⟨lt⟩

instance (s t : Temp) : Decidable (lt s t) := by
  cases s <;> cases t <;> unfold lt <;> infer_instance

instance : DecidableLT Temp := fun s t => inferInstanceAs (Decidable (lt s t))

/-- A list of temporaries in order, repetitions kept. -/
def sort (ts : List Temp) : List Temp := ts.mergeSort fun s t => !decide (t < s)

theorem sort_perm (ts : List Temp) : (sort ts).Perm ts := List.mergeSort_perm ts _

end Temp

end MachineLiveness
