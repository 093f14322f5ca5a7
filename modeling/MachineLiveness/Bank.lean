/-!
Register banks, and tables that hold one value for each bank.
-/

namespace MachineLiveness

/-- A class of registers: general purpose or floating point. -/
inductive Bank where
  | gp
  | fp
  deriving DecidableEq, Repr

namespace Bank

/-- Both banks, in the order of their numbers. -/
def all : List Bank := [.gp, .fp]

/-- Number of a bank among the banks. -/
def index : Bank → Nat
  | .gp => 0
  | .fp => 1

def text : Bank → String
  | .gp => "gp"
  | .fp => "fp"

/-- The name of a bank in data and in diagnostics. -/
def tag : Bank → String
  | .gp => "Gp"
  | .fp => "Fp"

theorem mem_all (b : Bank) : b ∈ all := by
  cases b <;> simp [all]

theorem index_inj {b c : Bank} : b.index = c.index ↔ b = c := by
  cases b <;> cases c <;> simp [index]

end Bank

/-- One value for each bank. -/
structure PerBank (α : Type) where
  gp : α
  fp : α
  deriving DecidableEq, Repr

namespace PerBank

variable {α : Type}

def get (t : PerBank α) : Bank → α
  | .gp => t.gp
  | .fp => t.fp

def set (t : PerBank α) (b : Bank) (a : α) : PerBank α :=
  match b with
  | .gp => { t with gp := a }
  | .fp => { t with fp := a }

theorem get_set (t : PerBank α) (b c : Bank) (a : α) :
    (t.set b a).get c = if b = c then a else t.get c := by
  cases b <;> cases c <;> rfl

theorem ext_get {s t : PerBank α} (h : ∀ b, s.get b = t.get b) : s = t := by
  cases s
  cases t
  simpa [get] using And.intro (h .gp) (h .fp)

end PerBank

/-- How many physical registers the target has in each bank. -/
abbrev RegisterFile := PerBank UInt8

/-- The usual target: 32 registers in each bank. -/
def RegisterFile.standard : RegisterFile := ⟨32, 32⟩

end MachineLiveness
