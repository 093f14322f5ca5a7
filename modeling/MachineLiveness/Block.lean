import MachineLiveness.Inst

/-!
Basic blocks and compilation units, with their text.

A `Code` may be any list of blocks: nothing here says that ids are positions or that edges lead
anywhere. `MachineLiveness.Draft` builds those for which this holds.
-/

namespace MachineLiveness

/-- A block, named by its position in its unit. -/
structure BlockId where
  num : UInt32
  deriving DecidableEq, Repr

namespace BlockId

/-- The number as a position in a table. -/
def index (b : BlockId) : Nat := b.num.toNat

/-- The block at a position below `UInt32.size`. -/
def ofIndex (i : Nat) : BlockId := ⟨UInt32.ofNat i⟩

def text (b : BlockId) : String := "#" ++ toString b.index

theorem index_ofIndex {i : Nat} (h : i < UInt32.size) : (ofIndex i).index = i := by
  simp [ofIndex, index, UInt32.toNat_ofNat']
  omega

theorem index_inj {b c : BlockId} : b.index = c.index ↔ b = c := by
  cases b
  cases c
  simp [index, UInt32.toNat_inj]

end BlockId

/-- A basic block. Its last instruction is its terminator. -/
structure Block where
  id : BlockId
  insts : Array Inst
  successors : List BlockId
  predecessors : List BlockId
  deriving DecidableEq, Repr

/-- A line that names some blocks under a heading; no line if there are none. -/
def BlockId.line (heading : String) : List BlockId → String
  | [] => ""
  | bs => heading ++ String.join (bs.map fun b => " " ++ b.text) ++ "\n"

/-- The block's name, its predecessors, its instructions one a line, and its successors. -/
def Block.text (b : Block) : String :=
  "BB" ++ b.id.text ++ ":\n"
    ++ BlockId.line "  predecessors:" b.predecessors
    ++ String.join (b.insts.toList.map fun i => "    " ++ i.text ++ "\n")
    ++ BlockId.line "  successors:" b.successors

/-- A compilation unit; `temps` counts the virtual temporaries of each bank. -/
structure Code where
  blocks : Array Block
  temps : PerBank UInt32
  slots : Array Slot
  registers : RegisterFile
  deriving DecidableEq, Repr

namespace Code

/-- Number of physical registers in a bank. -/
def registerCount (c : Code) (b : Bank) : Nat := (c.registers.get b).toNat

/-- Number of virtual temporaries in a bank. -/
def tempCount (c : Code) (b : Bank) : Nat := (c.temps.get b).toNat

/-- The text of the blocks, one after another. -/
def text (c : Code) : String := String.join (c.blocks.toList.map Block.text)

end Code

end MachineLiveness
