import MachineLiveness.Propagation

/-!
The result of the analysis and the questions it answers: what is live at the tail and at the head of
a block, and, through a cursor, at every place inside.
-/

namespace MachineLiveness

/-- What is live at the tail of every block of a unit, in one universe. -/
structure Liveness (u : Universe) where
  code : Code
  tails : Array Indices
  stats : Stats

namespace Liveness

variable {u : Universe}

/-- What a finished run found out. -/
def ofRun (c : Code) (u : Universe) (p : Propagation) : Liveness u := ⟨c, p.tables.tails, p.stats⟩

/-- The liveness of one universe over a unit. -/
def compute (c : Code) (u : Universe) : Except Fault (Liveness u) :=
  (faultOnly (Propagation.run c u)).map (ofRun c u)

/-- The indices live at the tail of a block. -/
def tailIndices (l : Liveness u) (b : BlockId) : Except Fault Indices := entry l.tails b.index

/-- The entities live at the tail of a block, in order. -/
def atTail (l : Liveness u) (b : BlockId) : Except Fault (List u.Entity) := do
  let tail ← l.tailIndices b
  tail.toList.mapM (u.entityAt l.code)

def isLiveAtTail (l : Liveness u) (b : BlockId) (e : u.Entity) : Except Fault Bool := do
  let tail ← l.tailIndices b
  let i ← u.indexOf l.code e
  .ok (tail.contains i)

/-- A cursor at the tail of a block. -/
def cursor (l : Liveness u) (b : Block) : Except Fault Cursor := do
  let tail ← l.tailIndices b.id
  Cursor.start l.code u b tail.toList (.empty (u.size l.code))

/-- The entities live just above position `i` of a block, in order. -/
def above (l : Liveness u) (b : Block) (i : Nat) : Except Fault (List u.Entity) := do
  let start ← l.cursor b
  let k ← faultOnly (start.executeTo l.code u i)
  k.entities l.code u

/-- The entities live at the head of a block, in order. -/
def atHead (l : Liveness u) (b : Block) : Except Fault (List u.Entity) := l.above b 0

/-- The entities live above each instruction of a block, from the last instruction to the first. -/
def walk (l : Liveness u) (b : Block) : Except Fault (List (List u.Entity)) :=
  (List.range b.insts.size).reverse.mapM (l.above b)

end Liveness

/-- The liveness of all universes over a unit. -/
structure CodeLiveness where
  gp : Liveness (.temps .gp)
  fp : Liveness (.temps .fp)
  slots : Liveness .slots

namespace CodeLiveness

/-- The universes are independent; of several faults the first in the order of the universes counts. -/
def compute (c : Code) : Except Fault CodeLiveness := do
  let gp ← Liveness.compute c (.temps .gp)
  let fp ← Liveness.compute c (.temps .fp)
  let slots ← Liveness.compute c .slots
  .ok ⟨gp, fp, slots⟩

/-- The liveness of one of the universes. -/
def get (l : CodeLiveness) : (u : Universe) → Liveness u
  | .temps .gp => l.gp
  | .temps .fp => l.fp
  | .slots => l.slots

end CodeLiveness

end MachineLiveness
