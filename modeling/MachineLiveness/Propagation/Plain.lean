import MachineLiveness.Propagation

/-!
The analysis without shortcuts. Each visit takes a new scratch set, lists the tail in an order of its
own choice, and always compares the whole head with what is recorded.
-/

namespace MachineLiveness

structure PlainRun where
  tables : Tables
  dirty : Array Bool
  changed : Bool
  stats : Stats
  visits : Array Visit

namespace PlainRun

variable (c : Code) (u : Universe)

/-- A run over these tables in which every block is dirty. -/
def ofTables (t : Tables) : PlainRun where
  tables := t
  dirty := .replicate c.blocks.size true
  changed := false
  stats := ⟨0, 0, 0⟩
  visits := #[]

/-- The indices at the head of a block that are not recorded there. -/
def discover (order : Listing) (p : PlainRun) (b : Block) : Except Fault (List Nat) := do
  let tail ← p.tables.tail b.id
  let start ← Cursor.start c u b (order p.visits.size tail) (.empty (u.size c))
  let top ← faultOnly (start.executeAll c u)
  let head ← p.tables.head b.id
  .ok (top.live.toList.filter (· ∉ head))

def push (p : PlainRun) (pred : BlockId) (i : Nat) : Except Fault PlainRun := do
  let (new, tables) ← p.tables.addToTail pred i
  let p := { p with tables }
  if new then
    let dirty ← entry p.dirty pred.index
    .ok { p with
      dirty := p.dirty.setIfInBounds pred.index true
      changed := p.changed || !dirty }
  else .ok p

/-- Visit a block if it is dirty. -/
def visit (order : Listing) (p : PlainRun) (b : Block) : Except Fault PlainRun := do
  let dirty ← entry p.dirty b.id.index
  if dirty then
    let found ← discover c u order p b
    let p := { p with
      dirty := p.dirty.setIfInBounds b.id.index false
      stats := { p.stats with
        blockVisits := p.stats.blockVisits + 1
        insertions := p.stats.insertions + found.length }
      visits := p.visits.push ⟨b.id, found.length⟩ }
    let tables ← p.tables.extendHead b.id found
    b.predecessors.foldlM (fun p pred => found.foldlM (fun p i => p.push pred i) p) { p with tables }
  else .ok p

/-- Visit the dirty blocks from the last to the first. -/
def sweep (order : Listing) (p : PlainRun) : Except Fault PlainRun :=
  c.blocks.toList.reverse.foldlM (visit c u order)
    { p with changed := false, stats := { p.stats with sweeps := p.stats.sweeps + 1 } }

/-- Sweeps that lead to a state which makes no block dirty. -/
inductive Settles (order : Listing) : PlainRun → PlainRun → Prop where
  | last {p q : PlainRun} (h : p.sweep c u order = .ok q) (hq : q.changed = false) :
      Settles order p q
  | more {p q r : PlainRun} (h : p.sweep c u order = .ok q) (hq : q.changed = true)
      (rest : Settles order q r) : Settles order p r

/-- The whole run ends in this state. -/
def Ends (order : Listing) (q : PlainRun) : Prop :=
  ∃ t, Propagation.seed c u = .ok t ∧ Settles c u order (ofTables c t) q

end PlainRun

end MachineLiveness
