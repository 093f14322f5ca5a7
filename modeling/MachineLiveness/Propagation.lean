import MachineLiveness.Cursor
import MachineLiveness.Tables

/-!
The analysis. Every block's tail starts from the late uses of its terminator, and every block is
dirty. Visiting a dirty block walks it from tail to head, records at the head what was not found
there before, and adds that to the tails of the predecessors; a predecessor whose tail grew is dirty
again. Sweeps over the blocks, from the last to the first, go on until one makes no block dirty.

A sweep that makes a block dirty has added an index to a tail (`room_lt_of_sweep`), and a tail has
room for the indices below the size of the universe only: so the sweeps come to an end.

A tail is a set, and a visit may list its members in any order. `Propagation.run` lists them in
ascending order; `Propagation.runBy` in whatever order a `Listing` says.
-/

namespace MachineLiveness

/-- How each visit lists the members of a tail; the visits are numbered from 0. -/
abbrev Listing := Nat → Indices → List Nat

namespace Listing

/-- A listing names each member once. -/
def Lawful (order : Listing) : Prop := ∀ n t, (order n t).Perm t.toList

/-- Every visit lists the members in ascending order. -/
def ascending : Listing := fun _ t => t.toList

theorem lawful_ascending : ascending.Lawful := fun _ t => .refl t.toList

theorem Lawful.mem_iff {order : Listing} (h : order.Lawful) {n : Nat} {t : Indices} (x : Nat) :
    x ∈ order n t ↔ x ∈ t := (h n t).mem_iff.trans Std.ExtTreeSet.mem_toList

end Listing

/-- One visit of a dirty block: how many entries it found for the first time at the head. -/
structure Visit where
  block : BlockId
  found : Nat
  deriving DecidableEq, Repr

/-- Counts of a run. -/
structure Stats where
  sweeps : Nat
  blockVisits : Nat
  insertions : Nat
  deriving DecidableEq, Repr

/-- The state of a run between two visits. -/
structure Propagation where
  tables : Tables
  /-- The blocks whose tail may have grown since their last visit. -/
  dirty : Array Bool
  /-- A set without meaning of its own that one visit hands to the next. -/
  scratch : IndexSet
  /-- Whether the sweep has made a clean block dirty. -/
  changed : Bool
  stats : Stats
  visits : Array Visit

namespace Propagation

variable (c : Code) (u : Universe)

/-! ## Starting -/

/-- Add the late uses of a block's terminator to its tail. -/
def seedBlock (t : Tables) (b : Block) : Except Fault Tables := do
  let last ← b.terminator
  (u.lateUses last).foldlM (fun t e => do
    let i ← u.indexOf c e
    let (_, t) ← t.addToTail b.id i
    .ok t) t

/-- The tails that hold the late uses of the terminators. -/
def seed : Except Fault Tables := c.blocks.toList.foldlM (seedBlock c u) (.empty c.blocks.size)

/-- A run over these tables in which every block is dirty. -/
def ofTables (t : Tables) : Propagation where
  tables := t
  dirty := .replicate c.blocks.size true
  scratch := .empty (u.size c)
  changed := false
  stats := ⟨0, 0, 0⟩
  visits := #[]

/-! ## Visiting a block -/

/-- The indices at the head of a block that are not recorded there. Recorded entries never leave the
head, so if the counts agree there are none. -/
def discover (order : Listing) (p : Propagation) (b : Block) : Except Fault IndexSet := do
  let tail ← p.tables.tail b.id
  let start ← Cursor.start c u b (order p.visits.size tail) p.scratch
  let top ← faultOnly (start.executeAll c u)
  let head ← p.tables.head b.id
  if top.live.size = head.length then .ok top.live.clear
  else faultOnly (top.live.removeAll head)

/-- The block is clean, and the visit and what it found are on the books. -/
def note (p : Propagation) (b : Block) (found : IndexSet) : Propagation :=
  { p with
    dirty := p.dirty.setIfInBounds b.id.index false
    scratch := found
    stats := { p.stats with
      blockVisits := p.stats.blockVisits + 1
      insertions := p.stats.insertions + found.size }
    visits := p.visits.push ⟨b.id, found.size⟩ }

/-- Add an index to the tail of a block, which becomes dirty if the index is new there. -/
def push (p : Propagation) (pred : BlockId) (i : Nat) : Except Fault Propagation := do
  let (new, tables) ← p.tables.addToTail pred i
  let p := { p with tables }
  if new then
    let dirty ← entry p.dirty pred.index
    .ok { p with
      dirty := p.dirty.setIfInBounds pred.index true
      changed := p.changed || !dirty }
  else .ok p

/-- Record what was found at the head of a block and pass it on to the predecessors. -/
def publish (p : Propagation) (b : Block) (found : List Nat) : Except Fault Propagation := do
  let tables ← p.tables.extendHead b.id found
  b.predecessors.foldlM (fun p pred => found.foldlM (fun p i => p.push pred i) p)
    { p with tables }

/-- Visit a block if it is dirty. -/
def visitBy (order : Listing) (p : Propagation) (b : Block) :
    Except (Stopped Propagation) Propagation := do
  let dirty ← keeping p (entry p.dirty b.id.index)
  if dirty then
    let found ← keeping p (p.discover c u order b)
    let p := p.note b found
    keeping p (p.publish b found.toList)
  else .ok p

def visit (p : Propagation) (b : Block) : Except (Stopped Propagation) Propagation :=
  p.visitBy c u .ascending b

/-! ## Sweeping -/

/-- A sweep begins. -/
def beginSweep (p : Propagation) : Propagation :=
  { p with changed := false, stats := { p.stats with sweeps := p.stats.sweeps + 1 } }

/-- Visit the dirty blocks from the last to the first. -/
def sweepBy (order : Listing) (p : Propagation) : Except (Stopped Propagation) Propagation :=
  c.blocks.toList.reverse.foldlM (visitBy c u order) p.beginSweep

def sweep (p : Propagation) : Except (Stopped Propagation) Propagation := p.sweepBy c u .ascending

/-! ## Sweeps come to an end -/

/-- How many of the indices below `n` a set has room for. -/
def roomFor (n : Nat) (t : Indices) : Nat := (List.range n).countP fun i => !t.contains i

/-- The sum of a number for each member of a list. -/
def total {α : Type} (f : α → Nat) : List α → Nat
  | [] => 0
  | a :: as => f a + total f as

/-- How many indices of the universe the tails have room for. -/
def room (p : Propagation) : Nat := total (roomFor (u.size c)) p.tables.tails.toList

theorem roomFor_insert_le (n : Nat) (t : Indices) (i : Nat) :
    roomFor n (t.insert i) ≤ roomFor n t := by
  refine List.countP_mono_left fun j _ hj => ?_
  simp only [Std.ExtTreeSet.contains_insert, Bool.not_or, Bool.and_eq_true] at hj
  exact hj.2

theorem roomFor_insert_lt {n : Nat} {t : Indices} {i : Nat} (hi : i < n)
    (ht : t.contains i = false) : roomFor n (t.insert i) < roomFor n t := by
  have hmem : i ∈ List.range n := List.mem_range.2 hi
  obtain ⟨l, r, hlr⟩ := List.append_of_mem hmem
  have hle (s : List Nat) : s.countP (fun j => !(t.insert i).contains j) ≤
      s.countP fun j => !t.contains j := by
    refine List.countP_mono_left fun j _ hj => ?_
    simp only [Std.ExtTreeSet.contains_insert, Bool.not_or, Bool.and_eq_true] at hj
    exact hj.2
  have hl := hle l
  have hr := hle r
  rw [roomFor, roomFor, hlr, List.countP_append, List.countP_append,
    List.countP_cons_of_neg (by simp), List.countP_cons_of_pos (by simp [ht])]
  omega

theorem total_set {α : Type} (f : α → Nat) (l : List α) (k : Nat) (hk : k < l.length) (a : α) :
    total f (l.set k a) + f l[k] = total f l + f a := by
  induction l generalizing k with
  | nil => simp at hk
  | cons b l ih =>
    cases k with
    | zero =>
      simp only [List.set_cons_zero, total, List.getElem_cons_zero]
      omega
    | succ k =>
      have := ih k (by simpa using hk)
      simp only [List.set_cons_succ, total, List.getElem_cons_succ]
      omega

variable {c u} {order : Listing}

theorem bound_of_discover {p : Propagation} {b : Block} {found : IndexSet}
    (h : p.discover c u order b = .ok found) : found.bound = u.size c := by
  unfold discover at h
  obtain ⟨tail, _, h⟩ := bind_eq_ok.1 h
  obtain ⟨start, hstart, h⟩ := bind_eq_ok.1 h
  obtain ⟨top, htop, h⟩ := bind_eq_ok.1 h
  obtain ⟨head, _, h⟩ := bind_eq_ok.1 h
  have hbound : top.live.bound = u.size c := by
    rw [Cursor.bound_of_executeDown (faultOnly_eq_ok.1 htop), Cursor.bound_of_start hstart]
  split at h
  · cases h
    exact hbound
  · rw [IndexSet.bound_of_removeAll (faultOnly_eq_ok.1 h), hbound]

/-- Between `p` and `q` no tail has lost an index, and a clean block has become dirty only if some
tail has gained one. -/
def Leads (c : Code) (u : Universe) (p q : Propagation) : Prop :=
  q.room c u ≤ p.room c u ∧ (q.changed = true → p.changed = true ∨ q.room c u < p.room c u)

theorem Leads.refl (p : Propagation) : Leads c u p p := ⟨Nat.le_refl _, Or.inl⟩

theorem Leads.trans {p q r : Propagation} (hpq : Leads c u p q) (hqr : Leads c u q r) :
    Leads c u p r := by
  obtain ⟨hpq, hq⟩ := hpq
  obtain ⟨hqr, hr⟩ := hqr
  refine ⟨Nat.le_trans hqr hpq, fun h => ?_⟩
  rcases hr h with h | h
  · rcases hq h with h | h
    · exact .inl h
    · exact .inr (by omega)
  · exact .inr (by omega)

theorem leads_of_push {p q : Propagation} {b : BlockId} {i : Nat} (hi : i < u.size c)
    (h : p.push b i = .ok q) : Leads c u p q := by
  unfold push at h
  obtain ⟨⟨new, tables⟩, ht, h⟩ := bind_eq_ok.1 h
  unfold Tables.addToTail at ht
  split at ht
  · rename_i hb
    injection ht with ht
    injection ht with hnew htables
    subst hnew htables
    have hsum := total_set (roomFor (u.size c)) p.tables.tails.toList b.index (by simpa using hb)
      (p.tables.tails[b.index].insert i)
    simp only [Array.getElem_toList] at hsum
    dsimp only at h
    split at h
    · rename_i hnew
      obtain ⟨dirty, _, h⟩ := bind_eq_ok.1 h
      cases h
      have hlt := roomFor_insert_lt hi (by simpa using hnew)
      have hroom : p.room c u = total (roomFor (u.size c)) p.tables.tails.toList := rfl
      have hlt : total (roomFor (u.size c))
          (p.tables.tails.toList.set b.index (p.tables.tails[b.index].insert i)) < p.room c u := by
        omega
      constructor
      · simpa [room] using Nat.le_of_lt hlt
      · intro _
        right
        simpa [room] using hlt
    · cases h
      have hle := roomFor_insert_le (u.size c) p.tables.tails[b.index] i
      have hroom : p.room c u = total (roomFor (u.size c)) p.tables.tails.toList := rfl
      have hle : total (roomFor (u.size c))
          (p.tables.tails.toList.set b.index (p.tables.tails[b.index].insert i)) ≤ p.room c u := by
        omega
      exact ⟨by simpa [room] using hle, .inl⟩
  · cases ht

theorem leads_of_publish {p q : Propagation} {b : Block} {found : List Nat}
    (hf : ∀ i ∈ found, i < u.size c) (h : p.publish b found = .ok q) : Leads c u p q := by
  obtain ⟨tables, ht, h⟩ := bind_eq_ok.1 h
  have htails : tables.tails = p.tables.tails := by
    unfold Tables.extendHead at ht
    split at ht
    · split at ht
      · cases ht
      · cases ht
        rfl
    · cases ht
  have hstart : Leads c u p { p with tables } := by
    constructor
    · simp [room, htails]
    · exact .inl
  refine foldlM_keeps (P := Leads c u p) ?_ hstart h
  intro r pred r' hr h
  refine foldlM_keeps_mem (P := Leads c u p) ?_ hr h
  intro r i hi r' hr h
  exact hr.trans (leads_of_push (hf i hi) h)

theorem leads_of_visit {p q : Propagation} {b : Block} (h : p.visitBy c u order b = .ok q) :
    Leads c u p q := by
  obtain ⟨dirty, _, h⟩ := bind_eq_ok.1 h
  split at h
  · obtain ⟨found, hfound, h⟩ := bind_eq_ok.1 h
    have hbound := bound_of_discover (keeping_eq_ok.1 hfound)
    have hlt : ∀ i ∈ found.toList, i < u.size c := fun i hi => by
      rw [← hbound]
      exact IndexSet.lt_bound hi
    have hnote : Leads c u p (p.note b found) := .refl p
    have hpublish : keeping (p.note b found) ((p.note b found).publish b found.toList) = .ok q := h
    exact hnote.trans (leads_of_publish hlt (keeping_eq_ok.1 hpublish))
  · cases h
    exact .refl p

theorem room_lt_of_sweep {p q : Propagation} (h : p.sweepBy c u order = .ok q)
    (hq : q.changed = true) : q.room c u < p.room c u := by
  have hleads : Leads c u p.beginSweep q :=
    foldlM_keeps (P := Leads c u p.beginSweep)
      (fun _ _ _ hr h => hr.trans (leads_of_visit h)) (.refl _) h
  rcases hleads.2 hq with hc | hr
  · cases hc
  · exact hr

variable (c u)

/-- Sweep until no block becomes dirty. -/
def settleBy (order : Listing) (p : Propagation) : Except (Stopped Propagation) Propagation :=
  match h : p.sweepBy c u order with
  | .error e => .error e
  | .ok q =>
    if hq : q.changed = true then
      have : q.room c u < p.room c u := room_lt_of_sweep h hq
      settleBy order q
    else .ok q
termination_by p.room c u

def settle (p : Propagation) : Except (Stopped Propagation) Propagation := p.settleBy c u .ascending

/-- The whole run. -/
def runBy (order : Listing) : Except (Stopped Propagation) Propagation := do
  let tables ← keeping (ofTables c u (.empty c.blocks.size)) (seed c u)
  (ofTables c u tables).settleBy c u order

def run : Except (Stopped Propagation) Propagation := runBy c u .ascending

end Propagation

end MachineLiveness
