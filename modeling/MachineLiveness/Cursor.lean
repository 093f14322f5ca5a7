import MachineLiveness.IndexSet
import MachineLiveness.Universe

/-!
A cursor that walks a block upward and knows what is live where it stands.

It starts at the tail. Moving above an instruction takes out what the instruction defines, puts in
what it uses early, and puts in what the instruction above it uses late: a late use outlives the
definitions of its own instruction, so it is live just below it. The late uses of the last
instruction have no instruction below them and belong to the tail.
-/

namespace MachineLiveness

/-- The instructions from `position` on have been passed. -/
structure Cursor where
  block : Block
  live : IndexSet
  position : Nat
  position_le : position ≤ block.insts.size

namespace Cursor

variable (c : Code) (u : Universe)

/-- Change the set with the index of one entity after another. -/
def alter (f : IndexSet → Nat → IndexSet) (live : IndexSet) (es : List u.Entity) :
    Except (Stopped IndexSet) IndexSet :=
  es.foldlM (fun live e => keeping live do
    let i ← u.indexOf c e
    live.guarded i (f live i)) live

/-- The set without some entities. -/
def kill (live : IndexSet) (es : List u.Entity) : Except (Stopped IndexSet) IndexSet :=
  alter c u IndexSet.erase live es

/-- The set with some entities. -/
def gen (live : IndexSet) (es : List u.Entity) : Except (Stopped IndexSet) IndexSet :=
  alter c u IndexSet.insert live es

/-- What is used late just above position `i` of a block. -/
def lateAbove (b : Block) : Nat → List u.Entity
  | 0 => []
  | i + 1 =>
    match b.insts[i]? with
    | some inst => u.lateUses inst
    | none => []

/-- What is live just above an instruction, from what is live just below it and what is used late
above it. -/
def transfer (inst : Inst) (late : List u.Entity) (live : IndexSet) :
    Except (Stopped IndexSet) IndexSet := do
  let live ← kill c u live (u.defines inst)
  let live ← gen c u live (u.earlyUses inst)
  gen c u live late

/-- A cursor at the tail of a block, which brings a scratch set of the size of the universe. -/
def start (b : Block) (tail : List Nat) (scratch : IndexSet) : Except Fault Cursor :=
  if scratch.bound = u.size c then do
    let live ← faultOnly (scratch.resetFrom tail)
    .ok ⟨b, live, b.insts.size, Nat.le_refl _⟩
  else .error (.scratchSize scratch.bound (u.size c))

/-- Move above instruction `i`, which must be above the cursor. Instructions between `i` and the
cursor are passed over without effect. -/
def execute (k : Cursor) (i : Nat) : Except (Stopped Cursor) Cursor :=
  if h : i < k.position then
    have hi : i < k.block.insts.size := Nat.lt_of_lt_of_le h k.position_le
    let moved (live : IndexSet) : Cursor := ⟨k.block, live, i, Nat.le_of_lt hi⟩
    within moved (transfer c u k.block.insts[i] (lateAbove u k.block i) k.live) |>.map moved
  else .error ⟨.outOfOrder i k.block.id k.position, k⟩

/-- Move above `n` instructions, from `i + n - 1` up to `i`. -/
def executeDown (k : Cursor) (i : Nat) : Nat → Except (Stopped Cursor) Cursor
  | 0 => .ok k
  | n + 1 => do
    let k ← k.execute c u (i + n)
    k.executeDown i n

/-- Move above every instruction from the cursor up to `i`. -/
def executeTo (k : Cursor) (i : Nat) : Except (Stopped Cursor) Cursor :=
  k.executeDown c u i (k.position - i)

/-- Move to the head of the block. -/
def executeAll (k : Cursor) : Except (Stopped Cursor) Cursor := k.executeTo c u 0

/-- The entities live at the cursor, in order. -/
def entities (k : Cursor) : Except Fault (List u.Entity) := k.live.ascending.mapM (u.entityAt c)

/-- Whether an entity is live at the cursor. -/
def isLive (k : Cursor) (e : u.Entity) : Except Fault Bool := do
  let i ← u.indexOf c e
  k.live.contains i

/-! ## Histories -/

/-- What may be asked of a cursor. -/
inductive Command (u : Universe) where
  | execute (i : Nat)
  | executeAll
  | isLive (e : u.Entity)

/-- Whether the entity of a question is live, or that the cursor has moved. -/
abbrev Answer := Except Fault (Option Bool)

/-- A command that stops leaves the cursor where it stopped. -/
def perform (k : Cursor) : Command u → Answer × Cursor
  | .execute i => settled (k.execute c u i)
  | .executeAll => settled (k.executeAll c u)
  | .isLive e => ((k.isLive c u e).map some, k)
where
  settled : Except (Stopped Cursor) Cursor → Answer × Cursor
    | .ok k => (.ok none, k)
    | .error e => (.error e.fault, e.state)

/-! ## The bound of the live set never changes -/

variable {c u}

theorem bound_of_alter {f : IndexSet → Nat → IndexSet} (hf : ∀ s i, (f s i).bound = s.bound)
    {live live' : IndexSet} {es : List u.Entity}
    (h : alter c u f live es = .ok live') : live'.bound = live.bound := by
  refine foldlM_keeps (P := fun l => l.bound = live.bound) ?_ rfl h
  intro l e l' hl he
  obtain ⟨i, _, hi⟩ := bind_eq_ok.1 (keeping_eq_ok.1 he)
  obtain ⟨_, rfl⟩ := IndexSet.guarded_eq_ok.1 hi
  rw [hf, hl]

theorem bound_of_kill {live live' : IndexSet} {es : List u.Entity}
    (h : kill c u live es = .ok live') : live'.bound = live.bound :=
  bound_of_alter IndexSet.bound_erase h

theorem bound_of_gen {live live' : IndexSet} {es : List u.Entity}
    (h : gen c u live es = .ok live') : live'.bound = live.bound :=
  bound_of_alter IndexSet.bound_insert h

theorem bound_of_transfer {inst : Inst} {late : List u.Entity} {live live' : IndexSet}
    (h : transfer c u inst late live = .ok live') : live'.bound = live.bound := by
  obtain ⟨l, hl, h⟩ := bind_eq_ok.1 h
  obtain ⟨m, hm, h⟩ := bind_eq_ok.1 h
  rw [bound_of_gen h, bound_of_gen hm, bound_of_kill hl]

theorem bound_of_execute {k k' : Cursor} {i : Nat} (h : k.execute c u i = .ok k') :
    k'.live.bound = k.live.bound := by
  unfold execute at h
  split at h
  · obtain ⟨l, hl, rfl⟩ := map_eq_ok.1 h
    exact bound_of_transfer (within_eq_ok.1 hl)
  · cases h

theorem bound_of_executeDown {k k' : Cursor} {i n : Nat} (h : k.executeDown c u i n = .ok k') :
    k'.live.bound = k.live.bound := by
  induction n generalizing k with
  | zero =>
    cases h
    rfl
  | succ n ih =>
    obtain ⟨l, hl, h⟩ := bind_eq_ok.1 h
    rw [ih h, bound_of_execute hl]

theorem bound_of_start {b : Block} {tail : List Nat} {scratch : IndexSet} {k : Cursor}
    (h : start c u b tail scratch = .ok k) : k.live.bound = u.size c := by
  unfold start at h
  split at h
  · rename_i hs
    obtain ⟨live, hl, h⟩ := bind_eq_ok.1 h
    cases h
    rw [IndexSet.bound_of_resetFrom (faultOnly_eq_ok.1 hl), hs]
  · cases h

end Cursor

end MachineLiveness
