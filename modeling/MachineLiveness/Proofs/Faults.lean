import MachineLiveness.Proofs.Visit

/-!
Why a run over a unit can stop, whatever the unit is. To record an index at a head a second time is a
fault, but no run has it: what a visit records is what is left when everything recorded has been taken
out (`not_mem_headAt_of_discover`), in whatever state the visit begins. Every other operation stops
for reasons of its own.
-/

namespace MachineLiveness

/-! ## Operations that stop for such reasons only -/

/-- Whatever stops the operation is of this kind. -/
def StopsFor {ε α : Type} (P : ε → Prop) (x : Except ε α) : Prop := ∀ e, x = .error e → P e

namespace StopsFor

variable {ε α β σ τ : Type} {P : ε → Prop} {Q : Fault → Prop}

theorem ok (a : α) : StopsFor P (.ok a) := fun _ h => by cases h

theorem error {e : ε} (h : P e) : StopsFor P (.error e : Except ε α) := by
  intro e' h'
  cases h'
  exact h

/-- The second operation need only be looked at for what the first one gives. -/
theorem bind {x : Except ε α} {f : α → Except ε β} (hx : StopsFor P x)
    (hf : ∀ a, x = .ok a → StopsFor P (f a)) : StopsFor P (x >>= f) := by
  cases x with
  | error e => exact .error (hx e rfl)
  | ok a => exact hf a rfl

theorem map {x : Except ε α} {f : α → β} (hx : StopsFor P x) : StopsFor P (x.map f) := by
  cases x with
  | error e => exact .error (hx e rfl)
  | ok a => exact .ok (f a)

theorem foldlM {f : σ → α → Except ε σ} (hf : ∀ s a, StopsFor P (f s a)) (l : List α) (s : σ) :
    StopsFor P (l.foldlM f s) := by
  induction l generalizing s with
  | nil => exact .ok s
  | cons a l ih =>
    rw [List.foldlM_cons]
    exact .bind (hf s a) fun t _ => ih t

theorem keeping {state : σ} {x : Except Fault α} (h : StopsFor Q x) :
    StopsFor (fun e => Q e.fault) (keeping state x) := by
  cases x with
  | error f => exact .error (h f rfl)
  | ok a => exact .ok a

theorem within {put : τ → σ} {x : Except (Stopped τ) α} (h : StopsFor (fun e => Q e.fault) x) :
    StopsFor (fun e => Q e.fault) (within put x) := by
  cases x with
  | error e => exact .error (h e rfl)
  | ok a => exact .ok a

theorem faultOnly {x : Except (Stopped σ) α} (h : StopsFor (fun e => Q e.fault) x) :
    StopsFor Q (faultOnly x) := by
  cases x with
  | error e => exact .error (h e rfl)
  | ok a => exact .ok a

end StopsFor

/-! ## Faults other than recording twice -/

/-- Nothing was to be recorded that is recorded already. -/
def Fault.Unrepeated (f : Fault) : Prop := ∀ b is, f ≠ .alreadyRecorded b is

/-- The operation never stops because something is recorded already. -/
abbrev Unrepeated {α : Type} (x : Except Fault α) : Prop := StopsFor Fault.Unrepeated x

/-- The operation never stops because something is recorded already. -/
abbrev UnrepeatedStop {σ α : Type} (x : Except (Stopped σ) α) : Prop :=
  StopsFor (fun e => Fault.Unrepeated e.fault) x

theorem unrepeated_entry {α : Type} (table : Array α) (i : Nat) : Unrepeated (entry table i) := by
  unfold entry
  split
  · exact .ok _
  · exact .error fun _ _ h => by cases h

theorem unrepeated_terminator (b : Block) : Unrepeated b.terminator := by
  unfold Block.terminator
  split
  · exact .ok _
  · exact .error fun _ _ h => by cases h

theorem unrepeated_tempIndex (c : Code) (b : Bank) (t : Temp) :
    Unrepeated (Universe.tempIndex c b t) := by
  unfold Universe.tempIndex
  split
  · cases t with
    | reg r =>
      dsimp only
      split
      · exact .ok _
      · exact .error fun _ _ h => by cases h
    | virtual b n =>
      dsimp only
      split
      · exact .ok _
      · exact .error fun _ _ h => by cases h
  · exact .error fun _ _ h => by cases h

theorem unrepeated_slotIndex (c : Code) (s : SlotId) : Unrepeated (Universe.slotIndex c s) := by
  unfold Universe.slotIndex
  split
  · exact .ok _
  · exact .error fun _ _ h => by cases h

theorem unrepeated_indexOf (c : Code) (u : Universe) (e : u.Entity) :
    Unrepeated (u.indexOf c e) := by
  cases u with
  | temps b => exact unrepeated_tempIndex c b e
  | slots => exact unrepeated_slotIndex c e

theorem unrepeated_guarded {α : Type} (s : IndexSet) (i : Nat) (a : α) :
    Unrepeated (s.guarded i a) := by
  unfold IndexSet.guarded
  split
  · exact .ok _
  · exact .error fun _ _ h => by cases h

theorem unrepeated_each (f : IndexSet → Nat → IndexSet) (s : IndexSet) (is : List Nat) :
    UnrepeatedStop (s.each f is) :=
  .foldlM (fun s i => .keeping (unrepeated_guarded s i _)) is s

theorem IndexSet.each_eq_ok {f : IndexSet → Nat → IndexSet} {s t : IndexSet} {is : List Nat}
    (h : s.each f is = .ok t) : t = is.foldl f s := by
  induction is generalizing s with
  | nil =>
    cases h
    rfl
  | cons i is ih =>
    rcases Nat.lt_or_ge i s.bound with hi | hi
    · rw [each_cons_of_lt hi] at h
      exact ih h
    · rw [each_cons_of_le hi] at h
      cases h

theorem Tables.head_eq_ok {t : Tables} {a : BlockId} {head : List Nat} (h : t.head a = .ok head) :
    head = t.headAt a.index := by
  unfold Tables.head entry at h
  unfold headAt
  cases hh : t.heads[a.index]? with
  | none =>
    rw [hh] at h
    cases h
  | some head' =>
    rw [hh] at h
    cases h
    rfl

/-! ## Walking a block -/

section Cursor

variable (c : Code) (u : Universe)

theorem unrepeated_alter (f : IndexSet → Nat → IndexSet) (es : List u.Entity) (live : IndexSet) :
    UnrepeatedStop (Cursor.alter c u f live es) := by
  refine .foldlM (fun live e => .keeping ?_) es live
  exact .bind (unrepeated_indexOf c u e) fun i _ => unrepeated_guarded live i _

theorem unrepeated_execute (k : Cursor) (i : Nat) : UnrepeatedStop (k.execute c u i) := by
  unfold Cursor.execute
  split
  · refine .map (.within ?_)
    exact .bind (unrepeated_alter c u IndexSet.erase _ _) fun _ _ =>
      .bind (unrepeated_alter c u IndexSet.insert _ _) fun _ _ =>
        unrepeated_alter c u IndexSet.insert _ _
  · exact .error fun _ _ h => by cases h

theorem unrepeated_executeDown (k : Cursor) (i n : Nat) :
    UnrepeatedStop (k.executeDown c u i n) := by
  induction n generalizing k with
  | zero => exact .ok k
  | succ n ih => exact .bind (unrepeated_execute c u k _) fun k _ => ih k

theorem unrepeated_start (b : Block) (tail : List Nat) (scratch : IndexSet) :
    Unrepeated (Cursor.start c u b tail scratch) := by
  unfold Cursor.start
  split
  · refine .bind (.faultOnly ?_) fun _ _ => .ok _
    exact unrepeated_each IndexSet.insert scratch.clear tail
  · exact .error fun _ _ h => by cases h

end Cursor

namespace Propagation

variable {c : Code} {u : Universe} {order : Listing} {p : Propagation} {b : Block}

/-! ## Visiting a block -/

theorem unrepeated_discover (p : Propagation) (b : Block) :
    Unrepeated (p.discover c u order b) := by
  refine .bind (unrepeated_entry _ _) fun tail _ => ?_
  refine .bind (unrepeated_start c u _ _ _) fun start _ => ?_
  refine .bind (.faultOnly (unrepeated_executeDown c u _ _ _)) fun top _ => ?_
  refine .bind (unrepeated_entry _ _) fun head _ => ?_
  split
  · exact .ok _
  · exact .faultOnly (unrepeated_each IndexSet.erase _ _)

/-- Nothing that a visit finds is recorded at the head. That the counts agree is enough, in any state,
to find nothing; else all that is recorded has been taken out. -/
theorem not_mem_headAt_of_discover {found : IndexSet} (h : p.discover c u order b = .ok found) :
    ∀ i ∈ found.toList, i ∉ p.headAt b.id.index := by
  obtain ⟨tail, -, h⟩ := bind_eq_ok.mp h
  obtain ⟨start, -, h⟩ := bind_eq_ok.mp h
  obtain ⟨top, -, h⟩ := bind_eq_ok.mp h
  obtain ⟨head, hhead, h⟩ := bind_eq_ok.mp h
  intro i hi
  split at h
  · cases h
    cases hi
  · have hfound : found = head.foldl IndexSet.erase top.live :=
      IndexSet.each_eq_ok (faultOnly_eq_ok.mp h)
    rw [hfound, IndexSet.mem_foldl_erase, Tables.head_eq_ok hhead] at hi
    exact hi.2

theorem unrepeated_addToTail (t : Tables) (a : BlockId) (i : Nat) :
    Unrepeated (t.addToTail a i) := by
  unfold Tables.addToTail
  split
  · exact .ok _
  · exact .error fun _ _ h => by cases h

theorem unrepeated_push (p : Propagation) (a : BlockId) (i : Nat) : Unrepeated (p.push a i) := by
  refine .bind (unrepeated_addToTail _ _ _) fun r _ => ?_
  dsimp only
  split
  · exact .bind (unrepeated_entry _ _) fun _ _ => .ok _
  · exact .ok _

theorem unrepeated_extendHead {t : Tables} {a : BlockId} {is : List Nat}
    (h : ∀ i ∈ is, i ∉ t.headAt a.index) : Unrepeated (t.extendHead a is) := by
  by_cases ha : a.index < t.heads.size
  · obtain ⟨t', ht'⟩ := Tables.exists_extendHead ha h
    rw [ht']
    exact .ok t'
  · rw [Tables.extendHead, dif_neg ha]
    exact .error fun _ _ h => by cases h

theorem unrepeated_publish {found : List Nat} (h : ∀ i ∈ found, i ∉ p.headAt b.id.index) :
    Unrepeated (p.publish b found) := by
  refine .bind (unrepeated_extendHead h) fun t _ => ?_
  exact .foldlM (fun p a => .foldlM (fun p i => unrepeated_push p a i) found p) _ _

/-- No visit, in whatever state, records an index twice. -/
theorem unrepeated_visit (p : Propagation) (b : Block) :
    UnrepeatedStop (p.visitBy c u order b) := by
  refine .bind (.keeping (unrepeated_entry _ _)) fun dirty _ => ?_
  split
  · refine .bind (.keeping (unrepeated_discover p b)) fun found hfound => ?_
    have hnew := not_mem_headAt_of_discover (keeping_eq_ok.mp hfound)
    exact .keeping (unrepeated_publish (p := p.note b found) hnew)
  · exact .ok p

theorem unrepeated_seed (c : Code) (u : Universe) : Unrepeated (seed c u) := by
  refine .foldlM (fun t b => ?_) _ _
  refine .bind (unrepeated_terminator b) fun last _ => ?_
  refine .foldlM (fun t e => ?_) _ _
  exact .bind (unrepeated_indexOf c u e) fun i _ =>
    .bind (unrepeated_addToTail t b.id i) fun _ _ => .ok _

end Propagation

end MachineLiveness
