import MachineLiveness.Fault

/-!
Operations that may stop. One that can stop in the middle of its work returns `Stopped`, which keeps
what it had done until then; the others return the fault alone.
-/

namespace MachineLiveness

/-- An operation that stopped: the reason, and the state that it left. -/
structure Stopped (σ : Type) where
  fault : Fault
  state : σ
  deriving Repr

variable {α σ τ : Type}

/-- An operation that leaves the state as it was when it stops. -/
def keeping (state : σ) : Except Fault α → Except (Stopped σ) α
  | .ok a => .ok a
  | .error f => .error ⟨f, state⟩

/-- An operation on a part of the state; `put` puts the part back when it stops. -/
def within (put : τ → σ) : Except (Stopped τ) α → Except (Stopped σ) α
  | .ok a => .ok a
  | .error e => .error ⟨e.fault, put e.state⟩

/-- Only the reason why an operation stopped. -/
def faultOnly : Except (Stopped σ) α → Except Fault α
  | .ok a => .ok a
  | .error e => .error e.fault

/-- The entry of a table. -/
def entry (table : Array α) (i : Nat) : Except Fault α :=
  match table[i]? with
  | some a => .ok a
  | none => .error (.noEntry table.size i)

theorem entry_of_lt {table : Array α} {i : Nat} (h : i < table.size) :
    entry table i = .ok table[i] := by
  simp [entry, h]

theorem entry_of_le {table : Array α} {i : Nat} (h : table.size ≤ i) :
    entry table i = .error (.noEntry table.size i) := by
  simp [entry, h]

/-! ## What a finished operation tells of its parts -/

variable {ε β : Type}

theorem bind_eq_ok {x : Except ε α} {f : α → Except ε β} {b : β} :
    (x >>= f) = .ok b ↔ ∃ a, x = .ok a ∧ f a = .ok b := by
  cases x with
  | error e => simp [bind, Except.bind]
  | ok a => simp [bind, Except.bind]

theorem map_eq_ok {x : Except ε α} {f : α → β} {b : β} :
    x.map f = .ok b ↔ ∃ a, x = .ok a ∧ f a = b := by
  cases x <;> simp [Except.map]

@[simp] theorem keeping_eq_ok {state : σ} {x : Except Fault α} {a : α} :
    keeping state x = .ok a ↔ x = .ok a := by
  cases x <;> simp [keeping]

@[simp] theorem within_eq_ok {put : τ → σ} {x : Except (Stopped τ) α} {a : α} :
    within put x = .ok a ↔ x = .ok a := by
  cases x <;> simp [within]

@[simp] theorem faultOnly_eq_ok {x : Except (Stopped σ) α} {a : α} :
    faultOnly x = .ok a ↔ x = .ok a := by
  cases x <;> simp [faultOnly]

/-- What every step over a member of the list keeps, a finished chain of steps keeps. -/
theorem foldlM_keeps_mem {P : σ → Prop} {f : σ → α → Except ε σ} {l : List α}
    (hf : ∀ s, ∀ a ∈ l, ∀ s', P s → f s a = .ok s' → P s') :
    ∀ {s s' : σ}, P s → l.foldlM f s = .ok s' → P s' := by
  induction l with
  | nil =>
    intro s s' hs h
    cases h
    exact hs
  | cons a l ih =>
    intro s s' hs h
    rw [List.foldlM_cons] at h
    obtain ⟨t, ht, hl⟩ := bind_eq_ok.1 h
    exact ih (fun s a ha => hf s a (by simp [ha])) (hf s a (by simp) t hs ht) hl

/-- What every step keeps, a finished chain of steps keeps. -/
theorem foldlM_keeps {P : σ → Prop} {f : σ → α → Except ε σ}
    (hf : ∀ s a s', P s → f s a = .ok s' → P s') {l : List α} {s s' : σ} (hs : P s)
    (h : l.foldlM f s = .ok s') : P s' :=
  foldlM_keeps_mem (fun s a _ => hf s a) hs h

/-- Two kinds of steps that agree under a view of the states still agree after a chain of them. -/
theorem foldlM_view {view : σ → τ} {f : σ → α → Except ε σ} {g : τ → α → Except ε τ}
    (h : ∀ s a, g (view s) a = (f s a).map view) (s : σ) (l : List α) :
    l.foldlM g (view s) = (l.foldlM f s).map view := by
  induction l generalizing s with
  | nil => rfl
  | cons a l ih =>
    rw [List.foldlM_cons, List.foldlM_cons, h]
    cases f s a with
    | error e => rfl
    | ok t => exact ih t

/-! ## Looking into a unit -/

namespace Block

/-- The instruction at a position. -/
def inst (b : Block) (i : Nat) : Except Fault Inst := entry b.insts i

/-- The last instruction. -/
def terminator (b : Block) : Except Fault Inst :=
  match b.insts.back? with
  | some i => .ok i
  | none => .error (.noTerminator b.id)

end Block

namespace Code

/-- The block at the position that the id names. -/
def block (c : Code) (b : BlockId) : Except Fault Block := entry c.blocks b.index

/-- The slot at the position that the id names. -/
def slot (c : Code) (s : SlotId) : Except Fault Slot := entry c.slots s.index

end Code

end MachineLiveness
