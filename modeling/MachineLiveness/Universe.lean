import MachineLiveness.Outcome

/-!
The three kinds of entities whose liveness is tracked, each on its own: the temporaries of one bank,
and the stack slots. Within a unit the entities of a universe have the indices below its size:
registers first and then virtual temporaries, or the slots, each in their order.
-/

namespace MachineLiveness

inductive Universe where
  | temps (bank : Bank)
  | slots
  deriving DecidableEq, Repr

namespace Universe

/-- All universes, in the order in which they are analysed. -/
def all : List Universe := [.temps .gp, .temps .fp, .slots]

def name : Universe → String
  | .temps b => b.text
  | .slots => "stack"

/-- What a universe is made of. -/
abbrev Entity : Universe → Type
  | .temps _ => Temp
  | .slots => SlotId

def entityText : {u : Universe} → u.Entity → String
  | .temps _, t => Temp.text t
  | .slots, s => SlotId.text s

instance : (u : Universe) → DecidableEq u.Entity
  | .temps _ => inferInstanceAs (DecidableEq Temp)
  | .slots => inferInstanceAs (DecidableEq SlotId)

instance : (u : Universe) → LT u.Entity
  | .temps _ => inferInstanceAs (LT Temp)
  | .slots => inferInstanceAs (LT SlotId)

/-- Number of entities in a unit. -/
def size (c : Code) : Universe → Nat
  | .temps b => c.registerCount b + c.tempCount b
  | .slots => c.slots.size

/-- Whether an operand that carries a value of this bank counts. -/
def accepts : Universe → Bank → Bool
  | .temps b, b' => b = b'
  | .slots, _ => true

/-! ## Numbering -/

/-- Registers take the first indices and virtual temporaries the next. -/
def tempIndex (c : Code) (b : Bank) (t : Temp) : Except Fault Nat :=
  if t.bank = b then
    match t with
    | .reg r => if r.index < c.registerCount b then .ok r.index else .error (.noRegister t)
    | .virtual _ n =>
      if n.toNat < c.tempCount b then .ok (c.registerCount b + n.toNat)
      else .error (.tempOutside t (size c (.temps b)))
  else .error (.foreignTemp t b)

def tempAt (c : Code) (b : Bank) (i : Nat) : Except Fault Temp :=
  if i < c.registerCount b then .ok (.reg ⟨b, UInt8.ofNat i⟩)
  else if i < size c (.temps b) then .ok (.virtual b (UInt32.ofNat (i - c.registerCount b)))
  else .error (.noTemp i (size c (.temps b)))

def slotIndex (c : Code) (s : SlotId) : Except Fault Nat :=
  if s.index < c.slots.size then .ok s.index else .error (.slotOutside s c.slots.size)

def slotAt (c : Code) (i : Nat) : Except Fault SlotId :=
  if i < c.slots.size then .ok ⟨UInt32.ofNat i⟩ else .error (.noSlot i c.slots.size)

/-- The index of an entity of the unit; anything else is a fault. -/
def indexOf (c : Code) : (u : Universe) → u.Entity → Except Fault Nat
  | .temps b, t => tempIndex c b t
  | .slots, s => slotIndex c s

/-- The entity that has an index; an index at or above the size is a fault. -/
def entityAt (c : Code) : (u : Universe) → Nat → Except Fault u.Entity
  | .temps b, i => tempAt c b i
  | .slots, i => slotAt c i

variable {c : Code}

theorem tempIndex_eq_ok {b : Bank} {t : Temp} {i : Nat} :
    tempIndex c b t = .ok i ↔
      (∃ r : Reg, t = .reg r ∧ r.bank = b ∧ r.index < c.registerCount b ∧ r.index = i) ∨
        ∃ n, t = .virtual b n ∧ n.toNat < c.tempCount b ∧ c.registerCount b + n.toNat = i := by
  cases t with
  | reg r =>
    by_cases hb : r.bank = b
    · by_cases hr : r.index < c.registerCount b
      · simp [tempIndex, Temp.bank, hb, hr]
      · simp [tempIndex, Temp.bank, hb, hr]
    · simp [tempIndex, Temp.bank, hb]
  | virtual b' n =>
    by_cases hb : b' = b
    · by_cases hn : n.toNat < c.tempCount b
      · simp [tempIndex, Temp.bank, hb, hn]
      · simp [tempIndex, Temp.bank, hb, hn]
    · simp [tempIndex, Temp.bank, hb]

theorem slotIndex_eq_ok {s : SlotId} {i : Nat} :
    slotIndex c s = .ok i ↔ s.index < c.slots.size ∧ s.index = i := by
  by_cases hs : s.index < c.slots.size
  · simp [slotIndex, hs]
  · simp [slotIndex, hs]

theorem lt_size_of_indexOf {u : Universe} {e : u.Entity} {i : Nat} (h : u.indexOf c e = .ok i) :
    i < u.size c := by
  cases u with
  | temps b =>
    rw [size]
    rcases tempIndex_eq_ok.mp h with ⟨r, -, -, hr, rfl⟩ | ⟨n, -, hn, rfl⟩
    · omega
    · omega
  | slots =>
    obtain ⟨hs, rfl⟩ := slotIndex_eq_ok.mp h
    exact hs

/-- The numbering can be read both ways. -/
theorem entityAt_indexOf {u : Universe} {e : u.Entity} {i : Nat} (h : u.indexOf c e = .ok i) :
    u.entityAt c i = .ok e := by
  cases u with
  | temps b =>
    rw [entityAt, tempAt]
    rcases tempIndex_eq_ok.mp h with ⟨r, rfl, rfl, hr, rfl⟩ | ⟨n, rfl, hn, rfl⟩
    · rw [if_pos hr, Reg.index, UInt8.ofNat_toNat]
    · have hlt : c.registerCount b + n.toNat < size c (.temps b) := Nat.add_lt_add_left hn _
      rw [if_neg (Nat.not_lt.mpr (Nat.le_add_right _ _)), if_pos hlt, Nat.add_sub_cancel_left,
        UInt32.ofNat_toNat]
  | slots =>
    obtain ⟨hs, rfl⟩ := slotIndex_eq_ok.mp h
    rw [entityAt, slotAt, if_pos hs, SlotId.index, UInt32.ofNat_toNat]

/-! ## Diagnostics -/

/-- How a universe shows itself in diagnostics. -/
def describe (c : Code) : Universe → String
  | .temps b =>
    "TmpLivenessAdapter \x7b bank: " ++ b.tag ++ ", num_regs: " ++ toString (c.registerCount b)
      ++ ", max_index: " ++ toString (size c (.temps b)) ++ " \x7d"
  | .slots => "StackSlotLivenessAdapter \x7b num_slots: " ++ toString c.slots.size ++ " \x7d"

/-! ## What an instruction does to a universe -/

/-- The places where an instruction names an entity of this kind, in whatever bank. -/
def mentions (i : Inst) : (u : Universe) → List (Mention u.Entity)
  | .temps _ => i.temps
  | .slots => i.slots

/-- The entities of the universe that an instruction names in a role of some kind. -/
def named (u : Universe) (kind : Role → Bool) (i : Inst) : List u.Entity :=
  ((u.mentions i).filter fun m => kind m.role && u.accepts m.bank).map (·.entity)

/-- What an instruction reads before it executes. -/
def earlyUses (u : Universe) (i : Inst) : List u.Entity := u.named Role.isEarlyUse i

/-- What must outlive an instruction. -/
def lateUses (u : Universe) (i : Inst) : List u.Entity := u.named Role.isLateUse i

/-- What an instruction writes. -/
def defines (u : Universe) (i : Inst) : List u.Entity := u.named Role.isDefine i

/-- An operand names an entity of the universe in a role. A temporary belongs to the universe if the
operand carries a value of the bank. The base of an address is used early, whatever the operand's
role, and belongs if its own bank is the bank. Slots belong whatever the bank. -/
def NamedBy (o : Operand) (r : Role) : (u : Universe) → u.Entity → Prop
  | .temps b, t => o.arg = .temp t ∧ o.bank = b ∧ o.role = r ∨
      (∃ offset, o.arg = .addr t offset) ∧ Temp.bank t = b ∧ r = .earlyUse
  | .slots, s => o.arg = .slot s ∧ o.role = r

variable {u : Universe} {i : Inst} {e : u.Entity}

theorem mem_named {kind : Role → Bool} :
    e ∈ u.named kind i ↔ ∃ o ∈ i.operands, ∃ r, u.NamedBy o r e ∧ kind r = true := by
  simp only [named, List.mem_map, List.mem_filter, Bool.and_eq_true]
  cases u with
  | temps b =>
    simp only [mentions, Inst.temps, List.mem_filterMap, Operand.temp?_eq_some, accepts,
      decide_eq_true_iff]
    constructor
    · rintro ⟨m, ⟨⟨o, ho, ⟨harg, hrole, hbank⟩ | ⟨harg, hrole, hbank⟩⟩, hkind, hb⟩, rfl⟩
      · exact ⟨o, ho, m.role, .inl ⟨harg, (hb.trans hbank).symm, hrole.symm⟩, hkind⟩
      · exact ⟨o, ho, m.role, .inr ⟨harg, (hb.trans hbank).symm, hrole⟩, hkind⟩
    · rintro ⟨o, ho, r, ⟨harg, hbank, hrole⟩ | ⟨harg, hbank, hrole⟩, hkind⟩
      · exact ⟨⟨e, r, b⟩, ⟨⟨o, ho, .inl ⟨harg, hrole.symm, hbank.symm⟩⟩, hkind, rfl⟩, rfl⟩
      · exact ⟨⟨e, r, b⟩, ⟨⟨o, ho, .inr ⟨harg, hrole, hbank.symm⟩⟩, hkind, rfl⟩, rfl⟩
  | slots =>
    simp only [mentions, Inst.slots, List.mem_filterMap, Operand.slot?_eq_some, accepts]
    constructor
    · rintro ⟨m, ⟨⟨o, ho, harg, hrole, -⟩, hkind, -⟩, rfl⟩
      exact ⟨o, ho, m.role, ⟨harg, hrole.symm⟩, hkind⟩
    · rintro ⟨o, ho, r, ⟨harg, hrole⟩, hkind⟩
      exact ⟨⟨e, r, o.bank⟩, ⟨⟨o, ho, harg, hrole.symm, rfl⟩, hkind, trivial⟩, rfl⟩

theorem mem_earlyUses :
    e ∈ u.earlyUses i ↔ ∃ o ∈ i.operands, u.NamedBy o .earlyUse e ∨ u.NamedBy o .useDefine e := by
  simp [earlyUses, mem_named, Role.isEarlyUse_iff, and_or_left, exists_or]

theorem mem_lateUses :
    e ∈ u.lateUses i ↔ ∃ o ∈ i.operands, u.NamedBy o .lateUse e ∨ u.NamedBy o .scratch e := by
  simp [lateUses, mem_named, Role.isLateUse_iff, and_or_left, exists_or]

theorem mem_defines :
    e ∈ u.defines i ↔ ∃ o ∈ i.operands,
      u.NamedBy o .define e ∨ u.NamedBy o .useDefine e ∨ u.NamedBy o .scratch e := by
  simp [defines, mem_named, Role.isDefine_iff, and_or_left, exists_or]

/-- The base of an address that is written to is read. -/
example : earlyUses (.temps .gp) ⟨.store, [⟨.addr (.virtual .gp 0) 8, .define, .fp⟩]⟩ =
    [.virtual .gp 0] := by
  decide

end Universe

end MachineLiveness
