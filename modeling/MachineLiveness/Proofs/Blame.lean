import MachineLiveness.Proofs.Finish

/-!
Which defect a draft is refused for. Each check of `Draft.finish` that finds something names the place
where it looked and says what is so there; the checks before it have found nothing. So a refusal
blames the first block that is not well formed and, if it blames an instruction, the first one out of
order in it and the first operand out of order in that.
-/

namespace MachineLiveness

/-! ## What blame means -/

namespace Malformed

/-- What a defect says of the operand that it blames. -/
def Convicts (d : Draft) (o : Operand) : Malformed → Prop
  | bankMismatch _ _ t bank => o.arg = .temp t ∧ o.bank = bank ∧ t.bank ≠ bank
  | baseNotGp _ _ base => (∃ offset, o.arg = .addr base offset) ∧ base.bank ≠ .gp
  | tempOutOfRange _ _ t count =>
    IsTemp t o.arg ∧ ∃ b n, t = .virtual b n ∧ count = (d.temps.get b).toNat ∧ count ≤ n.toNat
  | registerOutOfRange _ _ t count =>
    IsTemp t o.arg ∧ ∃ r, t = .reg r ∧ count = (d.registers.get r.bank).toNat ∧ count ≤ r.index
  | slotOutOfRange _ _ s count => o.arg = .slot s ∧ count = d.slots.size ∧ count ≤ s.index
  | emptyBlock _ | missingTerminator _ _ | terminatorNotLast _ _ _ | successorCount _ _ _ _
  | successorOutOfRange _ _ _ => False

/-- A defect blames the first instruction of a block that is out of order: for where it stands, or else
for its first operand that is not admitted. -/
structure BlamesInst (d : Draft) (b : DraftBlock) (m : Malformed) (n : Nat) : Prop where
  framed : d.allocated.Framed b.insts.toList b.successors
  earlier : ∀ (j : Nat) (i : Inst), j < n → b.insts[j]? = some i →
    d.allocated.InOrder b.insts.size j i
  here : ∃ i, b.insts[n]? = some i ∧
    (m = .terminatorNotLast m.block n i.opcode ∨
      (i.isTerminal = true → n + 1 = b.insts.size) ∧
        ∃ before o after, i.operands = before ++ o :: after ∧
          (∀ o' ∈ before, d.allocated.Admits o') ∧ m.Convicts d o)

/-- A defect blames the first block of a draft that is not well formed, and what it says of that block
is so. -/
structure Blames (d : Draft) (k : Nat) (b : DraftBlock) (m : Malformed) : Prop where
  block : m.block.index = k
  earlier : ∀ (j : Nat) (a : DraftBlock), j < k → d.blocks[j]? = some a →
    d.allocated.BlockWellFormed a.insts.toList a.successors
  malformed : ¬d.allocated.BlockWellFormed b.insts.toList b.successors
  holds : m.Holds d b
  inst : ∀ n, m.inst? = some n → m.BlamesInst d b n

end Malformed

namespace Draft

variable {d : Draft} {m : Malformed} {id : BlockId} {b : DraftBlock} {n : Nat} {i : Inst}
  {o : Operand}

/-! ## What each check says -/

theorem tempDefect?_eq_some {t : Temp} (ht : Malformed.IsTemp t o.arg)
    (h : d.tempDefect? id n t = some m) :
    m.block = id ∧ m.inst? = some n ∧ m.Convicts d o := by
  cases t with
  | reg r =>
    simp only [tempDefect?, Option.ite_none_left_eq_some, Option.some.injEq] at h
    obtain ⟨hr, rfl⟩ := h
    exact ⟨rfl, rfl, ht, r, rfl, rfl, Nat.not_lt.mp hr⟩
  | virtual c k =>
    simp only [tempDefect?, Option.ite_none_left_eq_some, Option.some.injEq] at h
    obtain ⟨hk, rfl⟩ := h
    exact ⟨rfl, rfl, ht, c, k, rfl, rfl, Nat.not_lt.mp hk⟩

theorem operandDefect?_eq_some (h : d.operandDefect? id n o = some m) :
    m.block = id ∧ m.inst? = some n ∧ m.Convicts d o := by
  unfold operandDefect? at h
  cases ha : o.arg with
  | temp t =>
    simp only [ha] at h
    split at h
    · exact tempDefect?_eq_some (ha ▸ rfl) h
    · rename_i hb
      cases h
      exact ⟨rfl, rfl, ha, rfl, hb⟩
  | addr base offset =>
    simp only [ha] at h
    split at h
    · exact tempDefect?_eq_some (ha ▸ rfl) h
    · rename_i hb
      cases h
      exact ⟨rfl, rfl, ⟨offset, ha⟩, hb⟩
  | slot s =>
    simp only [ha, Option.ite_none_left_eq_some, Option.some.injEq] at h
    obtain ⟨hs, rfl⟩ := h
    exact ⟨rfl, rfl, ha, rfl, Nat.not_lt.mp hs⟩
  | imm v => simp [ha] at h

/-- What a search through a numbered list finds is found at some position, and nothing before it. -/
theorem exists_of_findSome?_zipIdx {α β : Type} {l : List α} {f : α × Nat → Option β} {y : β}
    (h : l.zipIdx.findSome? f = some y) :
    ∃ k a, l[k]? = some a ∧ f (a, k) = some y ∧
      ∀ (j : Nat) (a' : α), j < k → l[j]? = some a' → f (a', j) = none := by
  obtain ⟨l₁, ⟨a, k⟩, l₂, hl, ha, hbefore⟩ := List.findSome?_eq_some_iff.mp h
  have hentry (j : Nat) : l.zipIdx[j]? = (l[j]?).map (·, j) := by simp
  have hhere : l.zipIdx[l₁.length]? = some (a, k) := by simp [hl]
  rw [hentry, Option.map_eq_some_iff] at hhere
  obtain ⟨a', ha', he⟩ := hhere
  cases he
  refine ⟨_, a, ha', ha, fun j c hj hc => hbefore (c, j) ?_⟩
  have hthere : l.zipIdx[j]? = some (c, j) := by rw [hentry, hc, Option.map_some]
  rw [hl, List.getElem?_append_left hj] at hthere
  exact List.mem_of_getElem? hthere

theorem instDefect?_eq_some {last : Nat} (h : d.instDefect? id last n i = some m) :
    m.block = id ∧ m.inst? = some n ∧
      (i.isTerminal = true ∧ n ≠ last ∧ m = .terminatorNotLast id n i.opcode ∨
        (i.isTerminal = true → n = last) ∧
          ∃ before o after, i.operands = before ++ o :: after ∧
            (∀ o' ∈ before, d.allocated.Admits o') ∧ m.Convicts d o) := by
  unfold instDefect? at h
  split at h
  · rename_i hend
    cases h
    exact ⟨rfl, rfl, .inl ⟨hend.1, hend.2, rfl⟩⟩
  · rename_i hend
    obtain ⟨before, o, after, hsplit, ho, hbefore⟩ := List.findSome?_eq_some_iff.mp h
    obtain ⟨hblock, hinst, hconvicts⟩ := operandDefect?_eq_some ho
    have hlast : i.isTerminal = true → n = last :=
      fun ht => Classical.not_not.mp fun hn => hend ⟨ht, hn⟩
    exact ⟨hblock, hinst, .inr ⟨hlast, before, o, after, hsplit,
      fun o' ho' => operandDefect?_eq_none.mp (hbefore o' ho'), hconvicts⟩⟩

theorem edgeDefect?_eq_some {op : Opcode} {expected : Nat} {last : Inst}
    (hlast : b.insts.back? = some last) (hop : last.opcode = op)
    (hcount : op.successorCount? = some expected)
    (h : d.edgeDefect? id op expected b.successors = some m) :
    m.block = id ∧ m.inst? = none ∧ m.Holds d b := by
  unfold edgeDefect? at h
  split at h
  · obtain ⟨s, hs, rfl⟩ := Option.map_eq_some_iff.mp h
    have hrange := List.find?_some hs
    exact ⟨rfl, rfl, List.mem_of_find?_eq_some hs, rfl, of_decide_eq_true hrange⟩
  · rename_i hne
    cases h
    exact ⟨rfl, rfl, ⟨last, hlast, hop⟩, hcount, rfl, Ne.symm hne⟩

/-! ## From the operand to the draft -/

theorem holds_of_convicts (hi : b.insts[n]? = some i) (ho : o ∈ i.operands)
    (hn : m.inst? = some n) (h : m.Convicts d o) : m.Holds d b := by
  cases m with
  | bankMismatch _ k t bank =>
    cases hn
    exact ⟨⟨i, hi, o, ho, h.1, h.2.1⟩, h.2.2⟩
  | baseNotGp _ k base =>
    cases hn
    exact ⟨⟨i, hi, o, ho, h.1, trivial⟩, h.2⟩
  | tempOutOfRange _ k t count =>
    cases hn
    exact ⟨⟨i, hi, o, ho, h.1, trivial⟩, h.2⟩
  | registerOutOfRange _ k t count =>
    cases hn
    exact ⟨⟨i, hi, o, ho, h.1, trivial⟩, h.2⟩
  | slotOutOfRange _ k s count =>
    cases hn
    exact ⟨⟨i, hi, o, ho, h.1, trivial⟩, h.2⟩
  | _ => exact h.elim

/-- Of a block that ends as it should, the first instruction out of order is blamed. -/
theorem instDefects_eq_some (hframed : d.allocated.Framed b.insts.toList b.successors)
    (h : (b.insts.toList.zipIdx.findSome? fun (i, n) =>
      d.instDefect? id (b.insts.size - 1) n i) = some m) :
    m.block = id ∧ m.Holds d b ∧ ∀ n, m.inst? = some n → m.BlamesInst d b n := by
  obtain ⟨n, i, hi, hdefect, hearlier⟩ := exists_of_findSome?_zipIdx h
  obtain ⟨hblock, hinst, hhere⟩ := instDefect?_eq_some hdefect
  rw [Array.getElem?_toList] at hi
  have hn : n < b.insts.size := (Array.getElem?_eq_some_iff.mp hi).1
  have hbefore : ∀ (j : Nat) (a : Inst), j < n → b.insts[j]? = some a →
      d.allocated.InOrder b.insts.size j a := by
    intro j a hj ha
    exact (inOrder_iff (Nat.lt_trans hj hn)).mp (hearlier j a hj (by simpa using ha))
  have hn' : ∀ k, m.inst? = some k → n = k := fun k hk => Option.some.inj (hinst.symm.trans hk)
  rcases hhere with ⟨hend, hne, rfl⟩ | ⟨hend, before, o, after, hsplit, hadmitted, hconvicts⟩
  · refine ⟨rfl, ⟨by omega, hend, i, hi, rfl⟩, fun k hk => ?_⟩
    obtain rfl := hn' k hk
    exact ⟨hframed, hbefore, i, hi, .inl rfl⟩
  · have ho : o ∈ i.operands := by
      rw [hsplit]
      exact List.mem_append_right _ List.mem_cons_self
    have hplaced : i.isTerminal = true → n + 1 = b.insts.size := by
      intro ht
      have := hend ht
      omega
    refine ⟨hblock, holds_of_convicts hi ho hinst hconvicts, fun k hk => ?_⟩
    obtain rfl := hn' k hk
    exact ⟨hframed, hbefore, i, hi,
      .inr ⟨hplaced, before, o, after, hsplit, hadmitted, hconvicts⟩⟩

/-- What the checks of one block find is so of the block, and if it is about an instruction, that one
is the first out of order. -/
theorem blockDefect?_eq_some (h : d.blockDefect? id b = some m) :
    m.block = id ∧ m.Holds d b ∧ ∀ n, m.inst? = some n → m.BlamesInst d b n := by
  unfold blockDefect? at h
  cases hlast : b.insts.back? with
  | none =>
    simp only [hlast, Option.some.injEq] at h
    subst h
    exact ⟨rfl, Array.back?_eq_none_iff.mp hlast, by simp [Malformed.inst?]⟩
  | some last =>
    cases hcount : last.opcode.successorCount? with
    | none =>
      simp only [hlast, hcount, Option.some.injEq] at h
      subst h
      refine ⟨rfl, ⟨last, hlast, rfl, ?_⟩, by simp [Malformed.inst?]⟩
      simp [Opcode.isTerminal, hcount]
    | some expected =>
      simp only [hlast, hcount, Option.or_eq_some_iff] at h
      rcases h with h | ⟨hedge, h⟩
      · obtain ⟨hblock, hinst, hholds⟩ := edgeDefect?_eq_some hlast rfl hcount h
        exact ⟨hblock, hholds, by simp [hinst]⟩
      · exact instDefects_eq_some ((framed_iff hlast hcount).mpr (edgeDefect?_eq_none.mp hedge)) h

theorem defect?_eq_some (h : d.defect? = some m) :
    ∃ k b, d.blocks[k]? = some b ∧ m.Blames d k b := by
  obtain ⟨k, b, hb, hdefect, hearlier⟩ := exists_of_findSome?_zipIdx h
  obtain ⟨hblock, hholds, hinst⟩ := blockDefect?_eq_some hdefect
  rw [Array.getElem?_toList] at hb
  refine ⟨k, b, hb, ?_, fun j a hj ha => ?_, fun hwell => ?_, hholds, hinst⟩
  · rw [hblock, BlockId.index_ofIndex (lt_of_block hb)]
  · rw [← Array.getElem?_toList] at ha
    exact blockDefect?_eq_none.mp (hearlier j a hj ha)
  · have hsome : d.blockDefect? (.ofIndex k) b = some m := hdefect
    rw [blockDefect?_eq_none.mpr hwell] at hsome
    cases hsome

/-- A draft is accepted exactly when it is well formed; and a refusal blames the first block that is
not, for what is so there. -/
theorem accepts_or_blames (d : Draft) : ((∃ c, d.finish = .ok c) ↔ d.WellFormed) ∧
    ∀ m, d.finish = .error m → ∃ k b, d.blocks[k]? = some b ∧ m.Blames d k b := by
  constructor
  · simp only [finish_eq_ok, exists_and_left, exists_eq', and_true, defect?_eq_none]
  · exact fun m h => defect?_eq_some (finish_eq_error.mp h)

/-- After a block in order comes one with three operands out of order in two instructions, and then one
that is empty. -/
def faulty : Draft := ((Draft.empty ⟨2, 1⟩).performAll [
  .addTemp .gp, .addBlock, .addBlock, .addBlock,
  .push ⟨0⟩ ⟨.jump, []⟩,
  .push ⟨1⟩ ⟨.move, [.ofTemp (.virtual .gp 0) .define, .ofImm 7]⟩,
  .push ⟨1⟩ ⟨.add, [.ofTemp (.virtual .gp 0) .useDefine, ⟨.addr (.virtual .gp 3) 8, .earlyUse, .fp⟩,
    ⟨.temp (.reg ⟨.fp, 0⟩), .earlyUse, .gp⟩]⟩,
  .push ⟨1⟩ ⟨.ret, [⟨.slot ⟨0⟩, .lateUse, .gp⟩]⟩,
  .addSuccessor ⟨0⟩ ⟨2⟩]).2

theorem accepts_or_blames_faulty :
    faulty.finish = .error (.tempOutOfRange ⟨1⟩ 1 (.virtual .gp 3) 1) ∧
      ∃ k b, faulty.blocks[k]? = some b ∧
        (Malformed.tempOutOfRange ⟨1⟩ 1 (.virtual .gp 3) 1).Blames faulty k b := by
  have h : faulty.finish = .error (.tempOutOfRange ⟨1⟩ 1 (.virtual .gp 3) 1) :=
    finish_eq_error.mpr (by decide +kernel)
  exact ⟨h, (accepts_or_blames faulty).2 _ h⟩

end Draft

end MachineLiveness
