import MachineLiveness.Liveness.Equations
import MachineLiveness.Proofs.Universe

/-!
The equations of liveness by membership. An instruction passes on what lives below it, less what it
defines; so what lives above a list of instructions is either made there or comes from the tail past
every definition (`mem_above`), and a larger tail never gives less.
-/

namespace MachineLiveness.Sets

variable {c : Code} {u : Universe}

theorem mem_indices {es : List u.Entity} {x : Nat} :
    x ∈ indices c u es ↔ ∃ e ∈ es, u.indexOf c e = .ok x := by
  have htoOption (r : Except Fault Nat) : r.toOption = some x ↔ r = .ok x := by
    cases r <;> simp [Except.toOption]
  simp only [indices, List.mem_filterMap, htoOption]

theorem lt_size_of_mem_indices {es : List u.Entity} {x : Nat} (h : x ∈ indices c u es) :
    x < u.size c := by
  obtain ⟨e, -, he⟩ := mem_indices.mp h
  exact Universe.lt_size_of_indexOf he

theorem mem_indices_iff {e : u.Entity} {es : List u.Entity} {x : Nat}
    (he : u.indexOf c e = .ok x) : x ∈ indices c u es ↔ e ∈ es := by
  rw [mem_indices]
  constructor
  · rintro ⟨e', he', hx⟩
    exact Universe.indexOf_inj he hx ▸ he'
  · exact fun h => ⟨e, h, he⟩

theorem mem_foldl_erase {is : List Nat} {t : Indices} {x : Nat} :
    x ∈ is.foldl (·.erase ·) t ↔ x ∈ t ∧ x ∉ is := by
  induction is generalizing t with
  | nil => simp
  | cons i is ih =>
    simp only [List.foldl_cons, ih, Std.ExtTreeSet.mem_erase, ne_eq, Nat.compare_eq_eq,
      List.mem_cons, not_or]
    constructor
    · rintro ⟨⟨hne, ht⟩, his⟩
      exact ⟨ht, fun h => hne h.symm, his⟩
    · rintro ⟨ht, hne, his⟩
      exact ⟨⟨fun h => hne h.symm, ht⟩, his⟩

theorem mem_insertMany {is : List Nat} {t : Indices} {x : Nat} :
    x ∈ t.insertMany is ↔ x ∈ t ∨ x ∈ is := by
  simp

/-! ## Across instructions -/

theorem mem_through {i : Inst} {late : List Nat} {below : Indices} {x : Nat} :
    x ∈ through c u i late below ↔
      x ∈ late ∨ x ∈ indices c u (u.earlyUses i) ∨ x ∈ below ∧ x ∉ indices c u (u.defines i) := by
  simp only [through, mem_insertMany, mem_foldl_erase]
  constructor
  · rintro ((h | h) | h)
    · exact .inr (.inr h)
    · exact .inr (.inl h)
    · exact .inl h
  · rintro (h | h | h)
    · exact .inr h
    · exact .inl (.inr h)
    · exact .inl (.inl h)

/-- What lives above some instructions is made by them, or comes from the tail and none of them
defines it. -/
theorem mem_above {tail : Indices} {late : List Nat} {is : List Inst} {x : Nat} :
    x ∈ above c u tail late is ↔
      x ∈ above c u ∅ late is ∨ x ∈ tail ∧ ∀ i ∈ is, x ∉ indices c u (u.defines i) := by
  induction is generalizing late with
  | nil => simp [above]
  | cons i is ih =>
    simp only [above, mem_through]
    rw [ih]
    simp only [List.forall_mem_cons]
    constructor
    · rintro (h | h | ⟨h | ⟨h, his⟩, hi⟩)
      · exact .inl (.inl h)
      · exact .inl (.inr (.inl h))
      · exact .inl (.inr (.inr ⟨h, hi⟩))
      · exact .inr ⟨h, hi, his⟩
    · rintro ((h | h | ⟨h, hi⟩) | ⟨h, hi, his⟩)
      · exact .inl h
      · exact .inr (.inl h)
      · exact .inr (.inr ⟨.inl h, hi⟩)
      · exact .inr (.inr ⟨.inr ⟨h, his⟩, hi⟩)

theorem headOf_mono {b : Block} {s t : Indices} (h : ∀ x ∈ s, x ∈ t) :
    ∀ x ∈ headOf c u b s, x ∈ headOf c u b t := by
  intro x hx
  rcases mem_above.mp hx with hx | ⟨hx, hdef⟩
  · exact mem_above.mpr (.inl hx)
  · exact mem_above.mpr (.inr ⟨h x hx, hdef⟩)

theorem lt_size_of_mem_above {tail : Indices} {late : List Nat} {is : List Inst} {x : Nat}
    (ht : ∀ x ∈ tail, x < u.size c) (hl : ∀ x ∈ late, x < u.size c)
    (h : x ∈ above c u tail late is) : x < u.size c := by
  induction is generalizing late with
  | nil => exact ht x h
  | cons i is ih =>
    rcases mem_through.mp h with h | h | ⟨h, -⟩
    · exact hl x h
    · exact lt_size_of_mem_indices h
    · exact ih (fun y hy => lt_size_of_mem_indices hy) h

theorem lt_size_of_mem_headOf {b : Block} {tail : Indices} {x : Nat}
    (ht : ∀ x ∈ tail, x < u.size c) (h : x ∈ headOf c u b tail) : x < u.size c :=
  lt_size_of_mem_above ht (by simp) h

/-! ## At a tail -/

theorem mem_tailOf {s : Sets} {b : Block} {x : Nat} :
    x ∈ tailOf c u s b ↔ x ∈ lateAtTail c u b ∨ ∃ t ∈ b.successors, x ∈ s.head t.index := by
  have hfold (ss : List BlockId) (t : Indices) :
      x ∈ ss.foldl (fun t succ => t.insertMany (s.head succ.index).toList) t ↔
        x ∈ t ∨ ∃ a ∈ ss, x ∈ s.head a.index := by
    induction ss generalizing t with
    | nil => simp
    | cons a ss ih =>
      simp only [List.foldl_cons, ih, mem_insertMany, Std.ExtTreeSet.mem_toList, or_assoc,
        List.mem_cons, exists_eq_or_imp]
  rw [tailOf, hfold, mem_insertMany]
  simp

theorem mem_lateAtTail {b : Block} {x : Nat} :
    x ∈ lateAtTail c u b ↔
      ∃ last, b.insts.back? = some last ∧ x ∈ indices c u (u.lateUses last) := by
  unfold lateAtTail
  cases b.insts.back? with
  | none => simp
  | some last => simp

theorem lt_size_of_mem_lateAtTail {b : Block} {x : Nat} (h : x ∈ lateAtTail c u b) :
    x < u.size c := by
  obtain ⟨last, -, hx⟩ := mem_lateAtTail.mp h
  exact lt_size_of_mem_indices hx

theorem tailOf_mono {s t : Sets} {b : Block} (h : ∀ k, ∀ x ∈ s.head k, x ∈ t.head k) :
    ∀ x ∈ tailOf c u s b, x ∈ tailOf c u t b := by
  intro x hx
  rcases mem_tailOf.mp hx with hx | ⟨a, ha, hx⟩
  · exact mem_tailOf.mpr (.inl hx)
  · exact mem_tailOf.mpr (.inr ⟨a, ha, h _ x hx⟩)

end MachineLiveness.Sets
