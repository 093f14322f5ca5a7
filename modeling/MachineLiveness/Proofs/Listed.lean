import MachineLiveness.History
import MachineLiveness.IndexSet.Listed
import MachineLiveness.Proofs.IndexSet

/-!
A set of indices shows the list of its members and nothing else. Every command does to the members
what it does to a `ListedSet` and gets the same answer, whatever earlier commands have left in
`sparse`; so no history tells the two apart. An index at or above the bound stops a command: a single
one does nothing, and a list of them is worked off up to there.
-/

namespace MachineLiveness.IndexSet

/-! ## One command -/

/-- What a set shows. -/
def listed (s : IndexSet) : ListedSet := ⟨s.bound, s.toList⟩

theorem listed_insert {s : IndexSet} {i : Nat} (hi : i < s.bound) :
    (s.insert i).listed = s.listed.insert i := by
  unfold listed ListedSet.insert
  rw [bound_insert, toList_insert hi]
  by_cases hm : i ∈ s.toList
  · rw [if_pos hm, if_pos hm]
  · rw [if_neg hm, if_neg hm]

theorem listed_erase {s : IndexSet} {i : Nat} : (s.erase i).listed = s.listed.erase i := by
  have hmem : i ∈ s.listed.members ↔ i ∈ s.toList := .rfl
  unfold ListedSet.erase
  rw [listed, bound_erase]
  cases hl : s.toList.getLast? with
  | none =>
    have hl' : s.listed.members.getLast? = none := hl
    have hi : i ∉ s.toList := by simp [List.getLast?_eq_none_iff.mp hl]
    rw [hl', erase_of_not_mem hi]
    rfl
  | some last =>
    have hl' : s.listed.members.getLast? = some last := hl
    rw [hl']
    by_cases hi : i ∈ s.toList
    · rw [toList_erase hi hl]
      exact (if_pos (hmem.mpr hi)).symm
    · rw [erase_of_not_mem hi]
      exact (if_neg (mt hmem.mp hi)).symm

theorem decide_mem_listed (s : IndexSet) (i : Nat) : decide (i ∈ s.listed.members) = s.has i := by
  rw [Bool.eq_iff_iff, decide_eq_true_iff, has_iff]
  rfl

variable {f : IndexSet → Nat → IndexSet} {g : ListedSet → Nat → ListedSet} {s : IndexSet} {i : Nat}

theorem listed_each (hfg : ∀ s i, i < s.bound → (f s i).listed = g s.listed i) (s : IndexSet)
    (is : List Nat) :
    s.listed.each g is = ((perform.settled (s.each f is)).1,
      (perform.settled (s.each f is)).2.listed) := by
  induction is generalizing s with
  | nil => rfl
  | cons i is ih =>
    by_cases hi : i < s.bound
    · rw [each_cons_of_lt hi, ← ih, hfg s i hi]
      exact if_pos hi
    · rw [each_cons_of_le (Nat.not_lt.mp hi)]
      exact if_neg hi

/-- A bad index stops the work, with what the indices before it did. -/
theorem settled_each_bad (hf : ∀ s i, (f s i).bound = s.bound) {good : List Nat} {bad : Nat}
    (hgood : ∀ i ∈ good, i < s.bound) (hbad : s.bound ≤ bad) (rest : List Nat) :
    perform.settled (s.each f (good ++ bad :: rest)) =
      (.error (.outsideSet bad s.bound), (perform.settled (s.each f good)).2) := by
  induction good generalizing s with
  | nil =>
    rw [List.nil_append, each_cons_of_le hbad]
    rfl
  | cons i good ih =>
    have hi := hgood i (by simp)
    have hrest := ih (s := f s i) (fun j hj => by rw [hf]; exact hgood j (by simp [hj]))
      (by rw [hf]; exact hbad)
    rw [List.cons_append, each_cons_of_lt hi, each_cons_of_lt hi, hrest, hf]

theorem one_of_le (hi : s.bound ≤ i) (told : Bool) (t : ListedSet) :
    s.listed.one i told t = (.error (.outsideSet i s.bound), s.listed) :=
  if_neg (Nat.not_lt.mpr hi)

theorem perform_of_le (hi : s.bound ≤ i) :
    s.perform (.add i) = (.error (.outsideSet i s.bound), s) ∧
      s.perform (.remove i) = (.error (.outsideSet i s.bound), s) ∧
      s.perform (.contains i) = (.error (.outsideSet i s.bound), s) := by
  have hg {α : Type} (a : α) : s.guarded i a = .error (.outsideSet i s.bound) :=
    if_neg (Nat.not_lt.mpr hi)
  refine ⟨?_, ?_, ?_⟩
  · rw [perform, add, hg]
    rfl
  · rw [perform, remove, hg]
    rfl
  · rw [perform, contains, hg]
    rfl

/-- Every command gets the answer that the list of the members gives, and does to it the same. -/
theorem perform_listed (s : IndexSet) (k : Command) :
    s.listed.perform k = ((s.perform k).1, (s.perform k).2.listed) := by
  have hone {i : Nat} {b : Bool} {t : ListedSet} (hi : i < s.bound) :
      s.listed.one i b t = (.ok (some b), t) := if_pos hi
  cases k with
  | add i =>
    rw [ListedSet.perform]
    rcases Nat.lt_or_ge i s.bound with hi | hi
    · rw [hone hi, decide_not, decide_mem_listed, ← listed_insert hi, perform, add,
        guarded_of_lt hi]
      rfl
    · rw [one_of_le hi, (perform_of_le hi).1]
  | remove i =>
    rw [ListedSet.perform]
    rcases Nat.lt_or_ge i s.bound with hi | hi
    · rw [hone hi, decide_mem_listed, ← listed_erase, perform, remove, guarded_of_lt hi]
      rfl
    · rw [one_of_le hi, (perform_of_le hi).2.1]
  | contains i =>
    rw [ListedSet.perform]
    rcases Nat.lt_or_ge i s.bound with hi | hi
    · rw [hone hi, decide_mem_listed, perform, contains, guarded_of_lt hi]
      rfl
    · rw [one_of_le hi, (perform_of_le hi).2.2]
  | clear => rfl
  | resetFrom is => exact listed_each (fun _ _ hi => listed_insert hi) s.clear is
  | removeAll is => exact listed_each (fun _ _ _ => listed_erase) s is

theorem bound_perform (s : IndexSet) (k : Command) : (s.perform k).2.bound = s.bound := by
  cases k with
  | add i =>
    rcases Nat.lt_or_ge i s.bound with hi | hi
    · rw [perform, add, guarded_of_lt hi]
      exact bound_insert s i
    · rw [(perform_of_le hi).1]
  | remove i =>
    rcases Nat.lt_or_ge i s.bound with hi | hi
    · rw [perform, remove, guarded_of_lt hi]
      exact bound_erase s i
    · rw [(perform_of_le hi).2.1]
  | contains i => rfl
  | clear => rfl
  | resetFrom is => exact bound_each bound_insert s.clear is
  | removeAll is => exact bound_each bound_erase s is

/-! ## Histories -/

/-- A set cannot be told from the list of its members. -/
structure Agrees (s : IndexSet) (t : ListedSet) : Prop where
  bound : s.bound = t.bound
  toList : s.toList = t.members
  size : s.size = t.members.length
  isEmpty : s.isEmpty = t.members.isEmpty
  has : ∀ i, s.has i = true ↔ i ∈ t.members

theorem agrees_listed (s : IndexSet) : s.Agrees s.listed where
  bound := rfl
  toList := rfl
  size := Array.length_toList.symm
  isEmpty := by
    rw [isEmpty, ← Array.isEmpty_toList]
    rfl
  has := fun _ => has_iff

/-- An index at or above the bound stops every command that meets it: a command for one index leaves
the set as it was, and one for a list of indices has done what the indices before it ask for. -/
structure StopsOutside (s : IndexSet) : Prop where
  one : ∀ i, s.bound ≤ i →
    s.perform (.add i) = (.error (.outsideSet i s.bound), s) ∧
      s.perform (.remove i) = (.error (.outsideSet i s.bound), s) ∧
      s.perform (.contains i) = (.error (.outsideSet i s.bound), s)
  many : ∀ good bad rest, (∀ i ∈ good, i < s.bound) → s.bound ≤ bad →
    s.perform (.resetFrom (good ++ bad :: rest)) =
        (.error (.outsideSet bad s.bound), (s.perform (.resetFrom good)).2) ∧
      s.perform (.removeAll (good ++ bad :: rest)) =
        (.error (.outsideSet bad s.bound), (s.perform (.removeAll good)).2)

theorem stopsOutside (s : IndexSet) : s.StopsOutside where
  one := fun _ hi => perform_of_le hi
  many := by
    intro good bad rest hgood hbad
    constructor
    · exact settled_each_bad (s := s.clear) bound_insert hgood hbad rest
    · exact settled_each_bad bound_erase hgood hbad rest

/-- Every history of a set gets the answers that the same history of a list without repetitions gets,
and leaves the set with the members of the list, in their order. -/
theorem history_listed (n : Nat) (ks : List Command) :
    ∃ answers s t, history perform (empty n) ks = (answers, s) ∧
      history ListedSet.perform (.empty n) ks = (answers, t) ∧
      s.Agrees t ∧ s.bound = n ∧ t.members.Nodup ∧ (∀ i ∈ t.members, i < n) ∧
      s.StopsOutside := by
  have hbound : (history perform (empty n) ks).2.listed.bound = n := by
    exact history_keeps (P := fun s => s.bound = n) (fun s k hs => (bound_perform s k).trans hs)
      (bound_empty n) ks
  refine ⟨_, _, _, rfl, history_view perform_listed (empty n) ks, agrees_listed _, hbound,
    nodup _, fun i hi => ?_, stopsOutside _⟩
  exact hbound ▸ lt_bound hi

/-- What clearing and erasing leave behind in `sparse` is of no account. -/
example : (history perform (empty 4)
    [.resetFrom [0, 1, 2], .remove 0, .clear, .add 2]).2.toList = [2] := by
  decide +kernel

end MachineLiveness.IndexSet
