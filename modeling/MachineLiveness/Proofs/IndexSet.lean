import Mathlib.Data.List.Sort
import MachineLiveness.IndexSet
import MachineLiveness.Tables

/-!
Whole lists put into a set of indices and taken out of it: as long as every index is below the bound
nothing stops, and membership is what one expects of sets.
-/

namespace MachineLiveness.IndexSet

/-- Both sets have the same members. -/
def Shows (s : IndexSet) (t : Indices) : Prop := ∀ x, x ∈ s.toList ↔ x ∈ t

theorem bound_foldl {f : IndexSet → Nat → IndexSet} (hf : ∀ s i, (f s i).bound = s.bound)
    (s : IndexSet) (is : List Nat) : (is.foldl f s).bound = s.bound := by
  induction is generalizing s with
  | nil => rfl
  | cons i is ih => rw [List.foldl_cons, ih, hf]

theorem mem_foldl_insert {s : IndexSet} {is : List Nat} {x : Nat} (h : ∀ i ∈ is, i < s.bound) :
    x ∈ (is.foldl insert s).toList ↔ x ∈ s.toList ∨ x ∈ is := by
  induction is generalizing s with
  | nil => simp
  | cons i is ih =>
    rw [List.foldl_cons, ih, mem_insert (h i (by simp)), List.mem_cons, or_assoc]
    intro j hj
    rw [bound_insert]
    exact h j (by simp [hj])

theorem mem_foldl_erase {s : IndexSet} {is : List Nat} {x : Nat} :
    x ∈ (is.foldl erase s).toList ↔ x ∈ s.toList ∧ x ∉ is := by
  induction is generalizing s with
  | nil => simp
  | cons i is ih => rw [List.foldl_cons, ih, mem_erase, List.mem_cons, not_or, and_assoc]

theorem each_eq {f : IndexSet → Nat → IndexSet} (hf : ∀ s i, (f s i).bound = s.bound)
    {s : IndexSet} {is : List Nat} (h : ∀ i ∈ is, i < s.bound) :
    s.each f is = .ok (is.foldl f s) := by
  induction is generalizing s with
  | nil => rfl
  | cons i is ih =>
    rw [each_cons_of_lt (h i (by simp)), List.foldl_cons]
    apply ih
    intro j hj
    rw [hf]
    exact h j (by simp [hj])

theorem addAll_eq {s : IndexSet} {is : List Nat} (h : ∀ i ∈ is, i < s.bound) :
    s.addAll is = .ok (is.foldl insert s) := each_eq bound_insert h

theorem removeAll_eq {s : IndexSet} {is : List Nat} (h : ∀ i ∈ is, i < s.bound) :
    s.removeAll is = .ok (is.foldl erase s) := each_eq bound_erase h

theorem resetFrom_eq {s : IndexSet} {is : List Nat} (h : ∀ i ∈ is, i < s.bound) :
    s.resetFrom is = .ok (is.foldl insert s.clear) := addAll_eq h

theorem mem_ascending {s : IndexSet} {x : Nat} : x ∈ s.ascending ↔ x ∈ s.toList :=
  (List.mergeSort_perm s.toList _).mem_iff

/-- Sets with the same members list them alike. -/
theorem ascending_congr {s t : IndexSet} (h : ∀ x, x ∈ s.toList ↔ x ∈ t.toList) :
    s.ascending = t.ascending := by
  have hsorted (r : IndexSet) : r.ascending.Pairwise (· ≤ ·) :=
    List.pairwise_mergeSort' (· ≤ ·) r.toList
  have hmembers : s.toList.Perm t.toList := (List.perm_ext_iff_of_nodup s.nodup t.nodup).mpr h
  have hperm : s.ascending.Perm t.ascending :=
    ((List.mergeSort_perm _ _).trans hmembers).trans (List.mergeSort_perm _ _).symm
  exact hperm.eq_of_pairwise (fun _ _ _ _ hle hge => Nat.le_antisymm hle hge) (hsorted s)
    (hsorted t)

end MachineLiveness.IndexSet
