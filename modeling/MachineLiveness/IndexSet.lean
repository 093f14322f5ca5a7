import MachineLiveness.Outcome
import Std.Data.ExtTreeMap

/-!
Sets of indices below a bound, which may be huge: a set takes room for what has been in it only.

The members stand in `dense`; `sparse` says of each member where. What `sparse` says of an index
that is no member means nothing, since membership is confirmed in `dense`; so neither clearing a set
nor erasing an index has to tidy it. The members are listed in the order of insertion, except that
erasing one moves the last into its place.
-/

namespace MachineLiveness

structure IndexSet where
  /-- Every index of the set is below this, member or not. -/
  bound : Nat
  dense : Array Nat
  sparse : Std.ExtTreeMap Nat Nat
  /-- Every member stands where `sparse` says. -/
  located : ∀ k i : Nat, dense[k]? = some i → sparse[i]? = some k
  below : ∀ i ∈ dense, i < bound

namespace IndexSet

/-- No members yet; indices range below `bound`. -/
def empty (bound : Nat) : IndexSet := ⟨bound, #[], ∅, by simp, by simp⟩

/-- An empty set, unless a table of eight bytes for each index could not be addressed. -/
def create (bound : Nat) : Except Fault IndexSet :=
  if 8 * bound < 1 <<< 63 then .ok (empty bound) else .error .tooLarge

/-- Number of members. -/
def size (s : IndexSet) : Nat := s.dense.size

def isEmpty (s : IndexSet) : Bool := s.dense.isEmpty

/-- The members in the order in which they stand. -/
def toList (s : IndexSet) : List Nat := s.dense.toList

/-- The members in ascending order. -/
def ascending (s : IndexSet) : List Nat := s.toList.mergeSort

/-- Where a member stands. -/
def position? (s : IndexSet) (i : Nat) : Option Nat :=
  s.sparse[i]?.filter fun k => s.dense[k]? = some i

/-- Whether an index is a member. -/
def has (s : IndexSet) (i : Nat) : Bool := (s.position? i).isSome

theorem position?_eq_some_iff {s : IndexSet} {i k : Nat} :
    s.position? i = some k ↔ s.dense[k]? = some i := by
  constructor
  · intro h
    obtain ⟨_, hk⟩ := Option.filter_eq_some_iff.1 h
    simpa using hk
  · intro h
    exact Option.filter_eq_some_iff.2 ⟨s.located k i h, by simpa using h⟩

theorem has_iff {s : IndexSet} {i : Nat} : s.has i = true ↔ i ∈ s.toList := by
  rw [has, Option.isSome_iff_exists]
  simp only [position?_eq_some_iff, toList, Array.mem_toList_iff, Array.mem_iff_getElem?]

theorem lt_bound {s : IndexSet} {i : Nat} (h : i ∈ s.toList) : i < s.bound :=
  s.below i (Array.mem_toList_iff.1 h)

theorem nodup (s : IndexSet) : s.toList.Nodup := by
  rw [toList, List.nodup_iff_pairwise_ne, List.pairwise_iff_getElem]
  intro j k hj hk hjk he
  have hj' := s.located j _ (Array.getElem?_eq_getElem (by simpa using hj))
  have hk' := s.located k _ (Array.getElem?_eq_getElem (by simpa using hk))
  simp only [Array.getElem_toList] at he
  rw [he, hk'] at hj'
  simp at hj'
  omega

/-! ## Changing a set -/

/-- Forget all members. -/
def clear (s : IndexSet) : IndexSet := ⟨s.bound, #[], s.sparse, by simp, by simp⟩

/-- Add an index at the end; nothing happens if it is a member, or not below the bound. -/
def insert (s : IndexSet) (i : Nat) : IndexSet :=
  if h : i < s.bound ∧ s.has i = false then
    { bound := s.bound
      dense := s.dense.push i
      sparse := s.sparse.insert i s.dense.size
      located := by
        intro k j hk
        rw [Array.getElem?_push] at hk
        simp only [Std.ExtTreeMap.getElem?_insert, Nat.compare_eq_eq]
        by_cases hs : k = s.dense.size
        · simp_all
        · rw [if_neg hs] at hk
          have hne : i ≠ j := by
            rintro rfl
            have hm : s.has i = true :=
              has_iff.2 (Array.mem_toList_iff.2 (Array.mem_iff_getElem?.2 ⟨k, hk⟩))
            rw [h.2] at hm
            cases hm
          rw [if_neg hne]
          exact s.located k j hk
      below := by
        intro j hj
        rcases Array.mem_push.1 hj with hj | rfl
        · exact s.below j hj
        · exact h.1 }
  else s

/-- Take a member out and put the last member into its place. -/
def erase (s : IndexSet) (i : Nat) : IndexSet :=
  match h : s.position? i with
  | none => s
  | some k =>
    let last := s.dense.size - 1
    let moved := s.dense.getD last i
    { bound := s.bound
      dense := (s.dense.setIfInBounds k moved).pop
      sparse := s.sparse.insert moved k
      located := by
        intro p j hp
        have hk := position?_eq_some_iff.1 h
        obtain ⟨hks, _⟩ := Array.getElem?_eq_some_iff.1 hk
        have hm : s.dense[last]? = some moved := by
          have hl : last < s.dense.size := by
            show s.dense.size - 1 < s.dense.size
            omega
          rw [Array.getElem?_eq_getElem hl]
          simp [moved, hl]
        have hlast : last = s.dense.size - 1 := rfl
        clear_value moved last
        rw [Array.getElem?_pop, Array.size_setIfInBounds, ← hlast] at hp
        simp only [Std.ExtTreeMap.getElem?_insert, Nat.compare_eq_eq]
        by_cases hpl : p < last
        · rw [if_pos hpl, Array.getElem?_setIfInBounds] at hp
          by_cases hkp : k = p
          · rw [if_pos hkp, if_pos hks] at hp
            rw [if_pos (by simpa using hp), hkp]
          · rw [if_neg hkp] at hp
            have hj := s.located p j hp
            rw [if_neg]
            · exact hj
            · rintro rfl
              rw [s.located last moved hm] at hj
              simp at hj
              omega
        · rw [if_neg hpl] at hp
          cases hp
      below := by
        intro j hj
        have hk := position?_eq_some_iff.1 h
        obtain ⟨hks, _⟩ := Array.getElem?_eq_some_iff.1 hk
        have hl : last < s.dense.size := by
          show s.dense.size - 1 < s.dense.size
          omega
        have hm : moved ∈ s.dense := by
          have he : moved = s.dense[last] := by simp [moved, hl]
          rw [he]
          exact Array.getElem_mem hl
        obtain ⟨p, hp⟩ := Array.mem_iff_getElem?.1 hj
        rw [Array.getElem?_pop] at hp
        split at hp
        · rw [Array.getElem?_setIfInBounds] at hp
          split at hp
          · obtain rfl : moved = j := by simpa using hp
            exact s.below moved hm
          · exact s.below j (Array.mem_iff_getElem?.2 ⟨p, hp⟩)
        · cases hp }

/-! ## What the operations do to the list of members -/

@[simp] theorem toList_empty (n : Nat) : (empty n).toList = [] := rfl

@[simp] theorem toList_clear (s : IndexSet) : s.clear.toList = [] := rfl

theorem toList_insert {s : IndexSet} {i : Nat} (hi : i < s.bound) :
    (s.insert i).toList = if i ∈ s.toList then s.toList else s.toList ++ [i] := by
  unfold insert
  by_cases hm : i ∈ s.toList
  · rw [if_pos hm, dif_neg]
    rintro ⟨_, hh⟩
    rw [has_iff.2 hm] at hh
    cases hh
  · have hh : s.has i = false := by
      rw [← Bool.not_eq_true, has_iff]
      exact hm
    rw [if_neg hm, dif_pos ⟨hi, hh⟩]
    simp [toList]

theorem mem_insert {s : IndexSet} {i j : Nat} (hi : i < s.bound) :
    j ∈ (s.insert i).toList ↔ j ∈ s.toList ∨ j = i := by
  rw [toList_insert hi]
  split
  · rename_i hm
    constructor
    · exact .inl
    · rintro (h | rfl)
      · exact h
      · exact hm
  · simp

theorem erase_of_not_mem {s : IndexSet} {i : Nat} (h : i ∉ s.toList) : s.erase i = s := by
  unfold erase
  split
  · rfl
  · rename_i k hk
    have hh : s.has i = true := by simp [has, hk]
    exact absurd (has_iff.1 hh) h

theorem toList_erase {s : IndexSet} {i last : Nat} (hi : i ∈ s.toList)
    (hl : s.toList.getLast? = some last) :
    (s.erase i).toList = (s.toList.map fun j => if j = i then last else j).dropLast := by
  unfold erase
  split
  · rename_i hk
    have hh := has_iff.2 hi
    simp [has, hk] at hh
  · rename_i k hk
    have hki := position?_eq_some_iff.1 hk
    obtain ⟨hks, hget⟩ := Array.getElem?_eq_some_iff.1 hki
    have hmoved : s.dense.getD (s.dense.size - 1) i = last := by
      rw [List.getLast?_eq_getElem?] at hl
      simp only [toList, Array.length_toList, Array.getElem?_toList] at hl
      simp [hl]
    have hset : s.toList.set k last = s.toList.map fun j => if j = i then last else j := by
      refine List.ext_getElem (by simp) fun n hn _ => ?_
      rw [List.getElem_set, List.getElem_map]
      simp only [List.length_set] at hn
      by_cases hkn : k = n
      · subst hkn
        rw [if_pos rfl, if_pos]
        simpa [toList] using hget
      · rw [if_neg hkn, if_neg]
        intro hni
        have hn' : n < s.dense.size := by simpa [toList] using hn
        have h1 := s.located n i (by
          rw [Array.getElem?_eq_getElem hn']
          simpa [toList] using hni)
        rw [s.located k i hki] at h1
        exact hkn (by simpa using h1)
    rw [← hset]
    simp only [toList, Array.toList_pop, Array.toList_setIfInBounds, hmoved]

theorem mem_erase {s : IndexSet} {i j : Nat} : j ∈ (s.erase i).toList ↔ j ∈ s.toList ∧ j ≠ i := by
  by_cases hi : i ∈ s.toList
  · obtain ⟨front, last, hs⟩ :=
      (List.eq_nil_or_concat s.toList).resolve_left (List.ne_nil_of_mem hi)
    have hl : s.toList.getLast? = some last := by simp [hs]
    have hnodup := s.nodup
    rw [toList_erase hi hl]
    rw [List.concat_eq_append] at hs
    rw [hs] at hi hnodup ⊢
    simp only [List.nodup_append, List.mem_singleton, forall_eq] at hnodup
    simp only [List.mem_append, List.mem_singleton] at hi
    simp only [List.map_append, List.map_cons, List.map_nil, List.dropLast_concat, List.mem_map,
      List.mem_append, List.mem_singleton]
    constructor
    · rintro ⟨a, ha, rfl⟩
      have hal := hnodup.2.2 a ha
      split
      · subst a
        exact ⟨.inr rfl, fun h => hal h.symm⟩
      · exact ⟨.inl ha, by assumption⟩
    · rintro ⟨hj | rfl, hne⟩
      · exact ⟨j, hj, if_neg hne⟩
      · rcases hi with hi | rfl
        · exact ⟨i, hi, if_pos rfl⟩
        · exact absurd rfl hne
  · rw [erase_of_not_mem hi]
    constructor
    · intro hj
      exact ⟨hj, fun h => hi (h ▸ hj)⟩
    · exact And.left

/-! ## Operations that refuse an index at or above the bound -/

/-- What `a` is, for an index below the bound. -/
def guarded {α : Type} (s : IndexSet) (i : Nat) (a : α) : Except Fault α :=
  if i < s.bound then .ok a else .error (.outsideSet i s.bound)

def contains (s : IndexSet) (i : Nat) : Except Fault Bool := s.guarded i (s.has i)

/-- Insert an index and tell whether it was new. -/
def add (s : IndexSet) (i : Nat) : Except Fault (Bool × IndexSet) :=
  s.guarded i (!s.has i, s.insert i)

/-- Erase an index and tell whether it was a member. -/
def remove (s : IndexSet) (i : Nat) : Except Fault (Bool × IndexSet) :=
  s.guarded i (s.has i, s.erase i)

/-- Change the set with one index after another; a bad one stops the work and leaves what the
earlier ones did. -/
def each (f : IndexSet → Nat → IndexSet) (s : IndexSet) (is : List Nat) :
    Except (Stopped IndexSet) IndexSet :=
  is.foldlM (fun s i => keeping s (s.guarded i (f s i))) s

/-- Insert indices one by one. -/
def addAll (s : IndexSet) (is : List Nat) : Except (Stopped IndexSet) IndexSet := s.each insert is

/-- Erase indices one by one. -/
def removeAll (s : IndexSet) (is : List Nat) : Except (Stopped IndexSet) IndexSet := s.each erase is

/-- Replace the members by these indices. -/
def resetFrom (s : IndexSet) (is : List Nat) : Except (Stopped IndexSet) IndexSet :=
  s.clear.addAll is

/-! ## Histories -/

/-- What may be asked of a set. -/
inductive Command where
  | add (i : Nat)
  | remove (i : Nat)
  | contains (i : Nat)
  | clear
  | resetFrom (is : List Nat)
  | removeAll (is : List Nat)
  deriving DecidableEq, Repr

/-- What the command found out, if that is one thing. -/
abbrev Answer := Except Fault (Option Bool)

/-- A command that stops leaves the set as it was then. -/
def perform (s : IndexSet) : Command → Answer × IndexSet
  | .add i => told (s.add i)
  | .remove i => told (s.remove i)
  | .contains i => ((s.contains i).map some, s)
  | .clear => (.ok none, s.clear)
  | .resetFrom is => settled (s.resetFrom is)
  | .removeAll is => settled (s.removeAll is)
where
  told : Except Fault (Bool × IndexSet) → Answer × IndexSet
    | .ok (b, t) => (.ok (some b), t)
    | .error f => (.error f, s)
  settled : Except (Stopped IndexSet) IndexSet → Answer × IndexSet
    | .ok t => (.ok none, t)
    | .error e => (.error e.fault, e.state)

/-! ## The bound never changes -/

@[simp] theorem bound_empty (n : Nat) : (empty n).bound = n := rfl

@[simp] theorem bound_clear (s : IndexSet) : s.clear.bound = s.bound := rfl

@[simp] theorem bound_insert (s : IndexSet) (i : Nat) : (s.insert i).bound = s.bound := by
  unfold insert
  split <;> rfl

@[simp] theorem bound_erase (s : IndexSet) (i : Nat) : (s.erase i).bound = s.bound := by
  unfold erase
  split <;> rfl

theorem guarded_of_lt {α : Type} {s : IndexSet} {i : Nat} {a : α} (h : i < s.bound) :
    s.guarded i a = .ok a := if_pos h

theorem guarded_eq_ok {α : Type} {s : IndexSet} {i : Nat} {a b : α} :
    s.guarded i a = .ok b ↔ i < s.bound ∧ a = b := by
  by_cases h : i < s.bound <;> simp [guarded, h]

section Each

variable {f : IndexSet → Nat → IndexSet} {s t : IndexSet} {i : Nat} {is : List Nat}

theorem each_cons_of_lt (hi : i < s.bound) : s.each f (i :: is) = (f s i).each f is := by
  rw [each, List.foldlM_cons, guarded_of_lt hi]
  rfl

theorem each_cons_of_le (hi : s.bound ≤ i) :
    s.each f (i :: is) = .error ⟨.outsideSet i s.bound, s⟩ := by
  rw [each, List.foldlM_cons, guarded, if_neg (Nat.not_lt.mpr hi)]
  rfl

/-- The bound stays, whether or not a bad index stops the work. -/
theorem bound_each (hf : ∀ s i, (f s i).bound = s.bound) (s : IndexSet) (is : List Nat) :
    (perform.settled (s.each f is)).2.bound = s.bound := by
  induction is generalizing s with
  | nil => rfl
  | cons i is ih =>
    rcases Nat.lt_or_ge i s.bound with hi | hi
    · rw [each_cons_of_lt hi, ih, hf]
    · rw [each_cons_of_le hi]
      rfl

theorem bound_of_each (hf : ∀ s i, (f s i).bound = s.bound) (h : s.each f is = .ok t) :
    t.bound = s.bound := by
  have hbound := bound_each hf s is
  rw [h] at hbound
  exact hbound

end Each

theorem bound_of_removeAll {s t : IndexSet} {is : List Nat} (h : s.removeAll is = .ok t) :
    t.bound = s.bound := bound_of_each bound_erase h

theorem bound_of_resetFrom {s t : IndexSet} {is : List Nat} (h : s.resetFrom is = .ok t) :
    t.bound = s.bound := bound_of_each bound_insert (s := s.clear) h

end IndexSet

end MachineLiveness
