import Mathlib.Data.List.Basic
import MachineLiveness.Block

/-!
Texts that can be told apart without being told where they end. A way to write values is legible when
equal characters, whatever may come after them, mean equal values; texts put one after another stay
legible as long as each can be seen to end where the next one begins.
-/

namespace MachineLiveness

variable {α β γ : Type}

/-- Where two values are written and something follows that may come next, equal characters mean that
the values show the same and that the same follows. -/
def Legible (write : α → String) (shown : α → β) (next : List Char → Prop) : Prop :=
  ∀ a b r s, next r → next s → (write a).toList ++ r = (write b).toList ++ s →
    shown a = shown b ∧ r = s

/-! ## How a text begins -/

/-- There is no text, or it begins with a character of a class. -/
def Opens (p : Char → Bool) (r : List Char) : Prop :=
  ∀ c ∈ r.head?, p c = true

@[simp] theorem opens_nil (p : Char → Bool) : Opens p [] := by
  simp [Opens]

@[simp] theorem opens_cons {p : Char → Bool} {c : Char} {r : List Char} :
    Opens p (c :: r) ↔ p c = true := by
  simp [Opens]

theorem opens_append {p : Char → Bool} {l r : List Char} (hl : l ≠ []) (hp : ∀ c ∈ l, p c = true) :
    Opens p (l ++ r) := by
  cases l with
  | nil => exact absurd rfl hl
  | cons c l => exact opens_cons.mpr (hp c List.mem_cons_self)

theorem opens_text {p : Char → Bool} {t : String} (h : t.toList.head?.any p = true) (r : List Char) :
    Opens p (t.toList ++ r) := by
  cases ht : t.toList with
  | nil => simp [ht] at h
  | cons c l => simpa [ht] using h

/-- There is no text, or it begins with one of some texts. -/
def Starts (ts : List String) (r : List Char) : Prop :=
  r = [] ∨ ∃ t ∈ ts, t.toList <+: r

theorem starts_append {ts : List String} {t : String} (h : t ∈ ts) (r : List Char) :
    Starts ts (t.toList ++ r) :=
  .inr ⟨t, h, List.prefix_append _ _⟩

theorem Starts.mono {ts us : List String} {r : List Char} (h : Starts ts r) (hsub : ts ⊆ us) :
    Starts us r := by
  rcases h with rfl | ⟨t, ht, hr⟩
  · exact .inl rfl
  · exact .inr ⟨t, hsub ht, hr⟩

theorem Starts.opens {ts : List String} {r : List Char} (h : Starts ts r) {p : Char → Bool}
    (hp : ∀ t ∈ ts, t.toList.head?.any p = true) : Opens p r := by
  rcases h with rfl | ⟨t, ht, r', rfl⟩
  · exact opens_nil p
  · exact opens_text (hp t ht) r'

/-- Neither text is how the other one begins. -/
def Apart (t u : String) : Prop :=
  ¬t.toList <+: u.toList ∧ ¬u.toList <+: t.toList

instance (t u : String) : Decidable (Apart t u) :=
  inferInstanceAs (Decidable (_ ∧ _))

theorem Starts.not_prefix {ts : List String} {r : List Char} (h : Starts ts r) {tag : String}
    (htag : tag.toList ≠ []) (hts : ∀ t ∈ ts, Apart tag t) : ¬tag.toList <+: r := by
  intro hr
  rcases h with rfl | ⟨t, ht, htr⟩
  · exact htag (List.prefix_nil.mp hr)
  · rcases List.prefix_or_prefix_of_prefix hr htr with htt | htt
    · exact (hts t ht).1 htt
    · exact (hts t ht).2 htt

/-- A word ends before the first character that is not of its class. -/
theorem word_unique {p : Char → Bool} {l m r s : List Char} (hl : ∀ c ∈ l, p c = true)
    (hm : ∀ c ∈ m, p c = true) (hr : Opens (fun c => !p c) r) (hs : Opens (fun c => !p c) s)
    (h : l ++ r = m ++ s) : l = m ∧ r = s := by
  induction l generalizing m with
  | nil =>
    cases m with
    | nil => exact ⟨rfl, h⟩
    | cons c m =>
      rw [List.nil_append] at h
      subst h
      have hc := opens_cons.mp hr
      simp [hm c List.mem_cons_self] at hc
  | cons c l ih =>
    cases m with
    | nil =>
      rw [List.nil_append] at h
      subst h
      have hc := opens_cons.mp hs
      simp [hl c List.mem_cons_self] at hc
    | cons d m =>
      rw [List.cons_append, List.cons_append, List.cons.injEq] at h
      obtain ⟨rfl, h⟩ := h
      obtain ⟨rfl, hrest⟩ := ih (fun c hc => hl c (List.mem_cons_of_mem _ hc))
        (fun c hc => hm c (List.mem_cons_of_mem _ hc)) h
      exact ⟨rfl, hrest⟩

/-! ## Putting texts together -/

namespace Legible

variable {write : α → String} {shown : α → β} {next : List Char → Prop}

theorem imp {shown' : α → γ} {next' : List Char → Prop} (h : Legible write shown next)
    (hnext : ∀ r, next' r → next r) (hshown : ∀ a b, shown a = shown b → shown' a = shown' b) :
    Legible write shown' next' := by
  intro a b r s hr hs hab
  obtain ⟨hsame, hrest⟩ := h a b r s (hnext r hr) (hnext s hs) hab
  exact ⟨hshown a b hsame, hrest⟩

/-- A part of a value is as legible as it is alone. -/
theorem part (h : Legible write shown next) (f : γ → α) :
    Legible (fun c => write (f c)) (fun c => shown (f c)) next :=
  fun a b => h (f a) (f b)

theorem word {p : Char → Bool} (hp : ∀ a, (write a).toList.all p = true)
    (hshown : ∀ a b, write a = write b → shown a = shown b) :
    Legible write shown (Opens fun c => !p c) := by
  intro a b r s hr hs hab
  obtain ⟨hword, hrest⟩ :=
    word_unique (List.all_eq_true.mp (hp a)) (List.all_eq_true.mp (hp b)) hr hs hab
  exact ⟨hshown a b (String.toList_injective hword), hrest⟩

theorem append {write' : α → String} {shown' : α → γ} {next' : List Char → Prop}
    (h : Legible write shown next) (h' : Legible write' shown' next')
    (hnext : ∀ a r, next' r → next ((write' a).toList ++ r)) :
    Legible (fun a => write a ++ write' a) (fun a => (shown a, shown' a)) next' := by
  intro a b r s hr hs hab
  rw [String.toList_append, String.toList_append, List.append_assoc, List.append_assoc] at hab
  obtain ⟨hfirst, hrest⟩ := h a b _ _ (hnext a r hr) (hnext b s hs) hab
  obtain ⟨hsecond, hrest⟩ := h' a b r s hr hs hrest
  exact ⟨Prod.ext hfirst hsecond, hrest⟩

/-- The same text before every value changes nothing. -/
theorem before (h : Legible write shown next) (t : String) :
    Legible (fun a => t ++ write a) shown next := by
  intro a b r s hr hs hab
  rw [String.toList_append, String.toList_append, List.append_assoc, List.append_assoc] at hab
  exact h a b r s hr hs (List.append_cancel_left hab)

/-- A text that may come next closes every value, and then anything may follow. -/
theorem close (h : Legible write shown next) (t : String) (ht : ∀ r, next (t.toList ++ r)) :
    Legible (fun a => write a ++ t) shown fun _ => True := by
  intro a b r s _ _ hab
  rw [String.toList_append, String.toList_append, List.append_assoc, List.append_assoc] at hab
  obtain ⟨hsame, hrest⟩ := h a b _ _ (ht r) (ht s) hab
  exact ⟨hsame, List.append_cancel_left hrest⟩

end Legible

/-! ## Lists -/

/-- A way to write lists that shows by a tag whether the list has members: what may follow begins
otherwise, and a list is told apart from what follows it. -/
structure Tagged (write : List α → String) (shown : List α → β) (tag : String) (ts : List String) :
    Prop where
  starts : ∀ as r, Starts ts r → Starts (tag :: ts) ((write as).toList ++ r)
  legible : Legible write shown (Starts ts)

namespace Tagged

variable {write : α → String} {shown : α → β} {next : List Char → Prop} {tag : String}
  {ts : List String}

theorem join_cons_append (a : α) (as : List α) (r : List Char) :
    (String.join ((a :: as).map write)).toList ++ r =
      (write a).toList ++ ((String.join (as.map write)).toList ++ r) := by
  rw [List.map_cons, String.join_cons, String.toList_append, List.append_assoc]

theorem prefix_join (htag : ∀ a, tag.toList <+: (write a).toList) (a : α) (as : List α)
    (r : List Char) : tag.toList <+: (String.join ((a :: as).map write)).toList ++ r := by
  rw [join_cons_append]
  exact (htag a).trans (List.prefix_append _ _)

theorem starts_join (htag : ∀ a, tag.toList <+: (write a).toList) (as : List α) {r : List Char}
    (hr : Starts ts r) : Starts (tag :: ts) ((String.join (as.map write)).toList ++ r) := by
  cases as with
  | nil => simpa using hr.mono (List.subset_cons_self tag ts)
  | cons a as => exact .inr ⟨tag, List.mem_cons_self, prefix_join htag a as r⟩

/-- Values one after another, each of them with the tag. -/
theorem join (h : Legible write shown next) (htag : ∀ a, tag.toList <+: (write a).toList)
    (hne : tag.toList ≠ []) (hts : ∀ t ∈ ts, Apart tag t)
    (hnext : ∀ r, Starts (tag :: ts) r → next r) :
    Tagged (fun as => String.join (as.map write)) (List.map shown) tag ts where
  starts := fun as _ hr => starts_join htag as hr
  legible := by
    intro as
    induction as with
    | nil =>
      intro bs r s hr hs hab
      cases bs with
      | nil => exact ⟨rfl, by simpa using hab⟩
      | cons b bs =>
        have hr' : r = (String.join ((b :: bs).map write)).toList ++ s := by simpa using hab
        exact absurd (hr' ▸ prefix_join htag b bs s) (hr.not_prefix hne hts)
    | cons a as ih =>
      intro bs r s hr hs hab
      cases bs with
      | nil =>
        have hs' : (String.join ((a :: as).map write)).toList ++ r = s := by simpa using hab
        exact absurd (hs' ▸ prefix_join htag a as r) (hs.not_prefix hne hts)
      | cons b bs =>
        obtain ⟨hfirst, hrest⟩ := h a b _ _ (hnext _ (starts_join htag as hr))
          (hnext _ (starts_join htag bs hs))
          ((join_cons_append a as r).symm.trans (hab.trans (join_cons_append b bs s)))
        obtain ⟨hothers, hrest⟩ := ih bs r s hr hs hrest
        exact ⟨by rw [List.map_cons, List.map_cons, hfirst, hothers], hrest⟩

/-- A list that is written only if it has members, and then with the tag. -/
theorem optional {write : List α → String} {shown : List α → β} {full : α × List α → String}
    (h : Legible full (fun p => shown (p.1 :: p.2)) next) (hnil : write [] = "")
    (hcons : ∀ a as, write (a :: as) = full (a, as)) (htag : ∀ p, tag.toList <+: (full p).toList)
    (hne : tag.toList ≠ []) (hts : ∀ t ∈ ts, Apart tag t) (hnext : ∀ r, Starts ts r → next r) :
    Tagged write shown tag ts := by
  have hstart (a : α) (as : List α) (r : List Char) : tag.toList <+: (write (a :: as)).toList ++ r :=
    hcons a as ▸ (htag (a, as)).trans (List.prefix_append _ _)
  constructor
  · intro as r hr
    cases as with
    | nil => simpa [hnil] using hr.mono (List.subset_cons_self tag ts)
    | cons a as => exact .inr ⟨tag, List.mem_cons_self, hstart a as r⟩
  · intro as bs r s hr hs hab
    cases as with
    | nil =>
      rw [hnil, String.toList_empty, List.nil_append] at hab
      cases bs with
      | nil =>
        rw [hnil, String.toList_empty, List.nil_append] at hab
        exact ⟨rfl, hab⟩
      | cons b bs => exact absurd (hab ▸ hstart b bs s) (hr.not_prefix hne hts)
    | cons a as =>
      cases bs with
      | nil =>
        rw [hnil, String.toList_empty, List.nil_append] at hab
        exact absurd (hab ▸ hstart a as r) (hs.not_prefix hne hts)
      | cons b bs =>
        rw [hcons, hcons] at hab
        exact h (a, as) (b, bs) r s (hnext r hr) (hnext s hs) hab

end Tagged

end MachineLiveness
