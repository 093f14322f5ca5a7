/-!
Commands given one after another to something that keeps a state and answers each of them.
-/

namespace MachineLiveness

variable {σ τ κ α : Type}

/-- The answers to some commands, one for each, and the state after the last of them. -/
def history (perform : σ → κ → α × σ) (s : σ) : List κ → List α × σ
  | [] => ([], s)
  | k :: ks =>
    let (answer, s) := perform s k
    let (answers, s) := history perform s ks
    (answer :: answers, s)

theorem history_cons (perform : σ → κ → α × σ) (s : σ) (k : κ) (ks : List κ) :
    history perform s (k :: ks) = ((perform s k).1 :: (history perform (perform s k).2 ks).1,
      (history perform (perform s k).2 ks).2) := rfl

theorem history_append (perform : σ → κ → α × σ) (s : σ) (ks ls : List κ) :
    (history perform s (ks ++ ls)).2 = (history perform (history perform s ks).2 ls).2 := by
  induction ks generalizing s with
  | nil => rfl
  | cons k ks ih => exact ih (perform s k).2

/-- What every command keeps, a history keeps. -/
theorem history_keeps {P : σ → Prop} {perform : σ → κ → α × σ}
    (hp : ∀ s k, P s → P (perform s k).2) {s : σ} (h : P s) (ks : List κ) :
    P (history perform s ks).2 := by
  induction ks generalizing s with
  | nil => exact h
  | cons k ks ih => exact ih (hp s k h)

/-- States that answer every command alike, and are related again afterwards, answer every history
alike. -/
theorem history_related {R : σ → τ → Prop} {perform : σ → κ → α × σ} {perform' : τ → κ → α × τ}
    (hR : ∀ s t k, R s t → (perform s k).1 = (perform' t k).1 ∧ R (perform s k).2 (perform' t k).2)
    {s : σ} {t : τ} (h : R s t) (ks : List κ) :
    (history perform s ks).1 = (history perform' t ks).1 ∧
      R (history perform s ks).2 (history perform' t ks).2 := by
  induction ks generalizing s t with
  | nil => exact ⟨rfl, h⟩
  | cons k ks ih =>
    obtain ⟨hanswer, hstep⟩ := hR s t k h
    obtain ⟨hanswers, hrest⟩ := ih hstep
    exact ⟨by rw [history_cons, history_cons, hanswer, hanswers], hrest⟩

/-- A view that answers every command as the state does answers every history as the state does. -/
theorem history_view {perform : σ → κ → α × σ} {perform' : τ → κ → α × τ} {view : σ → τ}
    (hv : ∀ s k, perform' (view s) k = ((perform s k).1, view (perform s k).2))
    (s : σ) (ks : List κ) :
    history perform' (view s) ks = ((history perform s ks).1, view (history perform s ks).2) := by
  induction ks generalizing s with
  | nil => rfl
  | cons k ks ih => rw [history_cons, history_cons, hv, ih]

end MachineLiveness
