import Mathlib.Data.List.Induction

/-! # Runs of a labelled transition system

A run is a list of labels between two states. What holds across a run is proved
from what one step preserves; a run splits at every position of its list.
-/
namespace LabelledRuns

variable {σ ε : Type*} {step : σ → ε → σ → Prop}

inductive Steps (step : σ → ε → σ → Prop) : σ → List ε → σ → Prop where
  | nil (s) : Steps step s [] s
  | snoc {s t u es e} : Steps step s es t → step t e u → Steps step s (es ++ [e]) u

theorem Steps.one {s t : σ} {e : ε} (h : step s e t) : Steps step s [e] t :=
  .snoc (.nil s) h

theorem Steps.trans {s t u : σ} {es fs : List ε} (h : Steps step s es t)
    (k : Steps step t fs u) : Steps step s (es ++ fs) u := by
  induction k with
  | nil => simpa using h
  | snoc _ he ih =>
    rw [← List.append_assoc]
    exact .snoc ih he

theorem Steps.cons {s t u : σ} {e : ε} {es : List ε} (h : step s e t)
    (k : Steps step t es u) : Steps step s (e :: es) u := Steps.trans (.one h) k

/-- The step lemma gives the run lemma, for a property of the labels so far and the state. -/
theorem Steps.invariant {s : σ} (I : List ε → σ → Prop) (start : I [] s)
    (preserved : ∀ es t e u, Steps step s es t → I es t → step t e u → I (es ++ [e]) u)
    {es : List ε} {t : σ} (h : Steps step s es t) : I es t := by
  induction h with
  | nil => exact start
  | snoc h he ih => exact preserved _ _ _ _ h ih he

/-- The same for a property of the state alone. -/
theorem Steps.state_invariant {I : σ → Prop} {s t : σ} {es : List ε}
    (h : Steps step s es t) (start : I s)
    (preserved : ∀ t e u, I t → step t e u → I u) : I t :=
  h.invariant (fun _ => I) start (fun _ t e u _ => preserved t e u)

theorem Steps.nil_inv {s t : σ} (h : Steps step s [] t) : s = t := by
  generalize hl : ([] : List ε) = l at h
  cases h with
  | nil => rfl
  | snoc _ _ => simp at hl

theorem Steps.snoc_inv {s u : σ} {es : List ε} {e : ε} (h : Steps step s (es ++ [e]) u) :
    ∃ t, Steps step s es t ∧ step t e u := by
  generalize hl : es ++ [e] = l at h
  cases h with
  | nil => simp at hl
  | snoc h he =>
    obtain ⟨rfl, hf⟩ := List.append_inj' hl rfl
    obtain rfl := List.singleton_inj.mp hf
    exact ⟨_, h, he⟩

theorem Steps.split {s u : σ} {es fs : List ε} (h : Steps step s (es ++ fs) u) :
    ∃ t, Steps step s es t ∧ Steps step t fs u := by
  induction fs using List.reverseRecOn generalizing u with
  | nil => exact ⟨u, by simpa using h, .nil u⟩
  | append_singleton fs f ih =>
    rw [← List.append_assoc] at h
    obtain ⟨v, h, he⟩ := h.snoc_inv
    obtain ⟨t, hs, ht⟩ := ih h
    exact ⟨t, hs, .snoc ht he⟩

theorem Steps.cons_inv {s u : σ} {e : ε} {es : List ε} (h : Steps step s (e :: es) u) :
    ∃ t, step s e t ∧ Steps step t es u := by
  obtain ⟨t, h, k⟩ : ∃ t, Steps step s [e] t ∧ Steps step t es u := Steps.split h
  obtain ⟨r, h, he⟩ : ∃ r, Steps step s [] r ∧ step r e t := Steps.snoc_inv h
  obtain rfl := h.nil_inv
  exact ⟨t, he, k⟩

/-- A step taken somewhere in a run, with the run before it and the run after it. -/
theorem Steps.at {s u : σ} {es fs : List ε} {e : ε} (h : Steps step s (es ++ e :: fs) u) :
    ∃ t v, Steps step s es t ∧ step t e v ∧ Steps step v fs u := by
  obtain ⟨t, h, k⟩ := h.split
  obtain ⟨v, he, k⟩ := k.cons_inv
  exact ⟨t, v, h, he, k⟩

/-- A coarser step relation, with coarser labels, has the run too. -/
theorem Steps.map {ε' : Type*} {step' : σ → ε' → σ → Prop} {f : ε → ε'}
    (sub : ∀ s e t, step s e t → step' s (f e) t) {s t : σ} {es : List ε}
    (h : Steps step s es t) : Steps step' s (es.map f) t := by
  induction h with
  | nil => exact .nil _
  | snoc _ he ih =>
    rw [List.map_append]
    exact .snoc ih (sub _ _ _ he)

end LabelledRuns
