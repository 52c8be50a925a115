import Mathlib.Tactic.Ring

/-! # Fixed-width arithmetic that is checked

Additions, subtractions and slices that have no result when the exact one does not fit. A
computation made of them that has a result is the same computation on the naturals.
-/
namespace CheckedArithmetic

/-- `a + b` in `w` bits. -/
def checkedAdd (w a b : ℕ) : Option ℕ := if a + b < 2 ^ w then some (a + b) else none

def checkedSub (a b : ℕ) : Option ℕ := if b ≤ a then some (a - b) else none

/-- `&items[start..]`. -/
def sliceFrom {α : Type*} (items : List α) (start : ℕ) : Option (List α) :=
  if start ≤ items.length then some (items.drop start) else none

theorem checkedAdd_fits {w a b : ℕ} (h : a + b < 2 ^ w) : checkedAdd w a b = some (a + b) :=
  if_pos h

theorem checkedAdd_overflows {w a b : ℕ} (h : 2 ^ w ≤ a + b) : checkedAdd w a b = none :=
  if_neg (Nat.not_lt.mpr h)

theorem checkedSub_fits {a b : ℕ} (h : b ≤ a) : checkedSub a b = some (a - b) := if_pos h

theorem sliceFrom_fits {α : Type*} {items : List α} {start : ℕ} (h : start ≤ items.length) :
    sliceFrom items start = some (items.drop start) := if_pos h

/-- A loop whose every round is in range, under an invariant that knows what is left. -/
theorem foldlM_fits {α β : Type*} {f : β → α → Option β} {g : β → α → β}
    {I : List α → β → Prop}
    (step : ∀ a l b, I (a :: l) b → f b a = some (g b a) ∧ I l (g b a)) {l : List α} {b : β}
    (h : I l b) : l.foldlM f b = some (l.foldl g b) ∧ I [] (l.foldl g b) := by
  induction l generalizing b with
  | nil => exact ⟨rfl, h⟩
  | cons a l ih =>
    obtain ⟨hround, hrest⟩ := step a l b h
    rw [List.foldlM_cons, hround, List.foldl_cons]
    exact ih hrest

end CheckedArithmetic
