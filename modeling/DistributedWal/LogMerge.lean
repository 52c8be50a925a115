import DistributedWal.LogMatching

/-! # Merging a log with newer entries

Old entries stay as long as the new ones have the same terms. From the first place where
the terms differ on, only new entries are left.
-/
namespace LogMerge

variable {E : Type*} (term : E → ℕ)

def merge : List E → List E → List E
  | old, [] => old
  | [], e :: new => e :: new
  | x :: old, e :: new => if term x = term e then x :: merge old new else e :: new

/-- Both lists have an entry at the place, of different terms. -/
def Conflict (old new : List E) (p : ℕ) : Prop :=
  ∃ x y, old[p]? = some x ∧ new[p]? = some y ∧ term x ≠ term y

/-- Entries of one term at one place are equal. -/
def Compatible (old new : List E) : Prop :=
  ∀ (p : ℕ) (x y : E), old[p]? = some x → new[p]? = some y → term x = term y → x = y

variable {term} {old new : List E}

@[simp] theorem merge_nil (old : List E) : merge term old [] = old := by
  cases old <;> rfl

@[simp] theorem nil_merge (new : List E) : merge term [] new = new := by
  cases new <;> rfl

theorem Conflict.succ {x e : E} {p : ℕ} :
    Conflict term (x :: old) (e :: new) (p + 1) ↔ Conflict term old new p := Iff.rfl

theorem Conflict.zero {x e : E} :
    Conflict term (x :: old) (e :: new) 0 ↔ term x ≠ term e := by
  constructor
  · rintro ⟨y, z, hy, hz, hne⟩
    cases hy
    cases hz
    exact hne
  · intro hne
    exact ⟨x, e, rfl, rfl, hne⟩

/-- A conflict at or before the place: the new entry, or none. -/
theorem merge_of_conflict {p q : ℕ} (h : Conflict term old new p) (hpq : p ≤ q) :
    (merge term old new)[q]? = new[q]? := by
  induction old generalizing new p q with
  | nil =>
    obtain ⟨x, y, hx, _⟩ := h
    simp at hx
  | cons x old ih =>
    cases new with
    | nil =>
      obtain ⟨_, y, _, hy, _⟩ := h
      simp at hy
    | cons e new =>
      rw [merge]
      split
      · rename_i hterm
        cases p with
        | zero => exact absurd hterm (Conflict.zero.mp h)
        | succ p =>
          cases q with
          | zero => omega
          | succ q =>
            rw [List.getElem?_cons_succ, List.getElem?_cons_succ]
            exact ih (Conflict.succ.mp h) (Nat.le_of_succ_le_succ hpq)
      · rfl

/-- No conflict up to the place: the old entry, else the new one. -/
theorem merge_of_no_conflict {q : ℕ} (h : ∀ p ≤ q, ¬ Conflict term old new p) :
    (merge term old new)[q]? = old[q]?.or new[q]? := by
  induction old generalizing new q with
  | nil => simp
  | cons x old ih =>
    cases new with
    | nil => simp
    | cons e new =>
      have hterm : term x = term e := by
        by_contra hne
        exact h 0 (Nat.zero_le q) (Conflict.zero.mpr hne)
      rw [merge, if_pos hterm]
      cases q with
      | zero => rfl
      | succ q =>
        simp only [List.getElem?_cons_succ]
        apply ih
        intro p hp hc
        exact h (p + 1) (Nat.succ_le_succ hp) (Conflict.succ.mpr hc)

/-- A place of the new entries is taken over after a conflict, and where it is free. -/
theorem merge_eq_new_iff {q : ℕ} {y : E} (hnew : new[q]? = some y) :
    (merge term old new)[q]? = some y ↔
      (∃ p ≤ q, Conflict term old new p) ∨ ∀ x, old[q]? = some x → x = y := by
  by_cases hconf : ∃ p ≤ q, Conflict term old new p
  · obtain ⟨p, hp, hc⟩ := hconf
    rw [merge_of_conflict hc hp, hnew]
    exact iff_of_true rfl (Or.inl ⟨p, hp, hc⟩)
  · rw [merge_of_no_conflict (fun p hp h => hconf ⟨p, hp, h⟩), hnew]
    cases old[q]? with
    | none => simp
    | some x => simp [hconf]

theorem length_le_merge (old new : List E) : new.length ≤ (merge term old new).length := by
  induction old generalizing new with
  | nil => rw [nil_merge]
  | cons x old ih =>
    cases new with
    | nil => exact Nat.zero_le _
    | cons e new =>
      rw [merge]
      split
      · exact Nat.succ_le_succ (ih new)
      · exact le_rfl

theorem mem_merge {x : E} (h : x ∈ merge term old new) : x ∈ old ∨ x ∈ new := by
  obtain ⟨q, hq⟩ := List.mem_iff_getElem?.mp h
  by_cases hc : ∃ p ≤ q, Conflict term old new p
  · obtain ⟨p, hp, hc⟩ := hc
    rw [merge_of_conflict hc hp] at hq
    exact Or.inr (List.mem_of_getElem? hq)
  · rw [merge_of_no_conflict (fun p hp h => hc ⟨p, hp, h⟩), Option.or_eq_some_iff] at hq
    rcases hq with hq | ⟨_, hq⟩
    · exact Or.inl (List.mem_of_getElem? hq)
    · exact Or.inr (List.mem_of_getElem? hq)

/-- An old entry is lost only to a conflict. -/
theorem merge_old {q : ℕ} {x : E} (hx : old[q]? = some x) :
    (merge term old new)[q]? = some x ∨ ∃ p ≤ q, Conflict term old new p := by
  by_cases hc : ∃ p ≤ q, Conflict term old new p
  · exact Or.inr hc
  · left
    rw [merge_of_no_conflict (fun p hp h => hc ⟨p, hp, h⟩), hx, Option.some_or]

/-- A place of the new entries, when an old entry of the same term there is the same. -/
theorem merge_at {q : ℕ} {y : E} (hnew : new[q]? = some y)
    (hsame : ∀ x, old[q]? = some x → term x = term y → x = y) :
    (merge term old new)[q]? = some y := by
  by_cases hconf : ∃ p ≤ q, Conflict term old new p
  · obtain ⟨p, hp, hconf⟩ := hconf
    rw [merge_of_conflict hconf hp, hnew]
  · have hno : ∀ p ≤ q, ¬ Conflict term old new p := fun p hp hcon => hconf ⟨p, hp, hcon⟩
    rw [merge_of_no_conflict hno]
    cases hold : old[q]? with
    | none => rw [Option.none_or, hnew]
    | some x =>
      rw [Option.some_or]
      congr 1
      apply hsame x hold
      by_contra hne
      exact hno q le_rfl ⟨x, y, hold, hnew, hne⟩

/-- Compatible entries are taken over whole, unless the log has them already. -/
theorem merge_of_compatible (h : Compatible term old new) :
    new <+: old ∧ merge term old new = old ∨ ¬ new <+: old ∧ merge term old new = new := by
  by_cases hpre : new <+: old
  · left
    refine ⟨hpre, List.ext_getElem? (fun q => ?_)⟩
    have hno : ∀ p ≤ q, ¬ Conflict term old new p := by
      rintro p _ ⟨x, y, hx, hy, hne⟩
      rw [LogMatching.prefix_getElem? hpre hy] at hx
      cases hx
      exact hne rfl
    rw [merge_of_no_conflict hno]
    cases hx : old[q]? with
    | some x => rfl
    | none =>
      cases hy : new[q]? with
      | none => rfl
      | some y =>
        rw [LogMatching.prefix_getElem? hpre hy] at hx
        cases hx
  · right
    refine ⟨hpre, List.ext_getElem? (fun q => ?_)⟩
    by_cases hc : ∃ p ≤ q, Conflict term old new p
    · obtain ⟨p, hp, hc⟩ := hc
      exact merge_of_conflict hc hp
    · have hno : ∀ p ≤ q, ¬ Conflict term old new p := fun p hp h => hc ⟨p, hp, h⟩
      rw [merge_of_no_conflict hno]
      cases hx : old[q]? with
      | none => exact Option.none_or
      | some x =>
        cases hy : new[q]? with
        | some y =>
          have hterm : term x = term y := by
            by_contra hne
            exact hno q le_rfl ⟨x, y, hx, hy, hne⟩
          rw [h q x y hx hy hterm]
          rfl
        | none =>
          -- the new entries end before the place and are all old ones
          exfalso
          apply hpre
          rw [List.prefix_iff_getElem?]
          intro p hp
          have hle : new.length ≤ q := List.getElem?_eq_none_iff.mp hy
          have hlt := (List.getElem?_eq_some_iff.mp hx).1
          have hx' := List.getElem?_eq_getElem (l := old) (i := p) (by omega)
          have hy' := List.getElem?_eq_getElem (l := new) hp
          have hterm : term old[p] = term new[p] := by
            by_contra hne
            exact hno p (by omega) ⟨_, _, hx', hy', hne⟩
          rw [hx', h p _ _ hx' hy' hterm]

end LogMerge
