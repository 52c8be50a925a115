import Mathlib.Data.List.Basic

/-! # A log with a compaction point

A list of items, each with a term, of which the first is at the index after the base.
The items up to the base have been dropped; of them only the term of the last is kept.
-/
namespace CompactedLog

variable {τ δ : Type*}

structure AbstractLog (τ δ : Type*) where
  base : ℕ
  baseTerm : τ
  items : List (τ × δ)

def AbstractLog.empty (t : τ) : AbstractLog τ δ := ⟨0, t, []⟩

def AbstractLog.last (a : AbstractLog τ δ) : ℕ := a.base + a.items.length

def AbstractLog.lastTerm (a : AbstractLog τ δ) : τ :=
  (a.items.getLast?.map Prod.fst).getD a.baseTerm

/-- Indices start at 1: there is no term at 0, even when 0 is the base. -/
def AbstractLog.termAt (a : AbstractLog τ δ) (i : ℕ) : Option τ :=
  if i = 0 ∨ i < a.base then none
  else if i = a.base then some a.baseTerm
  else a.items[i - a.base - 1]?.map Prod.fst

/-- The items with their indices. -/
def AbstractLog.numbered (a : AbstractLog τ δ) : List (ℕ × τ × δ) :=
  a.items.mapIdx (fun k x => (a.base + 1 + k, x))

def AbstractLog.entriesFrom (a : AbstractLog τ δ) (i : ℕ) : List (ℕ × τ × δ) :=
  a.numbered.filter (fun x => i ≤ x.1)

inductive Operation (τ δ : Type*) where
  | append (term : τ) (data : δ)
  | truncateFrom (i : ℕ)
  | moveBase (i : ℕ) (term : τ)

/-- A truncation outside of the items changes nothing, nor does a base that is not ahead. -/
def AbstractLog.apply (a : AbstractLog τ δ) : Operation τ δ → AbstractLog τ δ
  | .append term data => { a with items := a.items ++ [(term, data)] }
  | .truncateFrom i =>
    if a.base < i ∧ i ≤ a.last then { a with items := a.items.take (i - a.base - 1) } else a
  | .moveBase i term =>
    if a.base < i then ⟨i, term, a.items.drop (i - a.base)⟩ else a

variable {a : AbstractLog τ δ}

theorem numbered_getElem? (k : ℕ) :
    a.numbered[k]? = a.items[k]?.map (fun x => (a.base + 1 + k, x)) :=
  List.getElem?_mapIdx

theorem numbered_length : a.numbered.length = a.items.length := List.length_mapIdx

theorem numbered_append (term : τ) (data : δ) :
    (a.apply (.append term data)).numbered = a.numbered ++ [(a.last + 1, term, data)] := by
  simp only [AbstractLog.apply, AbstractLog.numbered, List.mapIdx_concat, AbstractLog.last]
  rw [Nat.add_right_comm]

theorem numbered_take (n : ℕ) :
    AbstractLog.numbered { a with items := a.items.take n } = a.numbered.take n := by
  apply List.ext_getElem?
  intro k
  rw [List.getElem?_take, numbered_getElem?, numbered_getElem?, List.getElem?_take]
  split <;> rfl

/-- Dropping up to the new base keeps the index of every item that stays. -/
theorem numbered_drop {i : ℕ} (hi : a.base ≤ i) (term : τ) :
    AbstractLog.numbered ⟨i, term, a.items.drop (i - a.base)⟩ =
      a.numbered.drop (i - a.base) := by
  apply List.ext_getElem?
  intro k
  rw [List.getElem?_drop, numbered_getElem?, numbered_getElem?, List.getElem?_drop]
  dsimp only
  rw [show a.base + 1 + (i - a.base + k) = i + 1 + k by omega]

theorem index_of_getElem? {k : ℕ} {x : ℕ × τ × δ} (h : a.numbered[k]? = some x) :
    x.1 = a.base + 1 + k := by
  rw [numbered_getElem?] at h
  obtain ⟨y, _, rfl⟩ := Option.map_eq_some_iff.mp h
  rfl

/-- The items from an index on are a tail of the list. -/
theorem entriesFrom_eq (i : ℕ) : a.entriesFrom i = a.numbered.drop (i - a.base - 1) := by
  have hsplit := List.take_append_drop (i - a.base - 1) a.numbered
  rw [AbstractLog.entriesFrom]
  conv_lhs => rw [← hsplit]
  have hfront : (a.numbered.take (i - a.base - 1)).filter (fun x => i ≤ x.1) = [] := by
    refine List.filter_eq_nil_iff.mpr (fun x hx => ?_)
    obtain ⟨k, hk⟩ := List.mem_iff_getElem?.mp hx
    rw [List.getElem?_take] at hk
    split at hk
    · have := index_of_getElem? hk
      simp only [decide_eq_true_eq]
      omega
    · cases hk
  have hback : (a.numbered.drop (i - a.base - 1)).filter (fun x => i ≤ x.1) =
      a.numbered.drop (i - a.base - 1) := by
    refine List.filter_eq_self.mpr (fun x hx => ?_)
    obtain ⟨k, hk⟩ := List.mem_iff_getElem?.mp hx
    rw [List.getElem?_drop] at hk
    have := index_of_getElem? hk
    simp only [decide_eq_true_eq]
    omega
  rw [List.filter_append, hfront, hback, List.nil_append]

section

variable {i : ℕ} {t : τ}

/-- A base beyond the last item becomes the end of the log. -/
theorem moveBase_beyond (hi : a.last < i) :
    (a.apply (.moveBase i t)).last = i ∧ (a.apply (.moveBase i t)).lastTerm = t := by
  have hbase : a.base < i := by
    rw [AbstractLog.last] at hi
    omega
  have hnil : a.items.drop (i - a.base) = [] := by
    apply List.drop_eq_nil_of_le
    rw [AbstractLog.last] at hi
    omega
  simp only [AbstractLog.apply, if_pos hbase, AbstractLog.last, AbstractLog.lastTerm, hnil]
  exact ⟨rfl, rfl⟩

/-- The term of a held item. -/
theorem termAt_item (hi : a.base < i) :
    a.termAt i = a.items[i - a.base - 1]?.map Prod.fst := by
  rw [AbstractLog.termAt, if_neg (by omega), if_neg (by omega)]

theorem moveBase_termAt (hi : a.base < i) (ht : a.termAt i = some t) {j : ℕ} (hj : i ≤ j) :
    (a.apply (.moveBase i t)).termAt j = a.termAt j := by
  simp only [AbstractLog.apply, if_pos hi]
  rcases Nat.eq_or_lt_of_le hj with rfl | hlt
  · rw [ht, AbstractLog.termAt, if_neg (by dsimp only; omega), if_pos rfl]
  · rw [termAt_item (a := a) (Nat.lt_trans hi hlt), termAt_item hlt, List.getElem?_drop]
    dsimp only
    rw [show i - a.base + (j - i - 1) = j - a.base - 1 by omega]

theorem moveBase_last (hi : a.base < i) (hlast : i ≤ a.last) :
    (a.apply (.moveBase i t)).last = a.last := by
  simp only [AbstractLog.apply, if_pos hi]
  simp only [AbstractLog.last, List.length_drop] at hlast ⊢
  omega

theorem moveBase_lastTerm (hi : a.base < i) (hlast : i ≤ a.last) (ht : a.termAt i = some t) :
    (a.apply (.moveBase i t)).lastTerm = a.lastTerm := by
  simp only [AbstractLog.apply, if_pos hi, AbstractLog.lastTerm, List.getLast?_drop]
  rw [AbstractLog.last] at hlast
  by_cases hend : a.items.length ≤ i - a.base
  · -- nothing stays: the base is the last item, and `t` its term
    rw [if_pos hend]
    rw [termAt_item hi, show i - a.base - 1 = a.items.length - 1 by omega,
      ← List.getLast?_eq_getElem?] at ht
    rw [ht]
    rfl
  · rw [if_neg hend]
    cases hl : a.items.getLast? with
    | none =>
      rw [List.getLast?_eq_none_iff.mp hl] at hend
      exact absurd (Nat.zero_le _) hend
    | some x => rfl

theorem moveBase_entriesFrom (hi : a.base < i) {k : ℕ} (hk : i < k) :
    (a.apply (.moveBase i t)).entriesFrom k = a.entriesFrom k := by
  simp only [AbstractLog.apply, if_pos hi]
  rw [entriesFrom_eq, entriesFrom_eq, numbered_drop (Nat.le_of_lt hi), List.drop_drop]
  dsimp only
  rw [show i - a.base + (k - i - 1) = k - a.base - 1 by omega]

end

end CompactedLog
