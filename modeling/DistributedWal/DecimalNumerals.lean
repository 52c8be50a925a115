import Mathlib.Algebra.Order.Ring.Nat
import Mathlib.Data.List.Sort

/-! # Decimal numerals of fixed width

A numeral padded with zeros reads back as its number. Among numerals of one width the
alphabetical order is the order of the numbers.
-/
namespace DecimalNumerals

/-- Digits from the left; the value must stay below the bound. -/
def readDigits (bound : ℕ) : ℕ → List Char → Option ℕ
  | acc, [] => some acc
  | acc, c :: cs =>
    if c.isDigit ∧ 10 * acc + (c.toNat - '0'.toNat) < bound then
      readDigits bound (10 * acc + (c.toNat - '0'.toNat)) cs
    else none

def padded (width n : ℕ) : List Char := (Nat.toDigits 10 n).leftpad width '0'

def IsNumeral (cs : List Char) : Prop := ∀ c ∈ cs, c.isDigit

variable {cs ds : List Char} {c : Char} {bound n width : ℕ}

theorem IsNumeral.head (h : IsNumeral (c :: cs)) : c.isDigit := h c (by simp)

theorem IsNumeral.tail (h : IsNumeral (c :: cs)) : IsNumeral cs :=
  fun d hd => h d (List.mem_cons_of_mem c hd)

theorem digit_bounds (h : c.isDigit) : '0'.toNat ≤ c.toNat ∧ c.toNat ≤ '0'.toNat + 9 := by
  simp only [Char.isDigit, Bool.and_eq_true, decide_eq_true_eq] at h
  exact h

theorem le_ofDigitChars (cs : List Char) (acc : ℕ) : acc ≤ Nat.ofDigitChars 10 cs acc := by
  rw [Nat.ofDigitChars_eq_ofDigitChars_zero]
  have : 1 * acc ≤ 10 ^ cs.length * acc := Nat.mul_le_mul_right acc (Nat.one_le_pow' _ 9)
  omega

theorem ofDigitChars_lt (h : IsNumeral cs) : Nat.ofDigitChars 10 cs 0 < 10 ^ cs.length := by
  induction cs with
  | nil => simp
  | cons c cs ih =>
    have hc := digit_bounds h.head
    have ih := ih h.tail
    rw [Nat.ofDigitChars_cons, Nat.mul_zero, Nat.zero_add,
      Nat.ofDigitChars_eq_ofDigitChars_zero, List.length_cons, Nat.pow_succ]
    have hdigit : c.toNat - '0'.toNat ≤ 9 := by omega
    have := Nat.mul_le_mul_left (10 ^ cs.length) hdigit
    omega

/-- Reading succeeds on the numerals of a value below the bound. -/
theorem readDigits_eq_some {acc : ℕ} (hacc : acc < bound) :
    readDigits bound acc cs = some n ↔
      IsNumeral cs ∧ Nat.ofDigitChars 10 cs acc = n ∧ n < bound := by
  induction cs generalizing acc with
  | nil =>
    simp only [readDigits, IsNumeral, Nat.ofDigitChars_nil, Option.some.injEq]
    constructor
    · rintro rfl
      exact ⟨by simp, rfl, hacc⟩
    · exact fun h => h.2.1
  | cons c cs ih =>
    rw [readDigits, Nat.ofDigitChars_cons]
    constructor
    · intro h
      split at h
      · rename_i hc
        obtain ⟨hcs, hval, hn⟩ := (ih hc.2).mp h
        exact ⟨by simpa [IsNumeral] using ⟨hc.1, hcs⟩, hval, hn⟩
      · cases h
    · rintro ⟨hcs, hval, hn⟩
      -- the value so far is at most the final one
      have hbound : 10 * acc + (c.toNat - '0'.toNat) < bound :=
        (le_ofDigitChars cs _).trans_lt (hval ▸ hn)
      rw [if_pos ⟨hcs.head, hbound⟩]
      exact (ih hbound).mpr ⟨hcs.tail, hval, hn⟩

theorem padded_numeral (width n : ℕ) : IsNumeral (padded width n) := by
  intro c hc
  rcases List.mem_append.mp hc with hc | hc
  · rw [List.eq_of_mem_replicate hc]
    rfl
  · exact Nat.isDigit_of_mem_toDigits (by decide) (by decide) hc

theorem padded_value (width n : ℕ) : Nat.ofDigitChars 10 (padded width n) 0 = n := by
  simp [padded, List.leftpad, Nat.ofDigitChars_append]

theorem padded_length (hwidth : 0 < width) (hn : n < 10 ^ width) :
    (padded width n).length = width := by
  have := (Nat.length_toDigits_le_iff (by decide) hwidth).mpr hn
  simp only [padded, List.leftpad, List.length_append, List.length_replicate]
  omega

/-- The first digit that differs decides. -/
theorem lt_of_value_lt (hcs : IsNumeral cs) (hds : IsNumeral ds)
    (hlen : cs.length = ds.length) {acc : ℕ}
    (h : Nat.ofDigitChars 10 cs acc < Nat.ofDigitChars 10 ds acc) : cs < ds := by
  induction cs generalizing ds acc with
  | nil =>
    obtain rfl : ds = [] := List.length_eq_zero_iff.mp hlen.symm
    exact absurd h (lt_irrefl _)
  | cons c cs ih =>
    cases ds with
    | nil => simp at hlen
    | cons d ds =>
      have hlen' : cs.length = ds.length := by simpa using hlen
      rw [Nat.ofDigitChars_cons, Nat.ofDigitChars_cons] at h
      have hc := digit_bounds hcs.head
      have hd := digit_bounds hds.head
      rcases lt_trichotomy c.toNat d.toNat with hlt | heq | hgt
      · exact List.cons_lt_cons_iff.mpr (Or.inl hlt)
      · obtain rfl := Char.toNat_inj.mp heq
        exact List.cons_lt_cons_iff.mpr (Or.inr ⟨rfl, ih hcs.tail hds.tail hlen' h⟩)
      · exfalso
        rw [Nat.ofDigitChars_eq_ofDigitChars_zero, @Nat.ofDigitChars_eq_ofDigitChars_zero ds,
          hlen'] at h
        have hsmall := ofDigitChars_lt hds.tail
        have hstep : 10 * acc + (d.toNat - '0'.toNat) + 1 ≤
            10 * acc + (c.toNat - '0'.toNat) := by omega
        have := Nat.mul_le_mul_left (10 ^ ds.length) hstep
        rw [Nat.mul_succ] at this
        omega

theorem padded_lt {m : ℕ} (hwidth : 0 < width) (hm : m < 10 ^ width) (hnm : n < m) :
    padded width n < padded width m := by
  have hlen : (padded width n).length = (padded width m).length := by
    rw [padded_length hwidth (hnm.trans hm), padded_length hwidth hm]
  have hval : Nat.ofDigitChars 10 (padded width n) 0 <
      Nat.ofDigitChars 10 (padded width m) 0 := by
    rwa [padded_value, padded_value]
  exact lt_of_value_lt (padded_numeral width n) (padded_numeral width m) hlen hval

/-- What follows words of one length does not matter to their order. -/
theorem append_lt_append (hlen : cs.length = ds.length) (h : cs < ds) (es fs : List Char) :
    cs ++ es < ds ++ fs := by
  induction cs generalizing ds with
  | nil =>
    obtain rfl : ds = [] := List.length_eq_zero_iff.mp hlen.symm
    exact absurd h (List.lt_irrefl _)
  | cons c cs ih =>
    cases ds with
    | nil => simp at hlen
    | cons d ds =>
      rcases List.cons_lt_cons_iff.mp h with hlt | ⟨rfl, htail⟩
      · exact List.cons_lt_cons_iff.mpr (Or.inl hlt)
      · exact List.cons_lt_cons_iff.mpr (Or.inr ⟨rfl, ih (by simpa using hlen) htail⟩)

end DecimalNumerals
