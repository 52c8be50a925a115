import Mathlib.Data.List.Basic
import Mathlib.Tactic.Ring

/-! # Fixed-width little-endian fields

Bytes are a list, a field is the list of its `w` bytes, least significant first.
A writer keeps the value modulo `256 ^ w`, as a cast to the field's width does.
-/
namespace LittleEndianCodec

abbrev Bytes := List UInt8

def leBytes : ℕ → ℕ → Bytes
  | 0, _ => []
  | w + 1, n => UInt8.ofNat n :: leBytes w (n / 256)

def leValue : Bytes → ℕ
  | [] => 0
  | b :: bs => b.toNat + 256 * leValue bs

@[simp] theorem leBytes_length (w n : ℕ) : (leBytes w n).length = w := by
  induction w generalizing n with
  | zero => rfl
  | succ w ih => simp [leBytes, ih]

theorem leValue_leBytes (w n : ℕ) : leValue (leBytes w n) = n % 256 ^ w := by
  induction w generalizing n with
  | zero => simp [leBytes, leValue, Nat.mod_one]
  | succ w ih =>
    have hb : (UInt8.ofNat n).toNat = n % 256 := by simp
    rw [leBytes, leValue, ih, hb, pow_succ', Nat.mod_mul]

@[simp] theorem leValue_leBytes_of_lt {w n : ℕ} (h : n < 256 ^ w) :
    leValue (leBytes w n) = n := by
  rw [leValue_leBytes, Nat.mod_eq_of_lt h]

theorem leBytes_inj {w m n : ℕ} (hm : m < 256 ^ w) (hn : n < 256 ^ w)
    (h : leBytes w m = leBytes w n) : m = n := by
  rw [← leValue_leBytes_of_lt hm, h, leValue_leBytes_of_lt hn]

theorem leValue_lt (bs : Bytes) : leValue bs < 256 ^ bs.length := by
  induction bs with
  | nil => simp [leValue]
  | cons b bs ih =>
    have hb := b.toNat_lt
    simp only [leValue, List.length_cons, pow_succ]
    omega

theorem leBytes_leValue (bs : Bytes) : leBytes bs.length (leValue bs) = bs := by
  induction bs with
  | nil => rfl
  | cons b bs ih =>
    have hb : b.toNat < 256 := b.toNat_lt
    have hdiv : (b.toNat + 256 * leValue bs) / 256 = leValue bs := by omega
    have hval : UInt8.ofNat (b.toNat + 256 * leValue bs) = b := by
      apply UInt8.toNat_inj.mp
      rw [UInt8.toNat_ofNat']
      omega
    simp only [List.length_cons, leValue, leBytes, hdiv, hval, ih]

theorem leBytes_of_leValue {w : ℕ} {bs : Bytes} (h : bs.length = w) :
    leBytes w (leValue bs) = bs := by
  subst h
  exact leBytes_leValue bs

/-- A reader of one field: the first `w` bytes, and what follows them. -/
theorem take_drop_leBytes (w n : ℕ) (rest : Bytes) :
    (leBytes w n ++ rest).take w = leBytes w n ∧ (leBytes w n ++ rest).drop w = rest := by
  constructor
  · exact List.take_left' (leBytes_length w n)
  · exact List.drop_left' (leBytes_length w n)

@[simp] theorem take_leBytes (w n : ℕ) (rest : Bytes) :
    (leBytes w n ++ rest).take w = leBytes w n := (take_drop_leBytes w n rest).1

@[simp] theorem drop_leBytes (w n : ℕ) (rest : Bytes) :
    (leBytes w n ++ rest).drop w = rest := (take_drop_leBytes w n rest).2

end LittleEndianCodec
