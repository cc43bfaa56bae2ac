import Mathlib.Data.Char
import Mathlib.Data.List.Lex
import Mathlib.Tactic.Ring
import Mathlib.Tactic.Linarith

/-!
# Digit strings as numbers

The value of a string of decimal digits, and how values compare: strings of one length are in the
order of their values (`compare_value`), and of two strings without a zero in front the longer is
the larger (`value_lt_of_length_lt`).
-/

namespace Digits

abbrev value (digits : List Char) : ℕ := Nat.ofDigitChars 10 digits 0

theorem zero_le_digit {c : Char} (h : c.isDigit = true) : 48 ≤ c.toNat := by
  have hrange : 48 ≤ c.toNat ∧ c.toNat ≤ 57 := by
    simpa [Char.isDigit, UInt32.le_iff_toNat_le] using h
  exact hrange.1

theorem digit_lt {c : Char} (h : c.isDigit = true) : c.toNat - '0'.toNat < 10 := by
  have hrange : 48 ≤ c.toNat ∧ c.toNat ≤ 57 := by
    simpa [Char.isDigit, UInt32.le_iff_toNat_le] using h
  have hzero : '0'.toNat = 48 := rfl
  omega

theorem value_cons (c : Char) (digits : List Char) :
    value (c :: digits) = (c.toNat - '0'.toNat) * 10 ^ digits.length + value digits := by
  rw [value, Nat.ofDigitChars_cons, Nat.ofDigitChars_eq_ofDigitChars_zero]
  ring

theorem value_lt {digits : List Char} (h : digits.all Char.isDigit = true) :
    value digits < 10 ^ digits.length := by
  induction digits with
  | nil => simp
  | cons c digits ih =>
    rw [List.all_cons, Bool.and_eq_true] at h
    have hdigit := digit_lt h.1
    have hrest := ih h.2
    calc value (c :: digits)
      _ = (c.toNat - '0'.toNat) * 10 ^ digits.length + value digits := value_cons c digits
      _ < (c.toNat - '0'.toNat) * 10 ^ digits.length + 10 ^ digits.length := by omega
      _ = (c.toNat - '0'.toNat + 1) * 10 ^ digits.length := by ring
      _ ≤ 10 * 10 ^ digits.length := Nat.mul_le_mul_right _ (by omega)
      _ = 10 ^ (c :: digits).length := by rw [List.length_cons, pow_succ, Nat.mul_comm]

/-- A digit other than zero in front makes a number as long as its digits. -/
theorem le_value {c : Char} {digits : List Char} (h : c.isDigit = true) (hzero : c ≠ '0') :
    10 ^ digits.length ≤ value (c :: digits) := by
  have hpos : 1 ≤ c.toNat - '0'.toNat := by
    have hdigit := zero_le_digit h
    have hne : c.toNat ≠ 48 := fun heq => hzero (Char.toNat_inj.1 heq)
    have hzero : '0'.toNat = 48 := rfl
    omega
  calc 10 ^ digits.length
    _ = 1 * 10 ^ digits.length := (one_mul _).symm
    _ ≤ (c.toNat - '0'.toNat) * 10 ^ digits.length := Nat.mul_le_mul_right _ hpos
    _ ≤ value (c :: digits) := by rw [value_cons]; omega

/-- The longer of two numbers is the larger when it has no zero in front. -/
theorem value_lt_of_length_lt {a b : List Char} (ha : a.all Char.isDigit = true)
    (hb : b.all Char.isDigit = true) (hzero : b.head? ≠ some '0') (h : a.length < b.length) :
    value a < value b := by
  cases b with
  | nil => simp at h
  | cons c b =>
    rw [List.all_cons, Bool.and_eq_true] at hb
    have hhead : c ≠ '0' := by simpa using hzero
    calc value a
      _ < 10 ^ a.length := value_lt ha
      _ ≤ 10 ^ b.length := Nat.pow_le_pow_right (by decide) (by simpa [Nat.lt_succ_iff] using h)
      _ ≤ value (c :: b) := le_value hb.1 hhead

theorem compare_add_left (k m n : ℕ) : compare (k + m) (k + n) = compare m n := by
  rcases lt_trichotomy m n with h | rfl | h
  · rw [Nat.compare_eq_lt.2 h, Nat.compare_eq_lt.2 (by omega)]
  · rw [Nat.compare_eq_eq.2 rfl, Nat.compare_eq_eq.2 rfl]
  · rw [Nat.compare_eq_gt.2 h, Nat.compare_eq_gt.2 (by omega)]

theorem compare_add_right (m n k : ℕ) : compare (m + k) (n + k) = compare m n := by
  rw [Nat.add_comm m, Nat.add_comm n, compare_add_left]

/-- Strings of one length are in the order of their values. -/
theorem compare_value {a b : List Char} (ha : a.all Char.isDigit = true)
    (hb : b.all Char.isDigit = true) (h : a.length = b.length) :
    compare a b = compare (value a) (value b) := by
  induction a generalizing b with
  | nil =>
    obtain rfl : b = [] := List.length_eq_zero_iff.1 h.symm
    rfl
  | cons c a ih =>
    cases b with
    | nil => simp at h
    | cons d b =>
      rw [List.all_cons, Bool.and_eq_true] at ha hb
      have hlength : a.length = b.length := by simpa using h
      have ha' := value_lt ha.2
      have hb' := value_lt hb.2
      rw [← hlength] at hb'
      rw [List.compare_cons_cons, ih ha.2 hb.2 hlength, value_cons, value_cons, ← hlength]
      have hc : 48 ≤ c.toNat := zero_le_digit ha.1
      have hd : 48 ≤ d.toNat := zero_le_digit hb.1
      have hzero : '0'.toNat = 48 := rfl
      -- the first digits decide unless they are the same
      rcases lt_trichotomy c d with hlt | rfl | hlt
      · have hnat : c.toNat < d.toNat := hlt
        have hstep : (c.toNat - '0'.toNat + 1) * 10 ^ a.length ≤
            (d.toNat - '0'.toNat) * 10 ^ a.length := Nat.mul_le_mul_right _ (by omega)
        rw [Nat.add_mul, Nat.one_mul] at hstep
        rw [compare_lt_iff_lt.2 hlt, eq_comm, Ordering.lt_then, Nat.compare_eq_lt]
        omega
      · rw [compare_eq_iff_eq.2 rfl, Ordering.eq_then]
        exact (compare_add_left _ _ _).symm
      · have hnat : d.toNat < c.toNat := hlt
        have hstep : (d.toNat - '0'.toNat + 1) * 10 ^ a.length ≤
            (c.toNat - '0'.toNat) * 10 ^ a.length := Nat.mul_le_mul_right _ (by omega)
        rw [Nat.add_mul, Nat.one_mul] at hstep
        rw [compare_gt_iff_gt.2 hlt, eq_comm, Ordering.gt_then, Nat.compare_eq_gt]
        omega

end Digits
