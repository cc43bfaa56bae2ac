import Mathlib.Algebra.Order.Ring.Int

/-!
# Bytes, text and machine integers

What the standard library of the source makes of them.
-/

namespace Hedos

abbrev Bytes := List UInt8

abbrev Text := List Char

/-- `str::eq_ignore_ascii_case`. -/
def eqIgnoreAsciiCase (a b : Text) : Bool := a.map Char.toLower == b.map Char.toLower

/-- `i64::MAX`. -/
def i64Max : ℤ := 2 ^ 63 - 1

/-- `i64::saturating_add`. -/
def saturatingAddI64 (a b : ℤ) : ℤ := max (-2 ^ 63) (min i64Max (a + b))

/-- What the operators on `i64` make of a result. -/
def wrapI64 (n : ℤ) : ℤ := n.bmod (2 ^ 64)

end Hedos
