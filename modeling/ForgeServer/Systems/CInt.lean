import Mathlib.Algebra.Group.Int.Defs
import Mathlib.Algebra.Group.Nat.Defs
import Mathlib.Order.Basic

/-!
# The type `int`

A value of type `int` is an integer that satisfies `IsInt`. An operation whose result the language
does not define has no value: `add` when the sum does not fit, `rem` for the divisor `0` and when
the quotient does not fit. So "this expression is defined" is the statement that its value is a
`some`, and a program that goes on after it has to show where the value comes from.

Conversions always have a value: to `size_t` and `uint16_t` the residue, and from a wider signed
type the representative of the residue that is an `int`.

`add_one_rem` is the fact for a cursor that goes around an array: `(i + 1) % n` is defined and again
an index whenever `i` is one.
-/

namespace CInt

/-- The values of type `int`. -/
def IsInt (z : ℤ) : Prop := -2 ^ 31 ≤ z ∧ z < 2 ^ 31

instance : DecidablePred IsInt := fun _ ↦ inferInstanceAs (Decidable (_ ∧ _))

/-- `a + b`. -/
def add (a b : ℤ) : Option ℤ := if IsInt (a + b) then some (a + b) else none

/-- `a % b`: the remainder has the sign of `a`, and is defined when `a / b` is. -/
def rem (a b : ℤ) : Option ℤ :=
  if b ≠ 0 ∧ IsInt (a.tdiv b) then some (a.tmod b) else none

/-- Conversion to `size_t`. -/
def toSizeT (z : ℤ) : ℕ := (z % 2 ^ 64).toNat

/-- Conversion to `uint16_t`. -/
def toUInt16 (z : ℤ) : ℕ := (z % 2 ^ 16).toNat

/-- Conversion from a wider type. -/
def ofLong (z : ℤ) : ℤ := z.bmod (2 ^ 32)

variable {a b z : ℤ}

/-! ### Conversions -/

theorem isInt_ofLong (z : ℤ) : IsInt (ofLong z) := by
  have hlow : -(((2 ^ 32 : ℕ) : ℤ) / 2) ≤ ofLong z := Int.le_bmod (by decide)
  have hhigh : ofLong z < (((2 ^ 32 : ℕ) : ℤ) + 1) / 2 := Int.bmod_lt (by decide)
  exact ⟨by omega, by omega⟩

/-- An `int` is not changed. -/
theorem ofLong_of_isInt (h : IsInt z) : ofLong z = z := by
  obtain ⟨hlow, hhigh⟩ := h
  exact Int.bmod_eq_of_le (by omega) (by omega)

theorem toUInt16_of_lt (hz : 0 ≤ z) (h : z < 2 ^ 16) : (toUInt16 z : ℤ) = z := by
  rw [toUInt16]
  omega

theorem toSizeT_of_nonneg (h : IsInt z) (hz : 0 ≤ z) : (toSizeT z : ℤ) = z := by
  obtain ⟨hlow, hhigh⟩ := h
  rw [toSizeT]
  omega

/-- A negative `int` becomes a huge `size_t`. -/
theorem toSizeT_of_neg (h : IsInt z) (hz : z < 0) : 2 ^ 63 ≤ toSizeT z := by
  obtain ⟨hlow, hhigh⟩ := h
  rw [toSizeT]
  omega

/-! ### Arithmetic -/

@[simp] theorem rem_zero (a : ℤ) : rem a 0 = none := if_neg fun h ↦ h.1 rfl

/-- **A cursor that goes around an array of `b` elements**: the next index is defined, and is an
index again. -/
theorem add_one_rem (hb : IsInt b) (ha : 0 ≤ a) (hab : a < b) :
    (add a 1).bind (rem · b) = some ((a + 1) % b) ∧ 0 ≤ (a + 1) % b ∧ (a + 1) % b < b := by
  obtain ⟨hlow, hhigh⟩ := hb
  have hadd : add a 1 = some (a + 1) := if_pos ⟨by omega, by omega⟩
  have hquot : IsInt ((a + 1).tdiv b) := by
    rw [Int.tdiv_eq_ediv_of_nonneg (by omega)]
    have hle : (a + 1) / b ≤ a + 1 := Int.ediv_le_self b (by omega)
    have hnonneg : 0 ≤ (a + 1) / b := Int.ediv_nonneg (by omega) (by omega)
    exact ⟨by omega, by omega⟩
  refine ⟨?_, Int.emod_nonneg _ (by omega), Int.emod_lt_of_pos _ (by omega)⟩
  rw [hadd, Option.bind_some, rem, if_pos ⟨by omega, hquot⟩,
    Int.tmod_eq_emod_of_nonneg (by omega)]

end CInt
