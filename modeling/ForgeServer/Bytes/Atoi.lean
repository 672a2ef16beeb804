import Mathlib.Tactic.Ring
import ForgeServer.Bytes.Decimal
import ForgeServer.Systems.CInt

/-!
# `atoi`

`atoi` takes the number at the start of a string, behind blanks and a sign, and ignores what follows
it: a string without digits there has the value 0, and so has the empty one. A number that does not
fit is cut down twice: `strtol` stops at the ends of `long`, and the conversion to `int` keeps the
low 32 bits. The language leaves the result undefined there; this is what the C library does.

A run of digits that is the whole string and names an `int` is read exactly (`atoi_of_isDigit`).
-/

namespace CStr

open CInt

/-- The number a run of digits denotes. -/
def digitsValue (ds : List UInt8) : ℕ := ds.foldl (fun v d ↦ 10 * v + (d.toNat - 48)) 0

/-- `strtol` with base 10. -/
def strtol (s : List UInt8) : ℤ :=
  match s.dropWhile isSpace with
  | 45 :: t => max (-2 ^ 63) (-digitsValue (t.takeWhile isDigit))
  | 43 :: t => min (2 ^ 63 - 1) (digitsValue (t.takeWhile isDigit))
  | t => min (2 ^ 63 - 1) (digitsValue (t.takeWhile isDigit))

/-- `atoi`. -/
def atoi (s : List UInt8) : ℤ := ofLong (strtol s)

theorem isInt_atoi (s : List UInt8) : IsInt (atoi s) := isInt_ofLong _

example : atoi (ascii "eight") = 0 := by decide
example : atoi (ascii "4294967296") = 0 := by decide

/-! ### Runs of digits -/

@[simp] theorem digitsValue_nil : digitsValue [] = 0 := rfl

/-- Digits behind a number that has been read shift it. -/
theorem foldl_digits (ds : List UInt8) (v : ℕ) :
    ds.foldl (fun v d ↦ 10 * v + (d.toNat - 48)) v = v * 10 ^ ds.length + digitsValue ds := by
  induction ds generalizing v with
  | nil => simp
  | cons d ds ih =>
    have hcons : digitsValue (d :: ds) = (d.toNat - 48) * 10 ^ ds.length + digitsValue ds := by
      rw [digitsValue, List.foldl_cons, ih, Nat.mul_zero, Nat.zero_add]
    rw [List.foldl_cons, ih, hcons, List.length_cons]
    ring

theorem digitsValue_append (ds es : List UInt8) :
    digitsValue (ds ++ es) = digitsValue ds * 10 ^ es.length + digitsValue es := by
  rw [digitsValue, List.foldl_append]
  exact foldl_digits es (digitsValue ds)

theorem digitsValue_cons (d : UInt8) (ds : List UInt8) :
    digitsValue (d :: ds) = (d.toNat - 48) * 10 ^ ds.length + digitsValue ds := by
  rw [← List.singleton_append, digitsValue_append, digitsValue, List.foldl_cons, Nat.mul_zero,
    Nat.zero_add]
  rfl

/-- A number without a leading zero has no more digits than its value shows. -/
theorem pow_length_le_digitsValue {d : UInt8} (hdigit : isDigit d) (hd : d ≠ 48)
    (ds : List UInt8) : 10 ^ ds.length ≤ digitsValue (d :: ds) := by
  have hpos : 1 ≤ d.toNat - 48 := by
    obtain ⟨hlow, -⟩ : 48 ≤ d ∧ d ≤ 57 := by simpa [isDigit] using hdigit
    have hne : d.toNat ≠ 48 := fun h ↦ hd (UInt8.toNat_inj.1 h)
    have hlow' : 48 ≤ d.toNat := UInt8.le_iff_toNat_le.1 hlow
    omega
  calc 10 ^ ds.length ≤ (d.toNat - 48) * 10 ^ ds.length := Nat.le_mul_of_pos_left _ hpos
    _ ≤ digitsValue (d :: ds) := digitsValue_cons d ds ▸ Nat.le_add_right _ _

/-- A number is at least the one its first digits denote. -/
theorem digitsValue_le_append (ds es : List UInt8) : digitsValue ds ≤ digitsValue (ds ++ es) := by
  rw [digitsValue_append]
  exact (Nat.le_mul_of_pos_right _ (Nat.pow_pos (by decide))).trans (Nat.le_add_right _ _)

/-- Only the number 0 is not changed when digits at its end are cut off. -/
theorem digitsValue_append_eq_iff (ds : List UInt8) {es : List UInt8} (hes : es ≠ []) :
    digitsValue (ds ++ es) = digitsValue ds ↔ digitsValue (ds ++ es) = 0 := by
  have hlen : 10 ≤ 10 ^ es.length := Nat.le_self_pow (by simpa using hes) 10
  have hle := Nat.mul_le_mul_left (digitsValue ds) hlen
  rw [digitsValue_append]
  omega

theorem isSpace_of_isDigit {b : UInt8} (h : isDigit b) : isSpace b = false := by
  obtain ⟨hlow, -⟩ : 48 ≤ b ∧ b ≤ 57 := by simpa [isDigit] using h
  have hne : b ≠ 32 := fun heq ↦ absurd (heq ▸ hlow) (by decide)
  have hgt : ¬ b ≤ 13 := fun hle ↦ absurd (UInt8.le_trans hlow hle) (by decide)
  simp [isSpace, hne, hgt]

/-- Where the whole string is digits, it is the number that is read. -/
theorem strtol_of_isDigit {ds : List UInt8} (h : ∀ d ∈ ds, isDigit d) :
    strtol ds = min (2 ^ 63 - 1) (digitsValue ds : ℤ) := by
  have hspace : ds.dropWhile isSpace = ds := by
    cases ds with
    | nil => rfl
    | cons d ds =>
      exact List.dropWhile_cons_of_neg (by simp [isSpace_of_isDigit (h d List.mem_cons_self)])
  have htake : ds.takeWhile isDigit = ds := List.takeWhile_eq_self_iff.2 h
  rw [strtol, hspace]
  split
  · exact absurd (h 45 List.mem_cons_self) (by decide)
  · exact absurd (h 43 List.mem_cons_self) (by decide)
  · rw [htake]

/-- **A run of digits that names an `int` is read exactly.** -/
theorem atoi_of_isDigit {ds : List UInt8} (h : ∀ d ∈ ds, isDigit d)
    (hfit : digitsValue ds < 2 ^ 31) : atoi ds = digitsValue ds := by
  have hlong : strtol ds = digitsValue ds := by
    rw [strtol_of_isDigit h]
    omega
  rw [atoi, hlong]
  exact ofLong_of_isInt ⟨by omega, by omega⟩

/-- Nor does the conversion to 16 bits change a port. -/
theorem toUInt16_atoi {ds : List UInt8} (h : ∀ d ∈ ds, isDigit d)
    (hfit : digitsValue ds ≤ 65535) : toUInt16 (atoi ds) = digitsValue ds := by
  have hatoi : atoi ds = digitsValue ds := atoi_of_isDigit h (by omega)
  have hport : (toUInt16 (atoi ds) : ℤ) = atoi ds := toUInt16_of_lt (by omega) (by omega)
  omega

end CStr
