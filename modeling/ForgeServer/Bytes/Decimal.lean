import ForgeServer.Bytes.CString

/-!
# Decimal numbers in byte strings

`decimal n` is what `%lld` prints for a nonnegative number, `readDecimal` reads the number a string
starts with. Printing and reading back is the identity in front of anything that is not a digit
(`readDecimal_decimal_append`).
-/

namespace CStr

/-- A decimal number, as `printf` writes it. -/
def decimal (n : ℕ) : List UInt8 := (Nat.toDigits 10 n).map fun c ↦ UInt8.ofNat c.toNat

/-- `isdigit`. -/
def isDigit (b : UInt8) : Bool := 48 ≤ b && b ≤ 57

/-- The number a string starts with, `none` without a digit in front. -/
def readDecimal (s : List UInt8) : Option ℕ :=
  match s.takeWhile isDigit with
  | [] => none
  | ds => some (ds.foldl (fun v d ↦ 10 * v + (d.toNat - 48)) 0)

theorem toNat_ofNat_digit {c : Char} (h : c.isDigit) :
    48 ≤ c.toNat ∧ c.toNat ≤ 57 ∧ (UInt8.ofNat c.toNat).toNat = c.toNat := by
  obtain ⟨h₁, h₂⟩ := Char.isDigit_iff_toNat.1 h
  change 48 ≤ c.toNat at h₁
  change c.toNat ≤ 57 at h₂
  refine ⟨h₁, h₂, ?_⟩
  rw [UInt8.toNat_ofNat']
  omega

theorem isDigit_of_mem_decimal {n : ℕ} : ∀ b ∈ decimal n, isDigit b = true := by
  intro b hb
  obtain ⟨c, hc, rfl⟩ := List.mem_map.1 hb
  obtain ⟨h₁, h₂, h₃⟩ := toNat_ofNat_digit (Nat.isDigit_of_mem_toDigits (by simp) le_rfl hc)
  simp only [isDigit, Bool.and_eq_true, decide_eq_true_eq, UInt8.le_iff_toNat_le, h₃]
  exact ⟨h₁, h₂⟩

theorem decimal_ne_nil (n : ℕ) : decimal n ≠ [] := by
  simp [decimal, Nat.toDigits_ne_nil]

theorem length_decimal_le {n k : ℕ} (hk : 0 < k) (h : n < 10 ^ k) : (decimal n).length ≤ k := by
  rw [decimal, List.length_map]
  exact (Nat.length_toDigits_le_iff (by simp) hk).2 h

/-- The value of the digits printed. -/
theorem foldl_decimal (n : ℕ) :
    (decimal n).foldl (fun v d ↦ 10 * v + (d.toNat - 48)) 0 = n := by
  have hfold : ∀ (cs : List Char), (∀ c ∈ cs, c.isDigit) → ∀ v,
      (cs.map fun c ↦ UInt8.ofNat c.toNat).foldl (fun v d ↦ 10 * v + (d.toNat - 48)) v =
        Nat.ofDigitChars 10 cs v := by
    intro cs
    induction cs with
    | nil => intro _ v; rfl
    | cons c cs ih =>
      intro hcs v
      rw [List.map_cons, List.foldl_cons, Nat.ofDigitChars_cons,
        ih fun c' hc' ↦ hcs c' (List.mem_cons_of_mem c hc'),
        (toNat_ofNat_digit (hcs c List.mem_cons_self)).2.2]
      rfl
  rw [decimal, hfold _ fun c hc ↦ Nat.isDigit_of_mem_toDigits (by simp) le_rfl hc]
  exact Nat.ofDigitChars_toDigits (by simp) le_rfl

/-- **A printed number reads back.** -/
theorem readDecimal_decimal_append (n : ℕ) {b : UInt8} (hb : isDigit b = false) (t : List UInt8) :
    readDecimal (decimal n ++ b :: t) = some n := by
  have htake : (decimal n ++ b :: t).takeWhile isDigit = decimal n := by
    rw [List.takeWhile_append_of_pos isDigit_of_mem_decimal,
      List.takeWhile_cons_of_neg (by simp [hb]), List.append_nil]
  unfold readDecimal
  rw [htake]
  split
  · rename_i h
    exact absurd h (decimal_ne_nil n)
  · rw [foldl_decimal]

end CStr
