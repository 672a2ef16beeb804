import Mathlib.Data.Nat.Digits.Lemmas
import ForgeServer.Bytes.CString
import ForgeServer.Systems.CInt

/-!
# Integers in objects

The bytes of an integer in memory, the least significant one first: `storeNat` for the unsigned
types of `w` bytes, `storeInt` for `int`. Reading back gives the residue (`loadNat_storeNat`), so a
value that has the type it is stored in comes back as it is (`loadInt_storeInt`).

`loadNat` is `Nat.ofDigits` to the base 256. `Buf.store_split` says what an array holds once a field
of it is written, with the array cut where the field begins and ends.
-/

namespace CInt

/-- The bytes of `n` in an object of `w` bytes. -/
def storeNat (w n : ℕ) : List UInt8 := (List.range w).map fun i ↦ UInt8.ofNat (n / 256 ^ i)

/-- The number that is stored in an object. -/
def loadNat (bs : List UInt8) : ℕ := Nat.ofDigits 256 (bs.map UInt8.toNat)

/-- The bytes of an `int`. -/
def storeInt (z : ℤ) : List UInt8 := storeNat 4 (z % 2 ^ 32).toNat

/-- The `int` that is stored in an object. -/
def loadInt (bs : List UInt8) : ℤ := ofLong (loadNat bs)

@[simp] theorem length_storeNat (w n : ℕ) : (storeNat w n).length = w := by simp [storeNat]

@[simp] theorem length_storeInt (z : ℤ) : (storeInt z).length = 4 := length_storeNat ..

theorem storeNat_succ (w n : ℕ) :
    storeNat (w + 1) n = UInt8.ofNat n :: storeNat w (n / 256) := by
  rw [storeNat, List.range_succ_eq_map, List.map_cons, List.map_map, pow_zero, Nat.div_one]
  refine congrArg _ (List.map_congr_left fun i _ ↦ ?_)
  show UInt8.ofNat (n / 256 ^ (i + 1)) = UInt8.ofNat (n / 256 / 256 ^ i)
  rw [pow_succ', Nat.div_div_eq_div_mul]

/-- **What is stored is read back**, as far as it fits. -/
theorem loadNat_storeNat (w n : ℕ) : loadNat (storeNat w n) = n % 256 ^ w := by
  induction w generalizing n with
  | zero => rw [pow_zero, Nat.mod_one]; rfl
  | succ w ih =>
    have hlow : (UInt8.ofNat n).toNat = n % 256 := UInt8.toNat_ofNat'
    have hcons : loadNat (UInt8.ofNat n :: storeNat w (n / 256)) =
        n % 256 + 256 * loadNat (storeNat w (n / 256)) := by
      rw [loadNat, List.map_cons, Nat.ofDigits_cons, hlow]
      rfl
    rw [storeNat_succ, hcons, ih, pow_succ', Nat.mod_mul]

theorem loadNat_storeNat_of_lt {w n : ℕ} (h : n < 256 ^ w) : loadNat (storeNat w n) = n := by
  rw [loadNat_storeNat, Nat.mod_eq_of_lt h]

/-- **An `int` comes back as it was stored.** -/
theorem loadInt_storeInt {z : ℤ} (h : IsInt z) : loadInt (storeInt z) = z := by
  have hlt : (z % 2 ^ 32).toNat < 256 ^ 4 := by omega
  have hres : (((z % 2 ^ 32).toNat : ℕ) : ℤ) = z % 2 ^ 32 := by omega
  rw [loadInt, storeInt, loadNat_storeNat_of_lt hlt, hres, ofLong,
    show (2 : ℤ) ^ 32 = ((2 ^ 32 : ℕ) : ℤ) from rfl, Int.emod_bmod]
  exact ofLong_of_isInt h

end CInt

namespace CStr.Buf

/-- **A field is written**: what is before and behind it stays. -/
theorem store_split {n off : ℕ} {a : Buf n} {xs ys zs bs : List UInt8}
    (h : a.bytes = xs ++ ys ++ zs) (hoff : xs.length = off) (hlen : bs.length = ys.length) :
    ∃ b, a.store off bs = some b ∧ b.bytes = xs ++ bs ++ zs := by
  have hn : (xs ++ ys ++ zs).length = n := h ▸ a.length_bytes
  rw [List.length_append, List.length_append] at hn
  obtain ⟨b, hb, hbytes⟩ := a.store_eq_some off bs (by omega)
  refine ⟨b, hb, ?_⟩
  rw [hbytes, h, List.append_assoc xs, List.take_left' hoff, hlen, ← List.append_assoc xs,
    List.drop_left' (by rw [List.length_append, hoff])]

end CStr.Buf
