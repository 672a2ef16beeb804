import Mathlib.Data.List.Basic
import Mathlib.Data.List.Infix
import Mathlib.Order.Basic

/-!
# First occurrence of a pattern

`firstOcc pat s` is the least offset at which `pat` occurs in `s`. Over an arbitrary alphabet: the
consumers instantiate it with bytes, for `strstr` and for the end of a header block.

The characterization is `firstOcc_eq_some_iff` (an occurrence, and none before it) together with
`firstOcc_eq_none_iff` (no infix). Two facts carry the stream arguments built on top:

* `firstOcc_append` — an occurrence that was found stays the first one when more letters arrive;
* `firstOcc_append_right` — letters in front that start no occurrence only shift the offset.
-/

namespace List

variable {α : Type*} [DecidableEq α]

/-- The offset of the first occurrence of `pat` in a list. -/
def firstOcc (pat : List α) : List α → Option ℕ
  | [] => if pat = [] then some 0 else none
  | x :: xs => if pat.isPrefixOf (x :: xs) then some 0 else (firstOcc pat xs).map (· + 1)

theorem firstOcc_cons_of_occ {pat xs : List α} {x : α} (h : pat <+: x :: xs) :
    firstOcc pat (x :: xs) = some 0 := by
  have hb : pat.isPrefixOf (x :: xs) = true := isPrefixOf_iff_prefix.2 h
  rw [firstOcc, if_pos hb]

theorem firstOcc_cons_of_not {pat xs : List α} {x : α} (h : ¬ pat <+: x :: xs) :
    firstOcc pat (x :: xs) = (firstOcc pat xs).map (· + 1) := by
  have hb : ¬ pat.isPrefixOf (x :: xs) = true := fun hp ↦ h <| isPrefixOf_iff_prefix.1 hp
  rw [firstOcc, if_neg hb]

/-- **The first occurrence**: `pat` occurs there and nowhere before. -/
theorem firstOcc_eq_some_iff {pat s : List α} {i : ℕ} :
    firstOcc pat s = some i ↔ i ≤ s.length ∧ pat <+: s.drop i ∧ ∀ j < i, ¬ pat <+: s.drop j := by
  induction s generalizing i with
  | nil =>
    rcases eq_or_ne pat [] with rfl | hne
    · simp only [firstOcc, if_pos, Option.some.injEq, length_nil, Nat.le_zero]
      exact ⟨fun h ↦ ⟨h.symm, by simp, fun j hj ↦ by omega⟩, fun h ↦ h.1.symm⟩
    · simp [firstOcc, hne]
  | cons x xs ih =>
    by_cases hp : pat <+: x :: xs
    · rw [firstOcc_cons_of_occ hp, Option.some.injEq]
      constructor
      · rintro rfl
        exact ⟨Nat.zero_le _, hp, fun j hj ↦ absurd hj (Nat.not_lt_zero j)⟩
      · rintro ⟨-, -, hmin⟩
        by_contra hne
        exact hmin 0 (by omega) hp
    · rw [firstOcc_cons_of_not hp, Option.map_eq_some_iff]
      constructor
      · rintro ⟨j, hj, rfl⟩
        obtain ⟨hle, hocc, hmin⟩ := ih.1 hj
        refine ⟨by simpa using hle, hocc, fun k hk ↦ ?_⟩
        cases k with
        | zero => exact hp
        | succ k => exact hmin k (by omega)
      · rintro ⟨hle, hocc, hmin⟩
        cases i with
        | zero => exact absurd hocc hp
        | succ i =>
          exact ⟨i, ih.2 ⟨by simpa using hle, hocc, fun k hk ↦ hmin (k + 1) (by omega)⟩, rfl⟩

theorem firstOcc_eq_none_iff {pat s : List α} : firstOcc pat s = none ↔ ¬ pat <:+: s := by
  induction s with
  | nil => simp [firstOcc]
  | cons x xs ih =>
    by_cases hp : pat <+: x :: xs
    · simp [firstOcc_cons_of_occ hp, hp.isInfix]
    · rw [firstOcc_cons_of_not hp, Option.map_eq_none_iff, ih, infix_cons_iff, not_or]
      exact ⟨fun h ↦ ⟨hp, h⟩, fun h ↦ h.2⟩

theorem isSome_firstOcc_iff {pat s : List α} : (firstOcc pat s).isSome ↔ pat <:+: s := by
  rw [← not_iff_not, ← firstOcc_eq_none_iff, Option.not_isSome_iff_eq_none]

/-- An occurrence that was found fits in the list. -/
theorem firstOcc_add_length_le {pat s : List α} {i : ℕ} (h : firstOcc pat s = some i) :
    i + pat.length ≤ s.length := by
  obtain ⟨hle, hocc, -⟩ := firstOcc_eq_some_iff.1 h
  have := hocc.length_le
  rw [length_drop] at this
  omega

/-- **A first occurrence is stable**: letters that arrive behind it do not move it. -/
theorem firstOcc_append {pat s : List α} {i : ℕ} (h : firstOcc pat s = some i) (t : List α) :
    firstOcc pat (s ++ t) = some i := by
  have hfit := firstOcc_add_length_le h
  obtain ⟨hle, hocc, hmin⟩ := firstOcc_eq_some_iff.1 h
  refine firstOcc_eq_some_iff.2 ⟨by rw [length_append]; omega, ?_, fun j hj hpre ↦ hmin j hj ?_⟩
  · rw [drop_append_of_le_length hle]
    exact hocc.trans (prefix_append _ _)
  · rw [drop_append_of_le_length (by omega)] at hpre
    exact prefix_of_prefix_length_le hpre (prefix_append _ _) (by rw [length_drop]; omega)

/-- Letters in front that start no occurrence only shift the offset. -/
theorem firstOcc_append_right {pat s t : List α} (h : ∀ j < s.length, ¬ pat <+: (s ++ t).drop j) :
    firstOcc pat (s ++ t) = (firstOcc pat t).map (· + s.length) := by
  induction s with
  | nil => simp
  | cons x xs ih =>
    have h₀ : ¬ pat <+: x :: (xs ++ t) := h 0 (by simp)
    have hxs : ∀ j < xs.length, ¬ pat <+: (xs ++ t).drop j := fun j hj ↦
      h (j + 1) (by simpa using hj)
    rw [cons_append, firstOcc_cons_of_not h₀, ih hxs, Option.map_map]
    refine congrArg (Option.map · _) (funext fun i ↦ ?_)
    simp only [Function.comp_apply, length_cons]
    omega

/-- Letters different from the first one of the pattern start no occurrence. -/
theorem firstOcc_append_of_not_mem {x : α} {pat s t : List α} (h : x ∉ s) :
    firstOcc (x :: pat) (s ++ t) = (firstOcc (x :: pat) t).map (· + s.length) := by
  refine firstOcc_append_right fun j hj hpre ↦ h ?_
  rw [drop_append_of_le_length (Nat.le_of_lt hj), drop_eq_getElem_cons hj, cons_append,
    cons_prefix_cons] at hpre
  exact hpre.1 ▸ getElem_mem hj

/-- A pattern occurring in a list occurs at the offset found, inside every prefix that reaches
past it. -/
theorem firstOcc_take {pat s : List α} {i n : ℕ} (h : firstOcc pat s = some i)
    (hn : i + pat.length ≤ n) : firstOcc pat (s.take n) = some i := by
  obtain ⟨hle, hocc, hmin⟩ := firstOcc_eq_some_iff.1 h
  have hfit := firstOcc_add_length_le h
  refine firstOcc_eq_some_iff.2 ⟨by rw [length_take]; omega, ?_, fun j hj hpre ↦ hmin j hj ?_⟩
  · rw [drop_take]
    exact prefix_take_iff.2 ⟨hocc, by omega⟩
  · rw [drop_take] at hpre
    exact hpre.trans <| take_prefix _ _

end List
