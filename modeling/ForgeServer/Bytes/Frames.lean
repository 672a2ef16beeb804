import Mathlib.Data.List.Basic

/-!
# Reading a stream frame by frame

A reader of one frame, `next`, takes a frame off the front of a list, or finds none complete there.
`readFrames` repeats it. If the reader undoes an encoding in front of any continuation, up to what
it says of a frame, then a concatenation of encodings reads back, with what is left where no frame
is complete (`readFrames_flatMap`).

The alphabet, the frames, the encoding and what is said of a frame are arbitrary.
-/

namespace List

variable {α β γ : Type*} {next : List α → Option (γ × List α)} {enc : β → List α}

/-- The frames at the front of a list, at most `n` of them, and what is left. -/
def readFrames (next : List α → Option (γ × List α)) : ℕ → List α → List γ × List α
  | 0, s => ([], s)
  | n + 1, s =>
    match next s with
    | none => ([], s)
    | some (c, rest) => (c :: (readFrames next n rest).1, (readFrames next n rest).2)

theorem readFrames_of_none {s : List α} (h : next s = none) (n : ℕ) :
    readFrames next n s = ([], s) := by
  cases n with
  | zero => rfl
  | succ n => rw [readFrames, h]

/-- **A concatenation of encodings reads back.** -/
theorem readFrames_flatMap (f : β → γ) {bs : List β} {tail : List α} (hne : ∀ b ∈ bs, enc b ≠ [])
    (hnext : ∀ b ∈ bs, ∀ t, next (enc b ++ t) = some (f b, t)) (htail : next tail = none) {n : ℕ}
    (hn : (bs.flatMap enc ++ tail).length ≤ n) :
    readFrames next n (bs.flatMap enc ++ tail) = (bs.map f, tail) := by
  induction bs generalizing n with
  | nil => exact readFrames_of_none htail n
  | cons b bs ih =>
    have hpos := length_pos_iff.2 (hne b mem_cons_self)
    have hone : next ((b :: bs).flatMap enc ++ tail) = some (f b, bs.flatMap enc ++ tail) := by
      rw [flatMap_cons, append_assoc]
      exact hnext b mem_cons_self _
    rw [flatMap_cons, append_assoc, length_append] at hn
    obtain ⟨n, rfl⟩ : ∃ m, n = m + 1 := ⟨n - 1, by omega⟩
    have hrest := ih (fun b' hb' ↦ hne b' (mem_cons_of_mem b hb'))
      (fun b' hb' ↦ hnext b' (mem_cons_of_mem b hb')) (n := n) (by omega)
    rw [readFrames, hone]
    dsimp only
    rw [hrest, map_cons]

end List
