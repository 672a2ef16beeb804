import Mathlib.Data.List.Basic

/-!
# Two ways of cutting a stream

A stream that is a concatenation of messages, cut into pieces. `EndsAtCuts p pieces messages` says
that every message ends where a piece ends, `p` being what was read in front of the pieces. The
lemmas follow the pieces one by one: the next piece leaves the first message open, ends with it, or
goes past its end.
-/

namespace List

variable {α : Type*}

/-- Every message of the stream ends where a piece ends. -/
def EndsAtCuts (p : List α) (pieces messages : List (List α)) : Prop :=
  ∀ i, 0 < i → i ≤ messages.length →
    ∃ j, p ++ (pieces.take j).flatten = (messages.take i).flatten

variable {p x b : List α} {pieces messages : List (List α)}

theorem endsAtCuts_no_message : EndsAtCuts p pieces [] :=
  fun i hi hle ↦ absurd hi (by simpa using hle)

/-- The end of a message is not reached in front of the pieces. -/
theorem ne_flatten_take_of_lt (hp : p.length < b.length) {i : ℕ} (hi : 0 < i) :
    p ++ (pieces.take 0).flatten ≠ ((b :: messages).take i).flatten := by
  obtain ⟨i, rfl⟩ := Nat.exists_eq_succ_of_ne_zero (Nat.pos_iff_ne_zero.1 hi)
  intro h
  have := congrArg length h
  rw [take_zero, flatten_nil, append_nil, take_succ_cons, flatten_cons, length_append] at this
  omega

/-- A piece in front of which the first message is open can be taken to what was read. -/
theorem endsAtCuts_cons (hp : p.length < b.length) :
    EndsAtCuts p (x :: pieces) (b :: messages) ↔ EndsAtCuts (p ++ x) pieces (b :: messages) := by
  constructor
  · intro h i hi hle
    obtain ⟨j, hj⟩ := h i hi hle
    rcases j with - | j
    · exact absurd hj (ne_flatten_take_of_lt hp hi)
    · exact ⟨j, by rw [← hj, take_succ_cons, flatten_cons, append_assoc]⟩
  · intro h i hi hle
    obtain ⟨j, hj⟩ := h i hi hle
    exact ⟨j + 1, by rw [← hj, take_succ_cons, flatten_cons, append_assoc]⟩

/-- What was read ends with the first message. -/
theorem endsAtCuts_self :
    EndsAtCuts b pieces (b :: messages) ↔ EndsAtCuts [] pieces messages := by
  constructor
  · intro h i hi hle
    obtain ⟨j, hj⟩ := h (i + 1) (Nat.succ_pos i) (by simpa using hle)
    exact ⟨j, append_cancel_left (by rwa [take_succ_cons, flatten_cons] at hj)⟩
  · intro h i hi hle
    obtain ⟨i, rfl⟩ := Nat.exists_eq_succ_of_ne_zero (Nat.pos_iff_ne_zero.1 hi)
    rcases Nat.eq_zero_or_pos i with rfl | hi'
    · exact ⟨0, by simp⟩
    · obtain ⟨j, hj⟩ := h i hi' (by simpa using hle)
      exact ⟨j, by rw [take_succ_cons, flatten_cons, ← hj, nil_append]⟩

/-- What was read goes past the end of the first message. -/
theorem not_endsAtCuts (hp : b.length < p.length) : ¬ EndsAtCuts p pieces (b :: messages) := by
  intro h
  obtain ⟨j, hj⟩ := h 1 Nat.one_pos (by simp)
  have := congrArg length hj
  simp only [take_succ_cons, take_zero, flatten_cons, flatten_nil, append_nil,
    length_append] at this
  omega

end List
