import Mathlib.Algebra.Order.BigOperators.Group.List
import Mathlib.Data.List.Infix
import Mathlib.Data.Int.Order.Basic
import Mathlib.Algebra.Ring.Int.Defs

/-!
# Lexical walks along a path

A path is cut into components at a separator, and walked component by component: an empty component
and a single dot stay, two dots go up, anything else goes down. `NeverRises` says that the walk is
not above its start after any of its components.

A string without two dots in a row anywhere has no component that goes up, at whatever depth, so its
walk never rises (`neverRises_of_not_infix`). Alphabet, separator and dot are arbitrary.
-/

namespace PathWalk

variable {α : Type*}

theorem infix_intercalate (sep : List α) {c : List α} {cs : List (List α)} (h : c ∈ cs) :
    c <:+: sep.intercalate cs := by
  induction cs with
  | nil => exact absurd h List.not_mem_nil
  | cons d cs ih =>
    rcases cs with - | ⟨d', cs⟩
    · rw [List.mem_singleton.1 h, List.intercalate_singleton]
    · rw [List.intercalate_cons_cons]
      rcases List.mem_cons.1 h with rfl | h
      · rw [List.append_assoc]
        exact (List.prefix_append _ _).isInfix
      · exact (ih h).trans (List.suffix_append _ _).isInfix

variable [DecidableEq α]

/-- Where a component leads: up, down, or nowhere. -/
def move (dot : α) (c : List α) : ℤ :=
  if c = [] ∨ c = [dot] then 0 else if c = [dot, dot] then -1 else 1

/-- The height below the start after some components. -/
def depth (dot : α) (cs : List (List α)) : ℤ := (cs.map (move dot)).sum

/-- The walk along a path is nowhere above its start. -/
def NeverRises (sep dot : α) (path : List α) : Prop :=
  ∀ cs, cs <+: path.splitOn sep → 0 ≤ depth dot cs

/-- Only the component of two dots leads up. -/
theorem move_nonneg {dot : α} {c : List α} (h : c ≠ [dot, dot]) : 0 ≤ move dot c := by
  rw [move, if_neg h]
  split
  · exact le_rfl
  · exact zero_le_one

theorem depth_nonneg {dot : α} {cs : List (List α)} (h : [dot, dot] ∉ cs) : 0 ≤ depth dot cs := by
  refine List.sum_nonneg fun x hx ↦ ?_
  obtain ⟨c, hc, rfl⟩ := List.mem_map.1 hx
  exact move_nonneg fun e ↦ h (e ▸ hc)

/-- A component of a path is a piece of it. -/
theorem infix_of_mem_splitOn {sep : α} {path c : List α} (h : c ∈ path.splitOn sep) :
    c <:+: path := by
  have := infix_intercalate [sep] h
  rwa [List.intercalate_splitOn] at this

/-- **A path without two dots in a row never rises**, after any number of components. -/
theorem neverRises_of_not_infix {sep dot : α} {path : List α} (h : ¬ [dot, dot] <:+: path) :
    NeverRises sep dot path :=
  fun _ hcs ↦ depth_nonneg fun hmem ↦ h (infix_of_mem_splitOn (hcs.subset hmem))

end PathWalk
