import Mathlib.Data.List.Basic
import Mathlib.Data.List.Induction
import Mathlib.Order.Basic

/-!
# Machines with inputs, outputs and refused inputs

The substrate for every running component of the development: a state, and a step that answers an
input with an output and a next state. The step is an `Option`: `none` says that the state does not
admit the input at all (a descriptor that is not registered gets no event, a worker that is busy
takes no new batch), so "for every run" is a quantifier over the input lists on which `run` is
defined.

Nothing here knows what the states are. What the consumers use:

* `run_invariant` and `run_output`, the two induction rules: a predicate kept by every step holds
  at the end of every run, and what every step from such a state guarantees of its output holds of
  every output of the run;
* `run_history`, the same for what a run says with all it has taken in and put out;
* `Meets`, a condition on the steps *of one run*, and `throughout_iff_meets`: when a predicate holds
  in every state of a run exactly if every step of the run meets the condition;
* `run_agree`, the two-run rule: states related by a relation that every step keeps, with related
  outputs, have related output lists on equal inputs.
-/

/-- A machine: `step s i` is the output and the next state, `none` when `s` does not admit `i`. -/
structure Machine (σ ι ο : Type*) where
  /-- One step. -/
  step : σ → ι → Option (ο × σ)

namespace Machine

variable {σ ι ο : Type*} (M : Machine σ ι ο)

/-! ### Runs -/

/-- The run on a list of inputs: the outputs in order and the state at the end. -/
def run : σ → List ι → Option (List ο × σ)
  | s, [] => some ([], s)
  | s, i :: is => (M.step s i).bind fun r ↦ (run r.2 is).map fun q ↦ (r.1 :: q.1, q.2)

@[simp] theorem run_nil (s : σ) : M.run s [] = some ([], s) := rfl

/-- A run on a nonempty list is a step and a run on the rest. -/
theorem run_cons_eq_some {s s' : σ} {i : ι} {is : List ι} {os : List ο} :
    M.run s (i :: is) = some (os, s') ↔
      ∃ o s₁ os', M.step s i = some (o, s₁) ∧ M.run s₁ is = some (os', s') ∧ os = o :: os' := by
  simp only [run, Option.bind_eq_some_iff, Option.map_eq_some_iff, Prod.mk.injEq, Prod.exists]
  constructor
  · rintro ⟨o, s₁, hstep, os', s₂, hrun, rfl, rfl⟩
    exact ⟨o, s₁, os', hstep, hrun, rfl⟩
  · rintro ⟨o, s₁, os', hstep, hrun, rfl⟩
    exact ⟨o, s₁, hstep, os', s', hrun, rfl, rfl⟩

theorem run_cons_of_step {s s₁ : σ} {i : ι} {o : ο} (h : M.step s i = some (o, s₁))
    (is : List ι) :
    M.run s (i :: is) = (M.run s₁ is).map fun q ↦ (o :: q.1, q.2) := by
  rw [run, h]
  rfl

/-- Runs compose. -/
theorem run_append_eq_some {s s' : σ} {is js : List ι} {os : List ο} :
    M.run s (is ++ js) = some (os, s') ↔
      ∃ os₁ s₁ os₂, M.run s is = some (os₁, s₁) ∧ M.run s₁ js = some (os₂, s') ∧
        os = os₁ ++ os₂ := by
  induction is generalizing s os with
  | nil => simp
  | cons i is ih =>
    rw [List.cons_append, run_cons_eq_some]
    constructor
    · rintro ⟨o, s₁, os', hstep, hrun, rfl⟩
      obtain ⟨os₁, s₂, os₂, h₁, h₂, rfl⟩ := ih.1 hrun
      exact ⟨o :: os₁, s₂, os₂, (M.run_cons_eq_some).2 ⟨o, s₁, os₁, hstep, h₁, rfl⟩, h₂, rfl⟩
    · rintro ⟨os₁, s₂, os₂, h₁, h₂, rfl⟩
      obtain ⟨o, s₁, os', hstep, hrun, rfl⟩ := (M.run_cons_eq_some).1 h₁
      exact ⟨o, s₁, os' ++ os₂, hstep, ih.2 ⟨os', s₂, os₂, hrun, h₂, rfl⟩, rfl⟩

/-- A state some run from `s₀` ends in. -/
def Reachable (s₀ s : σ) : Prop :=
  ∃ is os, M.run s₀ is = some (os, s)

theorem Reachable.refl (s : σ) : M.Reachable s s :=
  ⟨[], [], rfl⟩

variable {M}

theorem Reachable.run {s₀ s s' : σ} {is : List ι} {os : List ο} (h : M.Reachable s₀ s)
    (hrun : M.run s is = some (os, s')) : M.Reachable s₀ s' := by
  obtain ⟨js, os', hjs⟩ := h
  exact ⟨js ++ is, os' ++ os, M.run_append_eq_some.2 ⟨os', s, os, hjs, hrun, rfl⟩⟩

theorem Reachable.step {s₀ s s' : σ} {i : ι} {o : ο} (h : M.Reachable s₀ s)
    (hstep : M.step s i = some (o, s')) : M.Reachable s₀ s' :=
  h.run (M.run_cons_eq_some.2 ⟨o, s', [], hstep, M.run_nil s', rfl⟩)

/-! ### The induction rules -/

/-- **Invariants.** What every step keeps holds at the end of every run. -/
theorem run_invariant {P : σ → Prop}
    (hP : ∀ s i o s', P s → M.step s i = some (o, s') → P s') :
    ∀ {is : List ι} {s s' : σ} {os : List ο}, P s → M.run s is = some (os, s') → P s' := by
  intro is
  induction is with
  | nil =>
    rintro s s' os hs h
    simp only [run_nil, Option.some.injEq, Prod.mk.injEq] at h
    exact h.2 ▸ hs
  | cons i is ih =>
    intro s s' os hs h
    obtain ⟨o, s₁, os', hstep, hrun, -⟩ := M.run_cons_eq_some.1 h
    exact ih (hP s i o s₁ hs hstep) hrun

theorem Reachable.invariant {P : σ → Prop} {s₀ s : σ} (h : M.Reachable s₀ s) (h₀ : P s₀)
    (hP : ∀ s i o s', P s → M.step s i = some (o, s') → P s') : P s := by
  obtain ⟨is, os, hrun⟩ := h
  exact run_invariant hP h₀ hrun

/-- **Outputs.** What every step from an invariant state guarantees of its output holds of every
output of a run. -/
theorem run_output {P : σ → Prop} {Q : ο → Prop}
    (hP : ∀ s i o s', P s → M.step s i = some (o, s') → P s' ∧ Q o) :
    ∀ {is : List ι} {s s' : σ} {os : List ο}, P s → M.run s is = some (os, s') →
      ∀ o ∈ os, Q o := by
  intro is
  induction is with
  | nil =>
    rintro s s' os - h o ho
    simp only [run_nil, Option.some.injEq, Prod.mk.injEq] at h
    rw [← h.1] at ho
    exact absurd ho List.not_mem_nil
  | cons i is ih =>
    intro s s' os hs h o ho
    obtain ⟨o₁, s₁, os', hstep, hrun, rfl⟩ := M.run_cons_eq_some.1 h
    obtain ⟨hs₁, ho₁⟩ := hP s i o₁ s₁ hs hstep
    rcases List.mem_cons.1 ho with rfl | ho
    · exact ho₁
    · exact ih hs₁ hrun o ho

/-- **Histories.** What holds before the first step, and of a run one step longer whenever it holds
of the run, holds of every run with all its inputs and outputs. -/
theorem run_history {P : List ι → List ο → σ → Prop} {s₀ : σ} (h₀ : P [] [] s₀)
    (hP : ∀ is os s i o s', P is os s → M.step s i = some (o, s') → P (is ++ [i]) (os ++ [o]) s')
    {is : List ι} {os : List ο} {s : σ} (hrun : M.run s₀ is = some (os, s)) : P is os s := by
  induction is using List.reverseRecOn generalizing os s with
  | nil =>
    obtain ⟨rfl, rfl⟩ := Prod.mk.inj (Option.some.inj hrun)
    exact h₀
  | append_singleton is i ih =>
    obtain ⟨os₁, s₁, os₂, hrun₁, hlast, rfl⟩ := M.run_append_eq_some.1 hrun
    obtain ⟨o, s₂, os₃, hstep, hnil, rfl⟩ := M.run_cons_eq_some.1 hlast
    obtain ⟨rfl, rfl⟩ := Prod.mk.inj (Option.some.inj hnil)
    exact hP is os₁ s₁ i o s₂ (ih hrun₁) hstep

/-! ### Conditions on the steps of one run -/

/-- Every step of the run from `s` on the inputs meets `C`, a condition on the state before the
step and the input. -/
def Meets (M : Machine σ ι ο) (C : σ → ι → Prop) : σ → List ι → Prop
  | _, [] => True
  | s, i :: is => C s i ∧ ∀ o s', M.step s i = some (o, s') → Meets M C s' is

theorem meets_cons {C : σ → ι → Prop} {s s₁ : σ} {i : ι} {is : List ι} {o : ο}
    (h : M.step s i = some (o, s₁)) : M.Meets C s (i :: is) ↔ C s i ∧ M.Meets C s₁ is := by
  refine and_congr_right fun _ ↦ ⟨fun hrest ↦ hrest o s₁ h, fun hrest o' s' h' ↦ ?_⟩
  obtain ⟨-, rfl⟩ := Prod.mk.inj (Option.some.inj (h.symm.trans h'))
  exact hrest

/-- `P` in every state the run from `s` on the inputs reaches. -/
def Throughout (M : Machine σ ι ο) (P : σ → Prop) (s : σ) (is : List ι) : Prop :=
  ∀ js, js <+: is → ∀ os s', M.run s js = some (os, s') → P s'

theorem throughout_cons {P : σ → Prop} {s s₁ : σ} {i : ι} {is : List ι} {o : ο}
    (h : M.step s i = some (o, s₁)) :
    M.Throughout P s (i :: is) ↔ P s ∧ M.Throughout P s₁ is := by
  constructor
  · refine fun hall ↦ ⟨hall [] (List.nil_prefix) [] s rfl, fun js hjs os s' hrun ↦ ?_⟩
    exact hall (i :: js) (List.cons_prefix_cons.2 ⟨rfl, hjs⟩) (o :: os) s'
      (M.run_cons_eq_some.2 ⟨o, s₁, os, h, hrun, rfl⟩)
  · rintro ⟨hs, hrest⟩ js hjs os s' hrun
    rcases js with - | ⟨j, js⟩
    · simp only [run_nil, Option.some.injEq, Prod.mk.injEq] at hrun
      exact hrun.2 ▸ hs
    · obtain ⟨rfl, hrestjs⟩ := List.cons_prefix_cons.1 hjs
      obtain ⟨o', s₂, os', hstep, hrun', -⟩ := M.run_cons_eq_some.1 hrun
      have hs₁ : s₁ = s₂ := (Prod.mk.inj (Option.some.inj (h.symm.trans hstep))).2
      exact hrest js hrestjs os' s' (hs₁ ▸ hrun')

/-- **Exactly when a predicate holds throughout a run**: if a step from an invariant state with `P`
leads to `P` exactly when it meets `C`, then `P` holds in every state of a run exactly when every
step of the run meets `C`. -/
theorem throughout_iff_meets {I P : σ → Prop} {C : σ → ι → Prop}
    (hI : ∀ s i o s', I s → M.step s i = some (o, s') → I s')
    (hC : ∀ s i o s', I s → P s → M.step s i = some (o, s') → (P s' ↔ C s i)) :
    ∀ {is : List ι} {s s' : σ} {os : List ο}, I s → P s → M.run s is = some (os, s') →
      (M.Throughout P s is ↔ M.Meets C s is) := by
  intro is
  induction is with
  | nil =>
    intro s s' os _ hs _
    refine iff_of_true (fun js hjs os s' hrun ↦ ?_) trivial
    rw [List.prefix_nil.1 hjs, run_nil, Option.some.injEq, Prod.mk.injEq] at hrun
    exact hrun.2 ▸ hs
  | cons i is ih =>
    intro s s' os hIs hs hrun
    obtain ⟨o, s₁, os', hstep, hrun', -⟩ := M.run_cons_eq_some.1 hrun
    have hI₁ := hI s i o s₁ hIs hstep
    rw [throughout_cons hstep, meets_cons hstep, ← hC s i o s₁ hIs hs hstep]
    constructor
    · rintro ⟨-, hrest⟩
      have hP₁ : P s₁ := hrest [] List.nil_prefix [] s₁ rfl
      exact ⟨hP₁, (ih hI₁ hP₁ hrun').1 hrest⟩
    · rintro ⟨hP₁, hrest⟩
      exact ⟨hs, (ih hI₁ hP₁ hrun').2 hrest⟩

/-! ### Two runs on the same inputs -/

/-- **The two-run rule.** If related states answer an input that meets `C` with related outputs and
related states, they answer a list of such inputs with related outputs and related states. -/
theorem run_agree {R : σ → σ → Prop} {Q : ο → ο → Prop} {C : σ → ι → Prop}
    (hR : ∀ s t i o s', R s t → C s i → M.step s i = some (o, s') →
      ∃ o' t', M.step t i = some (o', t') ∧ Q o o' ∧ R s' t') :
    ∀ {is : List ι} {s t s' : σ} {os : List ο}, R s t → M.Meets C s is →
      M.run s is = some (os, s') →
      ∃ os' t', M.run t is = some (os', t') ∧ List.Forall₂ Q os os' ∧ R s' t' := by
  intro is
  induction is with
  | nil =>
    rintro s t s' os hst - h
    simp only [run_nil, Option.some.injEq, Prod.mk.injEq] at h
    obtain ⟨rfl, rfl⟩ := h
    exact ⟨[], t, rfl, .nil, hst⟩
  | cons i is ih =>
    intro s t s' os hst hC h
    obtain ⟨o, s₁, os₁, hstep, hrun, rfl⟩ := M.run_cons_eq_some.1 h
    obtain ⟨o', t₁, ht, hQ, hst₁⟩ := hR s t i o s₁ hst hC.1 hstep
    obtain ⟨os', t', ht', hQs, hfin⟩ := ih hst₁ (hC.2 o s₁ hstep) hrun
    exact ⟨o' :: os', t', M.run_cons_eq_some.2 ⟨o', t₁, os', ht, ht', rfl⟩, .cons hQ hQs, hfin⟩

end Machine
