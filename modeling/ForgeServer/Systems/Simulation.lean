import Mathlib.Algebra.Ring.Nat
import ForgeServer.Systems.Machine

/-!
# Simulations and potentials

Two rules for whole runs of a machine, each from a condition on one step.

* `run_simulates`: every run of `M` is, through a view of its steps, a run of a machine `A` that
  says less. One step of `M` may be any number of steps of `A`, none included; the view may read the
  state, because what a step means to an observer can depend on where it is taken.
* `run_potential`: an amortised bound. Each step pays its cost out of a potential of the state and
  the credit it brings, so the total cost of a run is at most the potential it starts with and the
  credit of its steps.

Nothing here knows what the machines are.
-/

namespace Machine

variable {σ ι ο τ κ π β : Type*}

/-! ### Views -/

/-- What the steps of a run are to an observer, in order. -/
def viewed (M : Machine σ ι ο) (view : σ → ι → List κ) : σ → List ι → List κ
  | _, [] => []
  | s, i :: is => view s i ++
    match M.step s i with
    | some (_, s') => viewed M view s' is
    | none => []

variable {M : Machine σ ι ο} {A : Machine τ κ π} {view : σ → ι → List κ}

theorem viewed_cons {s s' : σ} {i : ι} {o : ο} (h : M.step s i = some (o, s')) (is : List ι) :
    M.viewed view s (i :: is) = view s i ++ M.viewed view s' is := by
  rw [viewed, h]

/-- The view of two runs, one after the other. -/
theorem viewed_append {s s' : σ} {is : List ι} {os : List ο} (h : M.run s is = some (os, s'))
    (js : List ι) : M.viewed view s (is ++ js) = M.viewed view s is ++ M.viewed view s' js := by
  induction is generalizing s os with
  | nil =>
    obtain ⟨-, rfl⟩ := Prod.mk.inj (Option.some.inj h)
    rfl
  | cons i is ih =>
    obtain ⟨o, s₁, os', hstep, hrun, -⟩ := M.run_cons_eq_some.1 h
    rw [List.cons_append, viewed_cons hstep, viewed_cons hstep, ih hrun, List.append_assoc]

theorem viewed_concat {s s' : σ} {is : List ι} {os : List ο} (h : M.run s is = some (os, s'))
    (i : ι) : M.viewed view s (is ++ [i]) = M.viewed view s is ++ view s' i := by
  rw [viewed_append h, viewed]
  cases M.step s' i <;> simp [viewed]

/-- **The simulation rule.** If from related states a step of `M` is, to the observer, a run of `A`
that shows the same and leads to related states, then so is every run of `M`. -/
theorem run_simulates {R : σ → τ → Prop} (obs : ο → List β) (obsA : π → List β)
    (hR : ∀ s t i o s', R s t → M.step s i = some (o, s') →
      ∃ ps t', A.run t (view s i) = some (ps, t') ∧ ps.flatMap obsA = obs o ∧ R s' t') :
    ∀ {is : List ι} {s s' : σ} {t : τ} {os : List ο}, R s t → M.run s is = some (os, s') →
      ∃ ps t', A.run t (M.viewed view s is) = some (ps, t') ∧
        ps.flatMap obsA = os.flatMap obs ∧ R s' t' := by
  intro is
  induction is with
  | nil =>
    intro s s' t os hst h
    obtain ⟨rfl, rfl⟩ := Prod.mk.inj (Option.some.inj h)
    exact ⟨[], t, rfl, rfl, hst⟩
  | cons i is ih =>
    intro s s' t os hst h
    obtain ⟨o, s₁, os', hstep, hrun, rfl⟩ := M.run_cons_eq_some.1 h
    obtain ⟨ps₁, t₁, hone, hobs₁, hst₁⟩ := hR s t i o s₁ hst hstep
    obtain ⟨ps₂, t₂, hrest, hobs₂, hst₂⟩ := ih hst₁ hrun
    refine ⟨ps₁ ++ ps₂, t₂, ?_, ?_, hst₂⟩
    · rw [viewed_cons hstep]
      exact A.run_append_eq_some.2 ⟨ps₁, t₁, ps₂, hone, hrest, rfl⟩
    · rw [List.flatMap_append, List.flatMap_cons, hobs₁, hobs₂]

/-! ### Potentials -/

/-- What the steps of a run come to, each by its input and its output. -/
def total (price : ι × ο → ℕ) (is : List ι) (os : List ο) : ℕ := ((is.zip os).map price).sum

@[simp] theorem total_nil (price : ι × ο → ℕ) : total price [] [] = 0 := rfl

@[simp] theorem total_cons (price : ι × ο → ℕ) (i : ι) (is : List ι) (o : ο) (os : List ο) :
    total price (i :: is) (o :: os) = price (i, o) + total price is os := rfl

@[simp] theorem total_zero (is : List ι) (os : List ο) : total (fun _ ↦ 0) is os = 0 := by
  simp [total]

/-- **The amortised bound.** -/
theorem run_potential {P : σ → Prop} (potential : σ → ℕ) (cost credit : ι × ο → ℕ)
    (hP : ∀ s i o s', P s → M.step s i = some (o, s') →
      P s' ∧ potential s' + cost (i, o) ≤ potential s + credit (i, o)) :
    ∀ {is : List ι} {s s' : σ} {os : List ο}, P s → M.run s is = some (os, s') →
      potential s' + total cost is os ≤ potential s + total credit is os := by
  intro is
  induction is with
  | nil =>
    rintro s s' os - h
    obtain ⟨rfl, rfl⟩ := Prod.mk.inj (Option.some.inj h)
    exact Nat.le_refl _
  | cons i is ih =>
    intro s s' os hs h
    obtain ⟨o, s₁, os', hstep, hrun, rfl⟩ := M.run_cons_eq_some.1 h
    obtain ⟨hs₁, hpay⟩ := hP s i o s₁ hs hstep
    have hrest := ih hs₁ hrun
    rw [total_cons, total_cons]
    omega

end Machine
