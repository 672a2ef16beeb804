import ForgeServer.Systems.Machine

/-!
# Framed output streams

A machine whose outputs carry pieces of a stream. If every step adds nothing, or one whole frame, or
a strict initial piece of a frame and then stops for good, the stream of every run is a
concatenation of whole frames, in the order of the steps that sent them, with at most one cut frame
at its end (`run_framed`).

What a frame is may depend on the input and the output of the step that sends it.
-/

namespace Machine

variable {σ ι ο β : Type*}

section Defs

variable (Frame : ι → ο → List β → Prop) (Stopped : σ → Prop) (out : ο → List β)

/-- What a step from `i` to `o` and `s'` adds to the stream. -/
inductive Extends (i : ι) (o : ο) (s' : σ) : Prop
  /-- Nothing. -/
  | silent (h : out o = [])
  /-- A whole frame. -/
  | whole (h : Frame i o (out o))
  /-- A frame that is cut, and the machine stops. -/
  | cut (full : List β) (hfull : Frame i o full) (hpre : out o <+: full) (hne : out o ≠ full)
      (hstop : Stopped s')

/-- **The stream of a run that ends in `s'`**: whole frames, each sent by a step of its own, in the
order of the steps; then nothing, or a cut frame sent by the last step, after which the machine has
stopped. -/
def FramedStream (is : List ι) (os : List ο) (s' : σ) : Prop :=
  ∃ (frames : List ((ι × ο) × List β)) (tail : List β),
    (frames.map Prod.fst).Sublist (is.zip os) ∧ (∀ p ∈ frames, Frame p.1.1 p.1.2 p.2) ∧
    os.flatMap out = frames.flatMap Prod.snd ++ tail ∧
    (tail = [] ∨ ∃ i o full, (is.zip os).getLast? = some (i, o) ∧ Frame i o full ∧
      tail <+: full ∧ tail ≠ full ∧ Stopped s')

end Defs

variable {M : Machine σ ι ο} {Frame : ι → ο → List β → Prop} {Stopped : σ → Prop}
  {out : ο → List β}

/-- An initial piece of a frame from a step that stops the machine. -/
theorem Extends.of_stopped {i : ι} {o : ο} {s' : σ} {full : List β} (hfull : Frame i o full)
    (hpre : out o <+: full) (hstop : Stopped s') : Extends Frame Stopped out i o s' := by
  by_cases h : out o = full
  · exact .whole (h ▸ hfull)
  · exact .cut full hfull hpre h hstop

/-- Nothing runs from a stopped state. -/
theorem eq_of_run_of_stopped {s s' : σ} {is : List ι} {os : List ο}
    (hs : ∀ i, M.step s i = none) (h : M.run s is = some (os, s')) :
    is = [] ∧ os = [] ∧ s' = s := by
  cases is with
  | nil =>
    simp only [run_nil, Option.some.injEq, Prod.mk.injEq] at h
    exact ⟨rfl, h.1.symm, h.2.symm⟩
  | cons i is =>
    obtain ⟨o, s₁, os', hstep, -⟩ := M.run_cons_eq_some.1 h
    rw [hs i] at hstep
    exact absurd hstep (by simp)

theorem getLast?_cons_of_some {α : Type*} {a b : α} {l : List α} (h : l.getLast? = some b) :
    (a :: l).getLast? = some b := by
  rw [List.getLast?_cons, h]
  rfl

/-- **The rule for framed streams.** -/
theorem run_framed {P : σ → Prop} (hstop : ∀ s, Stopped s → ∀ i, M.step s i = none)
    (hP : ∀ s i o s', P s → M.step s i = some (o, s') →
      P s' ∧ Extends Frame Stopped out i o s') :
    ∀ {is : List ι} {s s' : σ} {os : List ο}, P s → M.run s is = some (os, s') →
      FramedStream Frame Stopped out is os s' := by
  intro is
  induction is with
  | nil =>
    rintro s s' os - h
    simp only [run_nil, Option.some.injEq, Prod.mk.injEq] at h
    obtain ⟨rfl, rfl⟩ := h
    exact ⟨[], [], List.Sublist.refl _, by simp, rfl, Or.inl rfl⟩
  | cons i is ih =>
    intro s s' os hs h
    obtain ⟨o, s₁, os', hstep, hrun, rfl⟩ := M.run_cons_eq_some.1 h
    obtain ⟨hs₁, hext⟩ := hP s i o s₁ hs hstep
    obtain ⟨frames, tail, hsub, hframes, hout, htail⟩ := ih hs₁ hrun
    have htail' : tail = [] ∨ ∃ i' o' full, ((i, o) :: is.zip os').getLast? = some (i', o') ∧
        Frame i' o' full ∧ tail <+: full ∧ tail ≠ full ∧ Stopped s' := by
      rcases htail with h | ⟨i', o', full, hlast, hrest⟩
      · exact Or.inl h
      · exact Or.inr ⟨i', o', full, getLast?_cons_of_some hlast, hrest⟩
    cases hext with
    | silent hnil =>
      refine ⟨frames, tail, hsub.cons _, hframes, ?_, htail'⟩
      rw [List.flatMap_cons, hnil, List.nil_append, hout]
    | whole hwhole =>
      refine ⟨((i, o), out o) :: frames, tail, hsub.cons_cons _, fun p hp ↦ ?_, ?_, htail'⟩
      · rcases List.mem_cons.1 hp with rfl | hp
        · exact hwhole
        · exact hframes p hp
      · rw [List.flatMap_cons, hout, List.flatMap_cons, List.append_assoc]
    | cut full hfull hpre hne hstopped =>
      obtain ⟨rfl, rfl, rfl⟩ := eq_of_run_of_stopped (hstop s₁ hstopped) hrun
      exact ⟨[], out o, List.nil_sublist _, by simp, by simp,
        Or.inr ⟨i, o, full, rfl, hfull, hpre, hne, hstopped⟩⟩

end Machine
