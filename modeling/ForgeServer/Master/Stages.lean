import ForgeServer.Server.Connection

/-!
# The stages of a connection

What the server is for, seen from one client: a connection is accepted, handed to a worker, and
served by it until it is closed. `stageMachine` says just that, with the machine of a single
connection for the part that is served; it knows of no other connection, no descriptor table, no
queue and no batch.

`run_unserved` is what the consumers use: whatever happens to a connection, it is served as the
machine of a single connection serves it, from one registration on, or nothing is done for it.
-/

namespace ForgeServer

open Machine

/-! ### The stages -/

/-- How far a connection has come. -/
inductive Stage
  /-- Not accepted yet. -/
  | unborn
  /-- Accepted, in front of `forge_send_fd`. -/
  | inHand
  /-- In the control socket of its worker. -/
  | queued
  /-- Registered by its worker, and what became of it there. -/
  | served (cs : ConnState)
  /-- Not delivered, not registered, or its worker has exited. -/
  | gone

/-- What happens to a connection. -/
inductive StageInput
  | accepted
  /-- `forge_send_fd` was called for it. -/
  | offered (sent : Bool)
  /-- Its worker has taken the datagram, and registered it under a descriptor or not. -/
  | taken (fd : Option ℤ)
  /-- An event of it is handled. -/
  | event (e : ConnEvent)
  /-- Its worker exits. -/
  | exit

/-- The life of a connection. An event is answered with the calls made for it. -/
def stageMachine (cfg : ForgeCfg) : Machine Stage StageInput (Option Turn) where
  step
    | .unborn, .accepted => some (none, .inHand)
    | .inHand, .offered sent => some (none, if sent then .queued else .gone)
    | .queued, .taken (some fd) => some (none, .served (.registered (.fresh fd)))
    | .queued, .taken none => some (none, .gone)
    | .served cs, .event e => ((connMachine cfg).step cs e).map fun r ↦ (some r.1, .served r.2)
    | .unborn, .exit => some (none, .unborn)
    | .inHand, .exit => some (none, .inHand)
    | _, .exit => some (none, .gone)
    | _, _ => none

/-! ### The part that is served -/

/-- The event an input of `stageMachine` handles. -/
def StageInput.event? : StageInput → Option ConnEvent
  | .event e => some e
  | _ => none

/-- The events that are handled for a connection. -/
def servedEvents (ins : List StageInput) : List ConnEvent := ins.filterMap StageInput.event?

variable {cfg : ForgeCfg} {ins : List StageInput} {os : List (Option Turn)} {stage : Stage}

/-- After the end no event of a connection is handled. -/
theorem run_gone (h : (stageMachine cfg).run .gone ins = some (os, stage)) :
    servedEvents ins = [] ∧ os.reduceOption = [] := by
  induction ins generalizing os with
  | nil =>
    obtain ⟨rfl, -⟩ := Prod.mk.inj (Option.some.inj h)
    exact ⟨rfl, rfl⟩
  | cons i ins ih =>
    obtain ⟨o, st, os, hstep, hrun, rfl⟩ := (run_cons_eq_some _).1 h
    cases i with
    | exit =>
      obtain ⟨rfl, rfl⟩ := Prod.mk.inj (Option.some.inj hstep)
      obtain ⟨hevents, hturns⟩ := ih hrun
      exact ⟨hevents, hturns⟩
    | accepted | offered | taken | event => exact absurd hstep (by simp [stageMachine])

/-- **What is served is a run of the machine of a single connection.** -/
theorem run_served {cs : ConnState}
    (h : (stageMachine cfg).run (.served cs) ins = some (os, stage)) :
    ∃ cs', (connMachine cfg).run cs (servedEvents ins) = some (os.reduceOption, cs') := by
  induction ins generalizing cs os with
  | nil =>
    obtain ⟨rfl, -⟩ := Prod.mk.inj (Option.some.inj h)
    exact ⟨cs, rfl⟩
  | cons i ins ih =>
    obtain ⟨o, st, os, hstep, hrun, rfl⟩ := (run_cons_eq_some _).1 h
    cases i with
    | event e =>
      obtain ⟨⟨t, cs₁⟩, hone, heq⟩ := Option.map_eq_some_iff.1 hstep
      obtain ⟨rfl, rfl⟩ := Prod.mk.inj heq
      obtain ⟨cs', hrest⟩ := ih hrun
      exact ⟨cs', (run_cons_eq_some _).2 ⟨t, cs₁, _, hone, hrest, rfl⟩⟩
    | exit =>
      obtain ⟨rfl, rfl⟩ := Prod.mk.inj (Option.some.inj hstep)
      obtain ⟨hevents, hturns⟩ := run_gone hrun
      refine ⟨cs, ?_⟩
      rw [show servedEvents (.exit :: ins) = servedEvents ins from rfl, hevents,
        show (none :: os).reduceOption = os.reduceOption from rfl, hturns]
      rfl
    | accepted | offered | taken => exact absurd hstep (by simp [stageMachine])

/-- Once it was registered, or will not be any more, a connection is not registered. -/
theorem not_taken_of_run {fd : Option ℤ} (hstage : stage = .gone ∨ ∃ cs, stage = .served cs)
    {stage' : Stage} (h : (stageMachine cfg).run stage ins = some (os, stage')) :
    .taken fd ∉ ins := by
  induction ins generalizing stage os with
  | nil => exact List.not_mem_nil
  | cons i ins ih =>
    obtain ⟨o, st, os, hstep, hrun, rfl⟩ := (run_cons_eq_some _).1 h
    have hnext : i ≠ .taken fd ∧ (st = .gone ∨ ∃ cs, st = .served cs) := by
      rcases hstage with rfl | ⟨cs, rfl⟩
      · cases i with
        | exit =>
          obtain ⟨-, rfl⟩ := Prod.mk.inj (Option.some.inj hstep)
          exact ⟨StageInput.noConfusion, .inl rfl⟩
        | accepted | offered | taken | event => exact absurd hstep (by simp [stageMachine])
      · cases i with
        | event e =>
          obtain ⟨⟨t, cs₁⟩, -, heq⟩ := Option.map_eq_some_iff.1 hstep
          obtain ⟨-, rfl⟩ := Prod.mk.inj heq
          exact ⟨StageInput.noConfusion, .inr ⟨cs₁, rfl⟩⟩
        | exit =>
          obtain ⟨-, rfl⟩ := Prod.mk.inj (Option.some.inj hstep)
          exact ⟨StageInput.noConfusion, .inl rfl⟩
        | accepted | offered | taken => exact absurd hstep (by simp [stageMachine])
    exact fun hmem ↦ (List.mem_cons.1 hmem).elim (fun heq ↦ hnext.1 heq.symm) (ih hnext.2 hrun)

/-- A step in front of the registration, or the registration. -/
theorem unserved_step {i : StageInput} {o : Option Turn} {stage' : Stage}
    (h : (stageMachine cfg).step stage i = some (o, stage')) (hstage : ∀ cs, stage ≠ .served cs) :
    o = none ∧ i.event? = none ∧
      (((∀ cs, stage' ≠ .served cs) ∧ ∀ fd, i ≠ .taken (some fd)) ∨
        ∃ fd, i = .taken (some fd) ∧ stage' = .served (.registered (.fresh fd))) := by
  have hother : ∀ {st : Stage} {j : StageInput}, (none, st) = (o, stage') → j = i →
      (∀ cs, st ≠ .served cs) → j.event? = none → (∀ fd, j ≠ .taken (some fd)) →
      o = none ∧ i.event? = none ∧
        (((∀ cs, stage' ≠ .served cs) ∧ ∀ fd, i ≠ .taken (some fd)) ∨
          ∃ fd, i = .taken (some fd) ∧ stage' = .served (.registered (.fresh fd))) := by
    rintro st j heq rfl hst hev hno
    obtain ⟨rfl, rfl⟩ := Prod.mk.inj heq
    exact ⟨rfl, hev, .inl ⟨hst, hno⟩⟩
  cases stage with
  | served cs => exact absurd rfl (hstage cs)
  | unborn =>
    cases i with
    | accepted | exit => exact hother (Option.some.inj h) rfl (by simp) rfl (by simp)
    | offered | taken | event => exact absurd h (by simp [stageMachine])
  | inHand =>
    cases i with
    | offered sent => exact hother (Option.some.inj h) rfl (by cases sent <;> simp) rfl (by simp)
    | exit => exact hother (Option.some.inj h) rfl (by simp) rfl (by simp)
    | accepted | taken | event => exact absurd h (by simp [stageMachine])
  | queued =>
    cases i with
    | taken fd =>
      cases fd with
      | some fd =>
        obtain ⟨rfl, rfl⟩ := Prod.mk.inj (Option.some.inj h)
        exact ⟨rfl, rfl, .inr ⟨fd, rfl, rfl⟩⟩
      | none => exact hother (Option.some.inj h) rfl (by simp) rfl (by simp)
    | exit => exact hother (Option.some.inj h) rfl (by simp) rfl (by simp)
    | accepted | offered | event => exact absurd h (by simp [stageMachine])
  | gone =>
    cases i with
    | exit => exact hother (Option.some.inj h) rfl (by simp) rfl (by simp)
    | accepted | offered | taken | event => exact absurd h (by simp [stageMachine])

/-- **A connection from its acceptance on**: it is never registered and no event of it is handled,
or it is registered under one descriptor and served from there. -/
theorem run_unserved (hstage : ∀ cs, stage ≠ .served cs) {stage' : Stage}
    (h : (stageMachine cfg).run stage ins = some (os, stage')) :
    ((∀ fd, .taken (some fd) ∉ ins) ∧ servedEvents ins = [] ∧ os.reduceOption = []) ∨
      ∃ fd cs, (∀ fd', .taken (some fd') ∈ ins ↔ fd' = fd) ∧
        (connMachine cfg).run (.registered (.fresh fd)) (servedEvents ins) =
          some (os.reduceOption, cs) := by
  induction ins generalizing stage os with
  | nil =>
    obtain ⟨rfl, -⟩ := Prod.mk.inj (Option.some.inj h)
    exact .inl ⟨fun _ ↦ List.not_mem_nil, rfl, rfl⟩
  | cons i ins ih =>
    obtain ⟨o, st, os, hstep, hrun, rfl⟩ := (run_cons_eq_some _).1 h
    obtain ⟨rfl, hev, hnext⟩ := unserved_step hstep hstage
    have hevents : servedEvents (i :: ins) = servedEvents ins := List.filterMap_cons_none hev
    have hturns : (none :: os).reduceOption = os.reduceOption := rfl
    rw [hevents, hturns]
    rcases hnext with ⟨hst, hno⟩ | ⟨fd, rfl, rfl⟩
    · have hmem : ∀ fd, .taken (some fd) ∈ i :: ins ↔ .taken (some fd) ∈ ins := fun fd ↦ by
        rw [List.mem_cons, or_iff_right (Ne.symm (hno fd))]
      simp only [hmem]
      exact ih hst hrun
    · obtain ⟨cs, hconn⟩ := run_served hrun
      refine .inr ⟨fd, cs, fun fd' ↦ ?_, hconn⟩
      have hno : .taken (some fd') ∉ ins := not_taken_of_run (.inr ⟨_, rfl⟩) hrun
      rw [List.mem_cons, or_iff_left hno, StageInput.taken.injEq, Option.some.injEq]

end ForgeServer
