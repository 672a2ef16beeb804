import ForgeServer.Http.Sending
import ForgeServer.Worker.Projection

/-!
# What is left between two events

`released` says what one call of `http_send_static_file` leaves behind. From it: a connection that
is still registered after an event is uncorked (`uncorked_clientEvent`), and so, at any moment of a
run of a worker, is every registered connection, while no document file is open (`Tidy`).

The cork of a connection is read off the calls of all events of this connection so far
(`turnsOf`), its socket having been uncorked when it came in.
-/

namespace ForgeServer

open CStr Function Machine

variable {cfg : ForgeCfg} {fds : List ℤ}

/-! ### One event -/

/-- **A connection that a call keeps is uncorked.** -/
theorem uncorked_handleRead {c d : ForgeConn} (hc : ConnInv c) (k : Kernel)
    (hnext : (handleRead cfg k c).next = .registered d) :
    corkAfter c.fd false (handleRead cfg k c).calls = false := by
  have ho := outcome_handleRead cfg k hc
  generalize handleRead cfg k c = t at ho hnext ⊢
  cases ho with
  | waits | more => rfl
  | ended | full => exact absurd hnext (by simp [closeTurn])
  | request bs hread hne hfit r hreq t ht =>
    cases ht with
    | bad | missing | closed => exact absurd hnext (by simp [closeTurn])
    | sending => exact absurd hnext (by simp)
    | kept hget f st hs hrc hka =>
      rw [corkAfter_append]
      exact (released_sendOpened hrc).uncorked rfl _

/-- The same for an event. -/
theorem uncorked_clientEvent {c d : ForgeConn} (hc : ConnInv c) (e : ConnEvent)
    (hnext : (clientEvent cfg e c).next = .registered d) :
    corkAfter c.fd false (clientEvent cfg e c).calls = false := by
  rcases clientEvent_cases cfg e c with h | h | h <;> rw [h] at hnext ⊢
  · exact absurd hnext (by simp [closeTurn])
  · rfl
  · exact uncorked_handleRead hc e.kernel hnext

/-- **A call that returns with the cork on closes the connection.** -/
theorem closed_of_corked {c : ForgeConn} (hc : ConnInv c) (k : Kernel)
    (hreturns : (handleRead cfg k c).next ≠ .sending)
    (hcork : corkAfter c.fd false (handleRead cfg k c).calls = true) :
    (handleRead cfg k c).next = .closed := by
  have hinv := inv_handleRead hc cfg k
  rcases hnext : (handleRead cfg k c).next with d | - | - | -
  · rw [uncorked_handleRead hc k hnext] at hcork
    exact absurd hcork (by simp)
  · rfl
  · exact absurd hnext hreturns
  · rw [hnext] at hinv
    exact absurd hinv id

/-! ### A run of a worker -/

/-- Between two events. -/
def LoopState.isRunning : LoopState → Bool
  | .running .. => true
  | _ => false

/-- The calls made for the connection `id`. -/
def callsOf (id : ConnId) (outs : List (Option (ConnId × Turn))) : List Sys :=
  (turnsOf id outs).flatMap Turn.calls

/-- **Nothing is left behind** between two events: only the descriptors `fds` and connections are
open, and every connection is uncorked. -/
structure Tidy (fds : List ℤ) (w : Worker) (outs : List (Option (ConnId × Turn))) : Prop where
  files : ∀ fd, w.table fd = some .other → fd ∈ fds
  uncorked : ∀ a o, w.heap a = some o → corkAfter o.conn.fd false (callsOf o.id outs) = false
  silent : ∀ id ∉ w.got, callsOf id outs = []

theorem Tidy.start (fds : List ℤ) : Tidy fds (.start fds) [] where
  files fd h := by
    by_contra hmem
    rw [show (Worker.start fds).table fd = none from if_neg hmem] at h
    exact absurd h (by simp)
  uncorked _ _ _ := rfl
  silent _ _ := rfl

theorem callsOf_append (id : ConnId) (outs : List (Option (ConnId × Turn)))
    (out : Option (ConnId × Turn)) :
    callsOf id (outs ++ [out]) =
      callsOf id outs ++ (turn? id out).toList.flatMap Turn.calls := by
  rw [callsOf, turnsOf, List.filterMap_append, List.flatMap_append, callsOf, turnsOf]
  rcases hturn : turn? id out with - | t <;> simp [hturn]

variable {w w' : Worker} {receiving receiving' : Bool} {pending pending' : List Ready}
  {i : LoopInput} {out : Option (ConnId × Turn)} {outs : List (Option (ConnId × Turn))}

/-- No step opens a document file that is still open behind it. -/
theorem files_step
    (h : LoopStep cfg w receiving pending i out (.running w' receiving' pending'))
    (hfiles : ∀ fd, w.table fd = some .other → fd ∈ fds) :
    ∀ fd, w'.table fd = some .other → fd ∈ fds := by
  intro fd hfd
  cases h with
  | wait | enter => exact hfiles fd hfd
  | recv pending m calloc added hfree r hr =>
    cases hr with
    | stop | refused => exact hfiles fd hfd
    | adopted hpos a ha =>
      rw [adopt_table, update_apply] at hfd
      split at hfd
      · exact absurd hfd (by simp)
      · exact hfiles fd hfd
  | kept a flags pending k o ho c hc hkeep => exact hfiles fd hfd
  | closed a flags pending k o ho =>
    exact hfiles fd (update_none_eq_some.1 hfd).2

/-- A live connection after a step is uncorked if it was before. -/
theorem uncorked_step (hs : Sound fds w pending) (hnew : NewIds w [i])
    (hstep : (loopMachine cfg).step (.running w receiving pending) i =
      some (out, .running w' receiving' pending'))
    (ht : Tidy fds w outs) {a : Addr} {o : Obj} (ho : w'.heap a = some o) :
    corkAfter o.conn.fd false (callsOf o.id (outs ++ [out])) = false := by
  have hcases := loop_cases hs.inv hs.pending hstep
  have hs' := (sound_running hs hnew hcases).1
  rw [callsOf_append, corkAfter_append]
  rcases allocated_step hcases rfl ho with ⟨hget, -⟩ | ⟨a₀, o₀, ho₀, hid⟩
  · -- it has just come in
    have hgot : o.id ∉ w.got := hnew.gets o.id hget
    have hlive := hs.id_ne_of_not_got hgot
    obtain ⟨-, hturn⟩ := event?_eq_none hcases fun b p hp heq ↦ absurd heq (hlive b p hp)
    rw [ht.silent o.id hgot, hturn]
    rfl
  · have huncorked := ht.uncorked a₀ o₀ ho₀
    rw [← hid]
    rcases live_step hs ho₀ hstep with ⟨-, hturn, hkeep⟩ | ⟨e, -, hturn, -, hnext⟩
    · -- an event of another connection
      have ho₁ := hkeep w' rfl
      obtain ⟨rfl, rfl⟩ := hs'.eq_of_id ho₁ ho hid
      rw [huncorked, hturn]
      rfl
    · have hinv := (hs.inv.holds a₀ o₀ ho₀).2
      rcases hnext with ⟨c, p, hc, hfd, heq⟩ | ⟨p, -, heq⟩ | ⟨w₁, -, heq⟩
      · obtain ⟨rfl, -, -⟩ := LoopState.running.inj heq
        have ho₁ : (w.put a₀ ⟨o₀.id, c⟩).heap a₀ = some ⟨o₀.id, c⟩ := update_self ..
        obtain ⟨rfl, rfl⟩ := hs'.eq_of_id ho₁ ho hid
        rw [hfd, huncorked, hturn]
        simpa using uncorked_clientEvent hinv e hc
      · -- it was closed: nothing with its identity is allocated any more
        obtain ⟨rfl, -, -⟩ := LoopState.running.inj heq
        obtain ⟨hab, ho⟩ := update_none_eq_some.1 ho
        exact absurd (hs.id_injective ho ho₀ hid.symm) hab
      · exact absurd heq (by simp)

/-- **A step leaves nothing behind.** -/
theorem tidy_step (hs : Sound fds w pending) (hnew : NewIds w [i])
    (hstep : (loopMachine cfg).step (.running w receiving pending) i =
      some (out, .running w' receiving' pending')) (ht : Tidy fds w outs) :
    Tidy fds w' (outs ++ [out]) where
  files := files_step (loop_cases hs.inv hs.pending hstep) ht.files
  uncorked _ _ ho := uncorked_step hs hnew hstep ht ho
  silent id hid := by
    have hcases := loop_cases hs.inv hs.pending hstep
    obtain ⟨w₁, hw₁, -, hgot⟩ := ledger_loopStep hs.inv hs.ledger hnew.gets hcases
    obtain rfl := Option.some.inj hw₁
    have hold : id ∉ w.got := fun h ↦ hid (hgot ▸ List.mem_append_left _ h)
    have hlive := hs.id_ne_of_not_got hold
    obtain ⟨-, hturn⟩ := event?_eq_none hcases fun b p hp heq ↦ absurd heq (hlive b p hp)
    rw [callsOf_append, ht.silent id hold, hturn]
    rfl

/-- **Nothing is left behind in any run** whose connections are received once each. -/
theorem tidy_run {is : List LoopInput}
    (hrun : (loopMachine cfg).run (.running (.start fds) false []) is =
      some (outs, .running w receiving pending))
    (hnew : (is.flatMap LoopInput.gets).Nodup) : Tidy fds w outs := by
  have hall := run_history (M := loopMachine cfg)
    (P := fun is outs s ↦ (is.flatMap LoopInput.gets).Nodup → ∀ w receiving pending,
      s = .running w receiving pending →
        Sound fds w pending ∧ w.got = is.flatMap LoopInput.gets ∧ Tidy fds w outs)
    (fun _ w receiving pending heq ↦ by
      obtain ⟨rfl, rfl, rfl⟩ := LoopState.running.inj heq
      exact ⟨.start fds, rfl, .start fds⟩)
    (fun is outs s i out s' ih hstep hnodup w' receiving' pending' heq ↦ by
      subst heq
      rw [List.flatMap_append, List.nodup_append] at hnodup
      cases s with
      | running w receiving pending =>
        obtain ⟨hs, hgot, ht⟩ := ih hnodup.1 w receiving pending rfl
        have hnew : NewIds w [i] := by
          refine ⟨hnodup.2.1, fun x hx hmem ↦ ?_⟩
          rw [hgot] at hmem
          exact hnodup.2.2 x hmem x hx rfl
        have hcases := loop_cases hs.inv hs.pending hstep
        obtain ⟨w₁, hw₁, -, hgot₁⟩ := ledger_loopStep hs.inv hs.ledger hnew.gets hcases
        obtain rfl := Option.some.inj hw₁
        refine ⟨(sound_running hs hnew hcases).1, ?_, tidy_step hs hnew hstep ht⟩
        rw [hgot₁, hgot, List.flatMap_append]
        simp
      | sending | fault => exact absurd hstep (by simp [loopMachine]))
    hrun
  exact (hall hnew w receiving pending rfl).2.2

/-- **What is taken is released on every exit.** Each call of `http_send_static_file` that returns
closes the file it opened, once, and nothing else, with the cork off if it returns `0`; a call that
leaves the cork on returns `-1`, and a call of `handle_read` that leaves it on closes the
connection. So between the events of a run no document file is open and every registered connection
is uncorked. -/
theorem file_and_cork_released (cfg : ForgeCfg) (fds : List ℤ) (is : List LoopInput)
    (outs : List (Option (ConnId × Turn))) (w : Worker) (receiving : Bool) (pending : List Ready)
    (hrun : (loopMachine cfg).run (.running (.start fds) false []) is =
      some (outs, .running w receiving pending))
    (hnew : (is.flatMap LoopInput.gets).Nodup) :
    (∀ k fd docRoot urlPath keepAlive rc,
      (httpSendStaticFile k fd docRoot urlPath keepAlive).rc = some rc →
        Released fd (httpSendStaticFile k fd docRoot urlPath keepAlive).calls rc) ∧
      (∀ k c, ConnInv c → (handleRead cfg k c).next ≠ .sending →
        corkAfter c.fd false (handleRead cfg k c).calls = true →
          (handleRead cfg k c).next = .closed) ∧
      (∀ fd, w.table fd = some .other → fd ∈ fds) ∧
      ∀ a o, w.heap a = some o → corkAfter o.conn.fd false (callsOf o.id outs) = false :=
  ⟨fun _ _ _ _ _ _ ↦ released, fun k _ hc ↦ closed_of_corked hc k, (tidy_run hrun hnew).files,
    (tidy_run hrun hnew).uncorked⟩

/-- A worker that has answered a request and kept the connection. -/
theorem file_and_cork_released_get :
    ∃ outs w receiving pending, (loopMachine {}).run (.running (.start [3, 4]) false [])
        [.wait [.control], .enter, .recv (.message (some ⟨true, true, 5, 0⟩)) (some 64) true,
          .recv .failed none false, .wait [.client 5 ⟨true, false, false, false⟩],
          .client (.serving (ascii "GET / HTTP/1.1\r\n\r\n"))] =
        some (outs, .running w receiving pending) ∧
      (∀ fd, w.table fd = some .other → fd ∈ [3, 4]) ∧
      ∀ a o, w.heap a = some o → corkAfter o.conn.fd false (callsOf o.id outs) = false := by
  have hrunning : (((loopMachine {}).run (.running (.start [3, 4]) false [])
      [.wait [.control], .enter, .recv (.message (some ⟨true, true, 5, 0⟩)) (some 64) true,
        .recv .failed none false, .wait [.client 5 ⟨true, false, false, false⟩],
        .client (.serving (ascii "GET / HTTP/1.1\r\n\r\n"))]).map fun r ↦ r.2.isRunning) =
          some true := by decide +kernel
  obtain ⟨⟨outs, s⟩, hrun, hs⟩ := Option.map_eq_some_iff.1 hrunning
  cases s with
  | running w receiving pending =>
    obtain ⟨-, -, hfiles, hcork⟩ :=
      file_and_cork_released {} [3, 4] _ outs w receiving pending hrun (by decide)
    exact ⟨outs, w, receiving, pending, hrun, hfiles, hcork⟩
  | sending | fault => exact absurd hs (by simp [LoopState.isRunning])

end ForgeServer
