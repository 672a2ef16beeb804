import ForgeServer.Master.RoundRobin

/-!
# The owner of a connection

An accepted connection passes from the master to a control socket to a worker. `LinkInv` ties the
log of what was sent to a worker to what the worker has got and what is still queued for it; with
the ledger of the worker and the residues of `MasterInv` it gives `one_owner`: on every run,
whatever the order of the steps, no connection is referenced from two places, none is received twice
or out of order, and each one received is live or was closed once.
-/

namespace ForgeServer

open Function

/-- The resources of a worker that has not exited. -/
def Link.worker? (l : Link) : Option Worker := l.loop.bind LoopState.worker?

/-- **The invariant of a worker and its control socket.** -/
structure LinkInv (l : Link) : Prop where
  /-- What was sent was sent in the order of the dispatches. -/
  sorted : l.sent.Pairwise (· < ·)
  lost : ∀ x ∈ l.lost, x ∈ l.sent
  /-- What was sent and not lost on the way is received or queued, in this order. -/
  running : ∀ st, l.loop = some st → st.Inv ∧ ∃ w, st.worker? = some w ∧ Ledger w ∧
    l.sent.filter (· ∉ l.lost) = w.got ++ queuedIds l.queue
  exited : l.loop = none → l.queue = []

namespace LinkInv

variable {cfg : ForgeCfg} {l : Link}

theorem nodup (h : LinkInv l) : l.sent.Nodup := h.sorted.imp fun hlt ↦ Nat.ne_of_lt hlt

theorem nodup_received (h : LinkInv l) {w : Worker}
    (heq : l.sent.filter (· ∉ l.lost) = w.got ++ queuedIds l.queue) :
    (w.got ++ queuedIds l.queue).Nodup :=
  heq ▸ h.nodup.filter _

theorem push (h : LinkInv l) {id : ConnId} (hlt : ∀ x ∈ l.sent, x < id) (hloop : l.loop.isSome) :
    LinkInv (l.push id) where
  sorted := List.pairwise_append.2 ⟨h.sorted, List.pairwise_singleton _ _, fun x hx y hy ↦ by
    rw [List.mem_singleton.1 hy]
    exact hlt x hx⟩
  lost x hx := List.mem_append_left _ (h.lost x hx)
  running st hst := by
    obtain ⟨hinv, w, hw, hl, heq⟩ := h.running st hst
    have hnew : id ∉ l.lost := fun hmem ↦ Nat.lt_irrefl _ (hlt id (h.lost id hmem))
    refine ⟨hinv, w, hw, hl, ?_⟩
    have hid : [id].filter (· ∉ l.lost) = [id] := by simp [hnew]
    show (l.sent ++ [id]).filter (· ∉ l.lost) = w.got ++ queuedIds (l.queue ++ [.rights id])
    rw [List.filter_append, heq, hid, queuedIds_append, queuedIds_rights, List.append_assoc]
  exited hnone := by
    have hnone : l.loop = none := hnone
    rw [hnone] at hloop
    exact absurd hloop (by simp)

theorem ill (h : LinkInv l) {cmsg : Option Cmsg}
    (hill : ∀ c ∈ cmsg, (c.solSocket && c.scmRights) = false) (hloop : l.loop.isSome) :
    LinkInv { l with queue := l.queue ++ [.ill cmsg hill] } where
  sorted := h.sorted
  lost := h.lost
  running st hst := by
    obtain ⟨hinv, w, hw, hl, heq⟩ := h.running st hst
    refine ⟨hinv, w, hw, hl, ?_⟩
    rw [queuedIds_append, queuedIds_ill, List.append_nil]
    exact heq
  exited hnone := by
    have hnone : l.loop = none := hnone
    rw [hnone] at hloop
    exact absurd hloop (by simp)

/-- What is left of a list without repetitions when a part of it is taken out. -/
theorem filter_not_mem_append {xs ys zs : List ConnId} (h : (xs ++ ys ++ zs).Nodup) :
    (xs ++ ys ++ zs).filter (fun x ↦ x ∉ ys) = xs ++ zs := by
  obtain ⟨hxy, -, hdisj⟩ := List.nodup_append.1 h
  obtain ⟨-, -, hdisj'⟩ := List.nodup_append.1 hxy
  have hxs : xs.filter (fun x ↦ x ∉ ys) = xs := by
    refine List.filter_eq_self.2 fun x hx ↦ decide_eq_true fun hy ↦ ?_
    exact hdisj' x hx x hy rfl
  have hys : ys.filter (fun x ↦ x ∉ ys) = [] := by simp
  have hzs : zs.filter (fun x ↦ x ∉ ys) = zs := by
    refine List.filter_eq_self.2 fun x hx ↦ decide_eq_true fun hy ↦ ?_
    exact hdisj x (List.mem_append_right _ hy) x hx rfl
  rw [List.filter_append, List.filter_append, hxs, hys, hzs, List.append_nil]

theorem recv (h : LinkInv l) {r : Receipt} {calloc : Option Addr} {added : Bool}
    {st st' : LoopState} (hloop : l.loop = some st) {m : RecvMsg} {queue : List Datagram}
    {lost : List ConnId} (hdeliver : deliver r l.queue = some (m, queue, lost))
    {out : Option (ConnId × Turn)}
    (hstep : (loopMachine cfg).step st (.recv m calloc added) = some (out, st')) :
    LinkInv ⟨some st', queue, l.sent, l.lost ++ lost⟩ := by
  obtain ⟨hinv, w, hw, hl, heq⟩ := h.running st hloop
  have hqueue := queuedIds_deliver hdeliver
  have hnodup := h.nodup_received heq
  rw [hqueue, ← List.append_assoc, ← List.append_assoc] at hnodup heq
  have hnew : ∀ id ∈ (LoopInput.recv m calloc added).gets, id ∉ w.got := by
    intro id hid hgot
    have hgm := (List.nodup_append.1 (List.nodup_append.1 hnodup).1).1
    exact (List.nodup_append.1 hgm).2.2 id hgot id hid rfl
  obtain ⟨hinv', w', hw', hl', hgot⟩ := ledger_loop_step hinv hw hl hnew hstep
  refine ⟨h.sorted, fun x hx ↦ ?_, fun st₁ hst₁ ↦ ?_, fun hnone ↦ absurd hnone (by simp)⟩
  · rcases List.mem_append.1 hx with hx | hx
    · exact h.lost x hx
    · have hmem : x ∈ l.sent.filter (· ∉ l.lost) := by
        rw [heq]
        exact List.mem_append_left _ (List.mem_append_right _ hx)
      exact List.mem_of_mem_filter hmem
  · obtain rfl := Option.some.inj hst₁
    refine ⟨hinv', w', hw', hl', ?_⟩
    have hsplit : l.sent.filter (· ∉ l.lost ++ lost) =
        (l.sent.filter (· ∉ l.lost)).filter (fun x ↦ x ∉ lost) := by
      rw [List.filter_filter]
      refine List.filter_congr fun x _ ↦ ?_
      simp [and_comm]
    have hgets : (LoopInput.recv m calloc added).gets = m.gets := rfl
    show l.sent.filter (· ∉ l.lost ++ lost) = w'.got ++ queuedIds queue
    rw [hsplit, heq, filter_not_mem_append hnodup, hgot, hgets]

theorem worker (h : LinkInv l) {i : LoopInput} (hi : i.gets = []) {st st' : LoopState}
    (hloop : l.loop = some st) {out : Option (ConnId × Turn)}
    (hstep : (loopMachine cfg).step st i = some (out, st')) :
    LinkInv { l with loop := some st' } where
  sorted := h.sorted
  lost := h.lost
  running st₁ hst₁ := by
    obtain rfl := Option.some.inj hst₁
    obtain ⟨hinv, w, hw, hl, heq⟩ := h.running st hloop
    obtain ⟨hinv', w', hw', hl', hgot⟩ :=
      ledger_loop_step hinv hw hl (by rw [hi]; exact fun _ hid ↦ absurd hid List.not_mem_nil) hstep
    rw [hi, List.append_nil] at hgot
    exact ⟨hinv', w', hw', hl', by rw [hgot]; exact heq⟩
  exited hnone := absurd hnone (by simp)

theorem exit (h : LinkInv l) : LinkInv { l with loop := none, queue := [] } :=
  ⟨h.sorted, h.lost, fun _ hst ↦ absurd hst (by simp), fun _ ↦ rfl⟩

end LinkInv

/-! ### Every run -/

variable {cfg : ForgeCfg} {cap : ℕ} {s s' : System}

/-- **The invariant of the system.** -/
structure System.Inv (cfg : ForgeCfg) (s : System) : Prop where
  master : MasterInv cfg s
  link : ∀ n, LinkInv (s.link n)

theorem System.Inv.start (cfg : ForgeCfg) (fds : List ℤ) : System.Inv cfg (.start cfg fds) where
  master := .start cfg fds
  link n := by
    refine ⟨List.Pairwise.nil, fun _ hx ↦ absurd hx List.not_mem_nil, fun st hst ↦ ?_, fun _ ↦ rfl⟩
    simp only [System.start] at hst
    split at hst
    · obtain rfl := Option.some.inj hst
      exact ⟨⟨.start fds, .nil⟩, _, rfl, .start fds, rfl⟩
    · exact absurd hst (by simp)

/-- One worker and its control socket change. -/
theorem link_setLink (hs : ∀ n, LinkInv (s.link n)) {n : ℕ} {l : Link} (hl : LinkInv l) (m : ℕ) :
    LinkInv ((s.setLink n l).link m) := by
  by_cases hm : m = n
  · rw [hm, setLink_link, update_self]
    exact hl
  · rw [setLink_link, update_of_ne hm]
    exact hs m

theorem system_inv_step (hs : s.Inv cfg) {i : SysInput} {out : SysOutput}
    (h : SysStep cfg cap s i out s') : s'.Inv cfg := by
  refine ⟨masterInv_step hs.master h, ?_⟩
  cases h with
  | signal | idle | accepted | unopened | rejected | closed => exact hs.link
  | queued rest cfd target hpc id hcfd htakes =>
    obtain ⟨-, -, -, hlt⟩ := inHand_client hs.master.inHand hpc hcfd
    exact link_setLink hs.link ((hs.link target).push (hlt target) htakes.1)
  | datagram n cmsg hill hloop => exact link_setLink hs.link ((hs.link n).ill hill hloop)
  | recv n r calloc added st st' hloop m queue lost hdeliver out hstep =>
    exact link_setLink hs.link ((hs.link n).recv hloop hdeliver hstep)
  | worker n i hi st st' hloop out hstep =>
    exact link_setLink hs.link ((hs.link n).worker hi hloop hstep)
  | exit n => exact link_setLink hs.link (hs.link n).exit

/-- Where a reference to a connection can be, besides the master. -/
inductive Owner
  | queue (n : ℕ)
  | worker (n : ℕ)

/-- A control socket refers to what is queued in it, a worker to what it has open. -/
def System.References (s : System) : Owner → ConnId → Prop
  | .queue n, id => .rights id ∈ (s.link n).queue
  | .worker n, id => ∃ w fd, (s.link n).worker? = some w ∧ w.table fd = some (.conn id)

/-- **Exact ownership.** -/
structure System.Owned (s : System) : Prop where
  /-- The master holds a client descriptor only while it dispatches. -/
  master : s.pc.Idle → ∀ fd, s.clients fd = none
  /-- No connection is referenced from two control sockets or workers. -/
  one : ∀ id o o', s.References o id → s.References o' id → o = o'
  /-- None is twice in a control socket. -/
  queued_once : ∀ n, (queuedIds (s.link n).queue).Nodup
  /-- None is open twice in a worker. -/
  open_once : ∀ n w, (s.link n).worker? = some w → ∀ fd fd' id,
    w.table fd = some (.conn id) → w.table fd' = some (.conn id) → fd = fd'
  /-- A worker has received what was sent to it and was neither lost nor is queued, in the order of
  the dispatches. -/
  in_order : ∀ n, (s.link n).sent.Pairwise (· < ·) ∧ ∀ w, (s.link n).worker? = some w →
    (s.link n).sent.filter (· ∉ (s.link n).lost) = w.got ++ queuedIds (s.link n).queue
  /-- None is received twice. -/
  received_once : ∀ n w, (s.link n).worker? = some w → w.got.Nodup
  /-- What was received is live or was closed once. -/
  settled : ∀ n w, (s.link n).worker? = some w → ∀ id ∈ w.got, w.LiveOnce id ∨ w.ClosedOnce id
  no_fault : ∀ n, (s.link n).loop ≠ some .fault

/-- What the invariant of a worker and its control socket says of the worker's resources. -/
theorem LinkInv.of_worker {l : Link} (h : LinkInv l) {w : Worker} (hw : l.worker? = some w) :
    WorkerInv w ∧ Ledger w ∧ l.sent.filter (· ∉ l.lost) = w.got ++ queuedIds l.queue := by
  obtain ⟨st, hst, hw⟩ := Option.bind_eq_some_iff.1 hw
  obtain ⟨hinv, w', hw', hl, heq⟩ := h.running st hst
  rw [hw, Option.some.injEq] at hw'
  subst hw'
  exact ⟨hinv.workerInv hw, hl, heq⟩

/-- What a worker has open was sent to it, and is not queued for it. -/
theorem LinkInv.mem_of_open {l : Link} (h : LinkInv l) {w : Worker} (hw : l.worker? = some w)
    {fd : ℤ} {id : ConnId} (hfd : w.table fd = some (.conn id)) :
    id ∈ l.sent ∧ id ∉ queuedIds l.queue := by
  obtain ⟨-, hl, heq⟩ := h.of_worker hw
  have hgot := (hl.opened fd id hfd).1
  refine ⟨?_, fun hq ↦ (List.nodup_append.1 (h.nodup_received heq)).2.2 id hgot id hq rfl⟩
  have hmem : id ∈ l.sent.filter (· ∉ l.lost) := heq ▸ List.mem_append_left _ hgot
  exact List.mem_of_mem_filter hmem

theorem System.Inv.owned (hs : s.Inv cfg) : s.Owned where
  master hidle fd := by
    rw [(inHand_of_idle hidle).1 hs.master.inHand]
  one id o o' ho ho' := by
    have hqueue : ∀ n, s.References (.queue n) id → id % cfg.workerCount = n :=
      fun n h ↦ (hs.master.sent n id (hs.master.queued n id (mem_queuedIds.2 h))).2
    have hworker : ∀ n, s.References (.worker n) id → id % cfg.workerCount = n := by
      rintro n ⟨w, fd, hw, hfd⟩
      exact (hs.master.sent n id ((hs.link n).mem_of_open hw hfd).1).2
    have hboth : ∀ n, s.References (.queue n) id → ¬ s.References (.worker n) id := by
      rintro n hq ⟨w, fd, hw, hfd⟩
      exact ((hs.link n).mem_of_open hw hfd).2 (mem_queuedIds.2 hq)
    -- every reference is at worker `id % workers`, and there not both queued and open
    rcases o with n | n <;> rcases o' with m | m
    · rw [← hqueue n ho, hqueue m ho']
    · obtain rfl : n = m := (hqueue n ho).symm.trans (hworker m ho')
      exact absurd ho' (hboth n ho)
    · obtain rfl : n = m := (hworker n ho).symm.trans (hqueue m ho')
      exact absurd ho (hboth n ho')
    · rw [← hworker n ho, hworker m ho']
  queued_once n := by
    rcases hloop : (s.link n).loop with - | st
    · rw [(hs.link n).exited hloop]
      exact List.nodup_nil
    · obtain ⟨-, w, -, -, heq⟩ := (hs.link n).running st hloop
      exact (List.nodup_append.1 ((hs.link n).nodup_received heq)).2.1
  open_once n w hw := ((hs.link n).of_worker hw).2.1.unique
  in_order n := ⟨(hs.link n).sorted, fun w hw ↦ ((hs.link n).of_worker hw).2.2⟩
  received_once n w hw := ((hs.link n).of_worker hw).2.1.got_nodup
  settled n w hw id hid := by
    obtain ⟨hinv, hl, -⟩ := (hs.link n).of_worker hw
    exact hl.settled hinv hid
  no_fault n hfault := ((hs.link n).running _ hfault).1

/-- **Every accepted connection has one owner**, on every run. -/
theorem one_owner (cfg : ForgeCfg) (cap : ℕ) (fds : List ℤ) (is : List SysInput)
    (outs : List SysOutput) (s : System)
    (hrun : (forgeMachine cfg cap).run (.start cfg fds) is = some (outs, s)) : s.Owned :=
  (Machine.run_invariant (fun _ _ _ _ hs hstep ↦ system_inv_step hs (sys_cases hstep))
    (System.Inv.start cfg fds) hrun).owned

/-- Two connections for two workers; one gets no memory, the other is registered. -/
theorem one_owner_two :
    ∃ outs s, (forgeMachine {} 10).run (.start {} [3, 4])
        [.master (.epollWait (.events 1)), .master (.accept4 (.client 9)), .master (.sendFd false),
          .worker 0 (.wait [.control]), .master .close, .worker 0 .enter,
          .recv 0 (.installed 5) none true, .master (.accept4 (.client 9)), .master (.sendFd false),
          .worker 1 (.wait [.control]), .worker 1 .enter, .recv 1 (.installed 5) (some 64) true,
          .master .close] = some (outs, s) ∧ s.Owned := by
  have hrun : ∃ outs s, (forgeMachine {} 10).run (.start {} [3, 4])
      [.master (.epollWait (.events 1)), .master (.accept4 (.client 9)), .master (.sendFd false),
        .worker 0 (.wait [.control]), .master .close, .worker 0 .enter,
        .recv 0 (.installed 5) none true, .master (.accept4 (.client 9)), .master (.sendFd false),
        .worker 1 (.wait [.control]), .worker 1 .enter, .recv 1 (.installed 5) (some 64) true,
        .master .close] = some (outs, s) := ⟨_, _, rfl⟩
  obtain ⟨outs, s, hrun⟩ := hrun
  exact ⟨outs, s, hrun, one_owner {} 10 [3, 4] _ outs s hrun⟩

end ForgeServer
