import ForgeServer.Master.Dispatch

/-!
# Round robin

What the master has in hand at each point of its loop, and the cursor `next` as the number of
accepted connections modulo the number of workers (`MasterInv`). The `k`-th connection is offered to
worker `k % workers`, once: `dispatch_once` says what becomes of it, and that a failed
`forge_send_fd` is the end of it. `free_worker_not_offered` is a run on which another worker could
have taken it.
-/

namespace ForgeServer

open Function

/-- What the master has in hand, by where it is: while it dispatches one descriptor, at all other
times none. -/
def System.InHand (cfg : ForgeCfg) (s : System) : Prop :=
  match s.pc with
  | .dispatching _ cfd target => ∃ id, s.accepted = id + 1 ∧ target = id % cfg.workerCount ∧
      s.clients = update (fun _ ↦ none) cfd (some id) ∧ ∀ n, ∀ x ∈ (s.link n).sent, x < id
  | .closing _ cfd => ∃ id, s.accepted = id + 1 ∧ s.clients = update (fun _ ↦ none) cfd (some id)
  | _ => s.clients = fun _ ↦ none

/-- **The invariant of the dispatch.** -/
structure MasterInv (cfg : ForgeCfg) (s : System) : Prop where
  next : s.next = s.accepted % cfg.workerCount
  inHand : s.InHand cfg
  /-- What was sent to a worker was accepted for it. -/
  sent : ∀ n, ∀ x ∈ (s.link n).sent, x < s.accepted ∧ x % cfg.workerCount = n
  /-- What is in a queue was sent. -/
  queued : ∀ n, ∀ x ∈ queuedIds (s.link n).queue, x ∈ (s.link n).sent

variable {cfg : ForgeCfg} {cap : ℕ} {s s' : System}

theorem mem_queuedIds {queue : List Datagram} {id : ConnId} :
    id ∈ queuedIds queue ↔ .rights id ∈ queue := by
  rw [queuedIds, List.mem_filterMap]
  constructor
  · rintro ⟨d, hd, hid⟩
    cases d with
    | rights x =>
      obtain rfl := Option.some.inj hid
      exact hd
    | ill => exact absurd hid (by simp [Datagram.id?])
  · exact fun h ↦ ⟨_, h, rfl⟩

@[simp] theorem queuedIds_append (q₁ q₂ : List Datagram) :
    queuedIds (q₁ ++ q₂) = queuedIds q₁ ++ queuedIds q₂ := List.filterMap_append

@[simp] theorem queuedIds_rights (id : ConnId) : queuedIds [.rights id] = [id] := rfl

@[simp] theorem queuedIds_ill (cmsg : Option Cmsg)
    (h : ∀ c ∈ cmsg, (c.solSocket && c.scmRights) = false) : queuedIds [.ill cmsg h] = [] := rfl

theorem queuedIds_cons (d : Datagram) (queue : List Datagram) :
    queuedIds (d :: queue) = d.id?.toList ++ queuedIds queue := by
  cases d <;> rfl

/-- An ill-formed datagram brings no connection. -/
theorem gets_ill {cmsg : Option Cmsg} (h : ∀ c ∈ cmsg, (c.solSocket && c.scmRights) = false) :
    (RecvMsg.message cmsg).gets = [] := by
  rcases cmsg with - | c
  · rfl
  · have hor : (!c.solSocket || !c.scmRights) = true := by
      rw [← Bool.not_and, h c rfl, Bool.not_false]
    simp [RecvMsg.gets, forgeRecvFd, hor]

theorem gets_msg (fd : ℕ) (d : Datagram) : (d.msg fd).gets = d.id?.toList := by
  cases d with
  | rights id =>
    have hfd : ¬(fd : ℤ) < 0 := by omega
    simp [RecvMsg.gets, forgeRecvFd, Datagram.msg, Datagram.id?, RecvMsg.id, hfd]
  | ill cmsg h => exact gets_ill h

theorem gets_cut (d : Datagram) : d.cut.gets = [] := by
  cases d with
  | rights id => rfl
  | ill cmsg h => exact gets_ill h

/-- What is delivered, lost and left make up the queue. -/
theorem queuedIds_deliver {r : Receipt} {queue queue' : List Datagram} {m : RecvMsg}
    {lost : List ConnId} (h : deliver r queue = some (m, queue', lost)) :
    queuedIds queue = m.gets ++ lost ++ queuedIds queue' := by
  cases r with
  | failed =>
    simp only [deliver, Option.some.injEq, Prod.mk.injEq] at h
    obtain ⟨rfl, rfl, rfl⟩ := h
    rfl
  | installed fd =>
    rcases queue with - | ⟨d, queue⟩
    · exact absurd h (by simp [deliver])
    simp only [deliver, Option.some.injEq, Prod.mk.injEq] at h
    obtain ⟨rfl, rfl, rfl⟩ := h
    rw [queuedIds_cons, gets_msg, List.append_nil]
  | truncated =>
    rcases queue with - | ⟨d, queue⟩
    · exact absurd h (by simp [deliver])
    simp only [deliver, Option.some.injEq, Prod.mk.injEq] at h
    obtain ⟨rfl, rfl, rfl⟩ := h
    rw [queuedIds_cons, gets_cut, List.nil_append]

/-! ### Every run -/

section Fields

variable (s : System) (n : ℕ) (l : Link)

@[simp] theorem setLink_pc : (s.setLink n l).pc = s.pc := rfl

@[simp] theorem setLink_next : (s.setLink n l).next = s.next := rfl

@[simp] theorem setLink_clients : (s.setLink n l).clients = s.clients := rfl

@[simp] theorem setLink_accepted : (s.setLink n l).accepted = s.accepted := rfl

@[simp] theorem setLink_link : (s.setLink n l).link = update s.link n l := rfl

end Fields

/-- The logs of what was sent, with one worker in another state. -/
theorem setLink_sent {n : ℕ} {l : Link} (hsent : l.sent = (s.link n).sent) (m : ℕ) :
    ((s.setLink n l).link m).sent = (s.link m).sent := by
  by_cases hm : m = n
  · rw [hm, setLink_link, update_self, hsent]
  · rw [setLink_link, update_of_ne hm]

/-- A step of a worker or of its control socket. -/
theorem MasterInv.setLink (h : MasterInv cfg s) {n : ℕ} {l : Link}
    (hsent : l.sent = (s.link n).sent)
    (hqueue : ∀ x ∈ queuedIds l.queue, x ∈ queuedIds (s.link n).queue) :
    MasterInv cfg (s.setLink n l) where
  next := h.next
  inHand := by
    have hin := h.inHand
    unfold System.InHand at hin ⊢
    simp only [setLink_sent hsent]
    exact hin
  sent m := by
    rw [setLink_sent hsent]
    exact h.sent m
  queued m x hx := by
    rw [setLink_sent hsent]
    by_cases hm : m = n
    · subst hm
      rw [setLink_link, update_self] at hx
      exact h.queued m x (hqueue x hx)
    · rw [setLink_link, update_of_ne hm] at hx
      exact h.queued m x hx

/-- What was sent once one more reference is queued. -/
theorem mem_sent_push {target n : ℕ} {id x : ConnId} :
    x ∈ (update s.link target ((s.link target).push id) n).sent ↔
      x ∈ (s.link n).sent ∨ n = target ∧ x = id := by
  by_cases hn : n = target
  · subst hn
    simp [Link.push]
  · simp [hn]

/-- What is queued once one more reference is. -/
theorem mem_queued_push {target n : ℕ} {id x : ConnId} :
    x ∈ queuedIds (update s.link target ((s.link target).push id) n).queue ↔
      x ∈ queuedIds (s.link n).queue ∨ n = target ∧ x = id := by
  by_cases hn : n = target
  · subst hn
    simp [Link.push]
  · simp [hn]

theorem MasterInv.start (cfg : ForgeCfg) (fds : List ℤ) : MasterInv cfg (.start cfg fds) where
  next := (Nat.zero_mod _).symm
  inHand := rfl
  sent _ _ hx := absurd hx List.not_mem_nil
  queued _ _ hx := absurd hx List.not_mem_nil

/-- Where the master is not dispatching, it has nothing in hand. -/
theorem inHand_of_idle (hpc : s.pc.Idle) : s.InHand cfg ↔ s.clients = fun _ ↦ none := by
  unfold System.InHand
  split
  · rename_i h
    rw [h] at hpc
    exact absurd hpc id
  · rename_i h
    rw [h] at hpc
    exact absurd hpc id
  · exact Iff.rfl

theorem inHand_dispatching {rest target : ℕ} {cfd : ℤ} (h : s.InHand cfg)
    (hpc : s.pc = .dispatching rest cfd target) :
    ∃ id, s.accepted = id + 1 ∧ target = id % cfg.workerCount ∧
      s.clients = update (fun _ ↦ none) cfd (some id) ∧ ∀ n, ∀ x ∈ (s.link n).sent, x < id := by
  unfold System.InHand at h
  rw [hpc] at h
  exact h

/-- The connection in hand is the one that is open under its descriptor. -/
theorem inHand_client {rest target : ℕ} {cfd : ℤ} {id : ConnId} (h : s.InHand cfg)
    (hpc : s.pc = .dispatching rest cfd target) (hcfd : s.clients cfd = some id) :
    s.accepted = id + 1 ∧ target = id % cfg.workerCount ∧
      s.clients = update (fun _ ↦ none) cfd (some id) ∧ ∀ n, ∀ x ∈ (s.link n).sent, x < id := by
  obtain ⟨id', hinHand⟩ := inHand_dispatching h hpc
  rw [hinHand.2.2.1, update_self, Option.some.injEq] at hcfd
  exact hcfd ▸ hinHand

theorem inHand_closing {rest : ℕ} {cfd : ℤ} (h : s.InHand cfg) (hpc : s.pc = .closing rest cfd) :
    ∃ id, s.accepted = id + 1 ∧ s.clients = update (fun _ ↦ none) cfd (some id) := by
  unfold System.InHand at h
  rw [hpc] at h
  exact h

/-- **A step keeps the invariant.** -/
theorem masterInv_step (hs : MasterInv cfg s) {i : SysInput} {out : SysOutput}
    (h : SysStep cfg cap s i out s') : MasterInv cfg s' := by
  cases h with
  | signal => exact ⟨hs.next, hs.inHand, hs.sent, hs.queued⟩
  | idle i hpc pc hpc' =>
    exact ⟨hs.next, (inHand_of_idle hpc').2 ((inHand_of_idle hpc).1 hs.inHand), hs.sent, hs.queued⟩
  | accepted rest hpc cfd hcfd =>
    have hidle : s.pc.Idle := by rw [hpc]; trivial
    have hclients := (inHand_of_idle hidle).1 hs.inHand
    -- the connection in hand is the one with the number `s.accepted`, and `next` is its worker
    refine ⟨?_, ⟨s.accepted, rfl, hs.next, ?_, fun n x hx ↦ (hs.sent n x hx).1⟩,
      fun n x hx ↦ ⟨Nat.lt_succ_of_lt (hs.sent n x hx).1, (hs.sent n x hx).2⟩, hs.queued⟩
    · show (s.next + 1) % cfg.workerCount = _
      rw [hs.next, Nat.mod_add_mod]
    · show update s.clients cfd _ = _
      rw [hclients]
  | unopened rest cfd target hpc hcfd fails =>
    obtain ⟨id, hacc, -, hclients, -⟩ := inHand_dispatching hs.inHand hpc
    exact ⟨hs.next, ⟨id, hacc, hclients⟩, hs.sent, hs.queued⟩
  | queued rest cfd target hpc id hcfd htakes =>
    obtain ⟨hacc, htarget, hclients, -⟩ := inHand_client hs.inHand hpc hcfd
    refine ⟨hs.next, ⟨id, hacc, hclients⟩, fun n x hx ↦ ?_, fun n x hx ↦ ?_⟩
    · rcases mem_sent_push.1 hx with hx | ⟨rfl, rfl⟩
      · exact hs.sent n x hx
      · exact ⟨hacc ▸ Nat.lt_succ_self _, htarget.symm⟩
    · refine mem_sent_push.2 ?_
      exact (mem_queued_push.1 hx).imp (hs.queued n x) fun h ↦ h
  | rejected rest cfd target hpc id hcfd fails htakes =>
    obtain ⟨hacc, -, hclients, -⟩ := inHand_client hs.inHand hpc hcfd
    exact ⟨hs.next, ⟨id, hacc, hclients⟩, hs.sent, hs.queued⟩
  | closed rest cfd hpc =>
    obtain ⟨id, -, hclients⟩ := inHand_closing hs.inHand hpc
    refine ⟨hs.next, ?_, hs.sent, hs.queued⟩
    show update s.clients cfd none = _
    rw [hclients, update_idem, update_eq_self_iff]
  | datagram n cmsg hill hloop =>
    exact hs.setLink rfl fun x hx ↦ by
      rwa [queuedIds_append, queuedIds_ill, List.append_nil] at hx
  | recv n r calloc added st st' hloop m queue lost hdeliver out hstep =>
    refine hs.setLink rfl fun x hx ↦ ?_
    rw [queuedIds_deliver hdeliver]
    exact List.mem_append_right _ hx
  | worker n i hi st st' hloop out hstep => exact hs.setLink rfl fun x hx ↦ hx
  | exit n => exact hs.setLink rfl fun x hx ↦ absurd hx List.not_mem_nil

theorem reachable_masterInv {fds : List ℤ}
    (hs : (forgeMachine cfg cap).Reachable (.start cfg fds) s) : MasterInv cfg s :=
  hs.invariant (.start cfg fds) fun _ _ _ _ h hstep ↦ masterInv_step h (sys_cases hstep)

/-! ### One dispatch -/

/-- A connection that was accepted, is in no log of what was sent, and is not about to be sent. -/
structure System.Undelivered (s : System) (id : ConnId) : Prop where
  accepted : id < s.accepted
  sent : ∀ n, id ∉ (s.link n).sent
  inHand : ∀ rest cfd target, s.pc = .dispatching rest cfd target → s.clients cfd ≠ some id

theorem System.Undelivered.setLink {id : ConnId} (h : s.Undelivered id) {n : ℕ} {l : Link}
    (hsent : l.sent = (s.link n).sent) : (s.setLink n l).Undelivered id where
  accepted := h.accepted
  sent m := by
    rw [setLink_sent hsent]
    exact h.sent m
  inHand := h.inHand

/-- **There is no second attempt**: what was not delivered stays undelivered. -/
theorem undelivered_step {id : ConnId} (hs : s.Undelivered id) {i : SysInput} {out : SysOutput}
    (h : SysStep cfg cap s i out s') : s'.Undelivered id := by
  cases h with
  | signal => exact ⟨hs.accepted, hs.sent, hs.inHand⟩
  | idle i hpc pc hpc' =>
    refine ⟨hs.accepted, hs.sent, fun rest cfd target h ↦ ?_⟩
    have h : pc = .dispatching rest cfd target := h
    rw [h] at hpc'
    exact absurd hpc' (fun h ↦ h)
  | accepted rest hpc cfd hcfd =>
    refine ⟨Nat.lt_succ_of_lt hs.accepted, hs.sent, fun rest' cfd' target h ↦ ?_⟩
    obtain ⟨-, rfl, -⟩ := MasterPc.dispatching.inj h
    show update s.clients cfd _ cfd ≠ _
    rw [update_self]
    exact fun heq ↦ absurd (Option.some.inj heq) (Nat.ne_of_gt hs.accepted)
  | unopened | rejected => exact ⟨hs.accepted, hs.sent, fun _ _ _ h ↦ absurd h (by simp)⟩
  | queued rest cfd target hpc id' hcfd htakes =>
    -- what is sent now is in hand, so it is another connection
    have hne : id ≠ id' := fun heq ↦ hs.inHand rest cfd target hpc (heq ▸ hcfd)
    refine ⟨hs.accepted, fun n hmem ↦ ?_, fun _ _ _ h ↦ absurd h (by simp)⟩
    rcases mem_sent_push.1 hmem with hmem | ⟨-, heq⟩
    · exact hs.sent n hmem
    · exact hne heq
  | closed => exact ⟨hs.accepted, hs.sent, fun _ _ _ h ↦ absurd h (by simp)⟩
  | datagram | recv | worker | exit => exact hs.setLink rfl

/-- The master closes what it has in hand after `forge_send_fd`, and has nothing in hand then. -/
theorem closing_closes (hs : MasterInv cfg s) {rest : ℕ} {cfd : ℤ}
    (hpc : s.pc = .closing rest cfd) :
    ∃ s', (forgeMachine cfg cap).step s (.master .close) = some (.quiet, s') ∧
      ∀ fd, s'.clients fd = none := by
  obtain ⟨id, -, hclients⟩ := inHand_closing hs.inHand hpc
  refine ⟨_, by simp only [forgeMachine, System.step, System.masterStep, hpc]; rfl, fun fd ↦ ?_⟩
  show update s.clients cfd none fd = none
  rw [hclients, update_idem]
  by_cases hfd : fd = cfd
  · rw [hfd, update_self]
  · rw [update_of_ne hfd]

/-- **A connection is offered once**, the `k`-th accepted one to worker `k % workers`: it is queued
there if that worker runs and has room, and else it is in no queue ever after, whatever the other
workers could take. Either way the master closes its descriptor next. -/
theorem dispatch_once (cfg : ForgeCfg) (cap : ℕ) (fds : List ℤ)
    (hs : (forgeMachine cfg cap).Reachable (.start cfg fds) s) {out : SysOutput}
    (h : (forgeMachine cfg cap).step s (.master (.sendFd false)) = some (out, s')) :
    ∃ id, s.accepted = id + 1 ∧
      (∃ s₂, (forgeMachine cfg cap).step s' (.master .close) = some (.quiet, s₂) ∧
        ∀ fd, s₂.clients fd = none) ∧
      if (s.link (id % cfg.workerCount)).Takes cap then
        (s'.link (id % cfg.workerCount)).queue =
            (s.link (id % cfg.workerCount)).queue ++ [.rights id] ∧
          ∀ n, n ≠ id % cfg.workerCount → s'.link n = s.link n
      else
        s'.link = s.link ∧ ∀ is outs s₂, (forgeMachine cfg cap).run s' is = some (outs, s₂) →
          ∀ n, .rights id ∉ (s₂.link n).queue := by
  have hinv := reachable_masterInv hs
  have hinv' := reachable_masterInv (hs.step h)
  cases sys_cases h with
  | idle _ hpc pc hpc' =>
    simp only [forgeMachine, System.step, System.masterStep] at h
    split at h
    · rename_i hpc''
      rw [hpc''] at hpc
      exact absurd hpc (fun h ↦ h)
    · exact absurd h (by simp)
  | unopened rest cfd target hpc hcfd =>
    obtain ⟨id, -, -, hclients, -⟩ := inHand_dispatching hinv.inHand hpc
    rw [hclients, update_self] at hcfd
    exact absurd hcfd (by simp)
  | queued rest cfd target hpc id hcfd htakes =>
    obtain ⟨hacc, rfl, -, -⟩ := inHand_client hinv.inHand hpc hcfd
    refine ⟨id, hacc, closing_closes hinv' rfl, ?_⟩
    rw [if_pos htakes]
    exact ⟨by simp [Link.push], fun n hn ↦ update_of_ne hn _ _⟩
  | rejected rest cfd target hpc id hcfd _ htakes =>
    obtain ⟨hacc, rfl, -, hlt⟩ := inHand_client hinv.inHand hpc hcfd
    refine ⟨id, hacc, closing_closes hinv' rfl, ?_⟩
    rw [if_neg fun ht ↦ absurd (htakes ht) (by simp)]
    refine ⟨rfl, fun is outs s₂ hrun n hmem ↦ ?_⟩
    -- it is in no log, and stays out of all of them whatever happens next
    have hun : ({ s with pc := .closing rest cfd } : System).Undelivered id :=
      ⟨hacc ▸ Nat.lt_succ_self _, fun n hx ↦ absurd (hlt n _ hx) (Nat.lt_irrefl _),
        fun _ _ _ h ↦ absurd h (by simp)⟩
    have hun₂ := Machine.run_invariant
      (fun _ _ _ _ hs hstep ↦ undelivered_step hs (sys_cases hstep)) hun hrun
    have hinv₂ := reachable_masterInv ((hs.step h).run hrun)
    exact hun₂.sent n (hinv₂.queued n _ (mem_queuedIds.2 hmem))

/-- The first connection is offered to worker 0, which has exited. -/
theorem dispatch_once_exited :
    ∃ outs s out s', (forgeMachine {} 10).run (.start {} [3, 4])
        [.exit 0, .master (.epollWait (.events 1)), .master (.accept4 (.client 9))] =
          some (outs, s) ∧
      (forgeMachine {} 10).step s (.master (.sendFd false)) = some (out, s') ∧
      ∃ id, s.accepted = id + 1 ∧
        (∃ s₂, (forgeMachine {} 10).step s' (.master .close) = some (.quiet, s₂) ∧
          ∀ fd, s₂.clients fd = none) ∧
        if (s.link (id % ({} : ForgeCfg).workerCount)).Takes 10 then
          (s'.link (id % ({} : ForgeCfg).workerCount)).queue =
              (s.link (id % ({} : ForgeCfg).workerCount)).queue ++ [.rights id] ∧
            ∀ n, n ≠ id % ({} : ForgeCfg).workerCount → s'.link n = s.link n
        else
          s'.link = s.link ∧ ∀ is outs s₂, (forgeMachine {} 10).run s' is = some (outs, s₂) →
            ∀ n, .rights id ∉ (s₂.link n).queue := by
  have hrun : ∃ outs s out s', (forgeMachine {} 10).run (.start {} [3, 4])
        [.exit 0, .master (.epollWait (.events 1)), .master (.accept4 (.client 9))] =
          some (outs, s) ∧
      (forgeMachine {} 10).step s (.master (.sendFd false)) = some (out, s') :=
    ⟨_, _, _, _, rfl, rfl⟩
  obtain ⟨outs, s, out, s', hrun, hstep⟩ := hrun
  exact ⟨outs, s, out, s', hrun, hstep, dispatch_once {} 10 [3, 4] ⟨_, _, hrun⟩ hstep⟩

/-- **A worker that could take the connection is not asked**: worker 0 has exited, worker 1 runs
with an empty queue, and the first connection is closed without having been in any queue. -/
theorem free_worker_not_offered :
    ∃ outs s out s', (forgeMachine {} 10).run (.start {} [3, 4])
        [.exit 0, .master (.epollWait (.events 1)), .master (.accept4 (.client 9))] =
          some (outs, s) ∧
      s.clients 9 = some 0 ∧ (s.link 1).Takes 10 ∧
      (forgeMachine {} 10).step s (.master (.sendFd false)) = some (out, s') ∧
      (∀ n, .rights 0 ∉ (s'.link n).queue) ∧
      ∃ s₂, (forgeMachine {} 10).step s' (.master .close) = some (.quiet, s₂) ∧
        s₂.clients 9 = none ∧ ∀ n, .rights 0 ∉ (s₂.link n).queue := by
  have hqueue : ∀ n, .rights 0 ∉ (update (System.start {} [3, 4]).link 0
      ⟨none, [], [], []⟩ n).queue := by
    intro n
    by_cases hn : n = 0
    · subst hn
      exact List.not_mem_nil
    · rw [update_of_ne hn]
      exact List.not_mem_nil
  exact ⟨_, _, _, _, rfl, rfl, by decide, rfl, hqueue, _, rfl, rfl, hqueue⟩

end ForgeServer
