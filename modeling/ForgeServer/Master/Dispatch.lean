import ForgeServer.Worker.Ledger

/-!
# The master, the control sockets and the workers

The whole server as a machine: the loop of `forge_master_run`, one control socket for each worker,
and the workers' own loops. One input is one system call of the master with its answer, one call of
`forge_recv_fd` in a worker with what follows it, one other step of a worker, or a worker's exit; so
a run is an interleaving of the master's and the workers' steps.

A control socket is a queue of datagrams that takes `cap` of them. `sendmsg` fails when the queue is
full or the worker has exited, and may fail besides; then it queues nothing. When it succeeds, a
reference to the socket of the client is queued, and what the master does with its own descriptor
afterwards does not matter to it. The exit of a worker drops the queue with all references in it.

An accepted connection is numbered by the count of connections accepted before it. The code keeps no
such count: it gives "the same connection" a meaning in three processes.
-/

namespace ForgeServer

open Function

/-! ### The control sockets -/

/-- A datagram in a control socket. -/
inductive Datagram
  /-- One that `forge_send_fd` has sent. -/
  | rights (id : ConnId)
  /-- An ill-formed one: the control message is missing, or is not one that passes a descriptor. -/
  | ill (cmsg : Option Cmsg) (h : ∀ c ∈ cmsg, (c.solSocket && c.scmRights) = false)

/-- What `recvmsg` returns for a datagram, with `fd` installed. -/
def Datagram.msg (fd : ℤ) : Datagram → RecvMsg
  | .rights id => .message (some ⟨true, true, fd, id⟩)
  | .ill cmsg _ => .message cmsg

/-- What `recvmsg` returns for a datagram when the worker has no descriptor number left: the
reference is dropped, and the control message with it. -/
def Datagram.cut : Datagram → RecvMsg
  | .rights _ => .message none
  | .ill cmsg _ => .message cmsg

/-- The connection a datagram refers to. -/
def Datagram.id? : Datagram → Option ConnId
  | .rights id => some id
  | .ill _ _ => none

/-- The connections that are referred to in a queue, in order. -/
def queuedIds (queue : List Datagram) : List ConnId := queue.filterMap Datagram.id?

/-- How a `recvmsg` of a worker goes. -/
inductive Receipt
  /-- It fails: the queue is empty, or for another reason. -/
  | failed
  /-- The first datagram is taken, and a descriptor installed. -/
  | installed (fd : ℕ)
  /-- The first datagram is taken, with no descriptor number left to install. -/
  | truncated

/-- What `recvmsg` returns, the rest of the queue, and the references that got lost. -/
def deliver : Receipt → List Datagram → Option (RecvMsg × List Datagram × List ConnId)
  | .failed, queue => some (.failed, queue, [])
  | .installed fd, d :: queue => some (d.msg fd, queue, [])
  | .truncated, d :: queue => some (d.cut, queue, d.id?.toList)
  | _, [] => none

/-- A worker with its control socket: its loop, `none` once it has exited, the datagrams it has not
received yet, and the connections that were sent to it and that were lost on the way, in order. -/
structure Link where
  loop : Option LoopState
  queue : List Datagram
  sent : List ConnId
  lost : List ConnId

/-- The worker could take a connection: it runs, and there is room in its queue. -/
def Link.Takes (cap : ℕ) (l : Link) : Prop := l.loop.isSome ∧ l.queue.length < cap

instance (cap : ℕ) (l : Link) : Decidable (l.Takes cap) := inferInstanceAs (Decidable (_ ∧ _))

/-- A reference to a connection is queued. -/
def Link.push (l : Link) (id : ConnId) : Link :=
  { l with queue := l.queue ++ [.rights id], sent := l.sent ++ [id] }

/-! ### The master -/

/-- `forge_send_fd`, from what `sendmsg` returns. -/
def forgeSendFd (n : ℤ) : ℤ := if n < 0 then -1 else 0

/-- Where the master is in its loop, with the events of the batch that are left. -/
inductive MasterPc
  /-- At the condition of the loop. -/
  | wait
  /-- In front of `accept4`. -/
  | accepting (rest : ℕ)
  /-- In front of `forge_send_fd`. -/
  | dispatching (rest : ℕ) (cfd : ℤ) (target : ℕ)
  /-- In front of the `close` that follows it. -/
  | closing (rest : ℕ) (cfd : ℤ)
  /-- Out of the loop. -/
  | stopped

/-- What `epoll_wait` returns to the master: only the listening socket is registered. -/
inductive WaitResult
  | interrupted
  | failed
  | events (n : ℕ)

/-- What `accept4` returns. -/
inductive AcceptResult
  | again
  | interrupted
  | failed
  | client (cfd : ℤ)

/-- The system calls of the master, and the signal that ends it. -/
inductive MasterInput
  | terminate
  | epollWait (r : WaitResult)
  | accept4 (r : AcceptResult)
  /-- `sendmsg`, which may fail for a reason of its own. -/
  | sendFd (fails : Bool)
  | close

/-- What happens in the system. -/
inductive SysInput
  | master (i : MasterInput)
  /-- An ill-formed datagram comes to a worker. -/
  | datagram (n : ℕ) (cmsg : Option Cmsg) (h : ∀ c ∈ cmsg, (c.solSocket && c.scmRights) = false)
  /-- A worker receives. -/
  | recv (n : ℕ) (r : Receipt) (calloc : Option Addr) (added : Bool)
  /-- Any other step of a worker. -/
  | worker (n : ℕ) (i : LoopInput)
  /-- A worker exits or is killed. -/
  | exit (n : ℕ)

/-- What is observed. -/
inductive SysOutput
  | quiet
  /-- The master has called `forge_send_fd` for a connection, with this result. -/
  | offered (id : ConnId) (target : ℕ) (rc : ℤ)
  | worker (n : ℕ) (out : Option (ConnId × Turn))

/-- A state of the system. -/
structure System where
  pc : MasterPc
  next : ℕ
  terminate : Bool
  /-- The client descriptors that are open in the master. -/
  clients : ℤ → Option ConnId
  /-- The number of connections accepted so far. -/
  accepted : ℕ
  link : ℕ → Link

/-- The number of workers. -/
def ForgeCfg.workerCount (cfg : ForgeCfg) : ℕ := cfg.workers.toNat

namespace System

/-- The system in front of the master's loop. -/
def start (cfg : ForgeCfg) (fds : List ℤ) : System where
  pc := .wait
  next := 0
  terminate := false
  clients _ := none
  accepted := 0
  link n :=
    ⟨if n < cfg.workerCount then some (.running (.start fds) false []) else none, [], [], []⟩

/-- The next event of the batch. All are of the listening socket, so none is skipped; after the last
one, the children that have exited are waited for and nothing else is done about them. -/
def nextEvent (s : System) : ℕ → System
  | 0 => { s with pc := .wait }
  | rest + 1 => { s with pc := .accepting rest }

/-- The loop of `forge_master_run`. -/
def masterStep (cfg : ForgeCfg) (cap : ℕ) (s : System) : MasterInput → Option (SysOutput × System)
  | .terminate => some (.quiet, { s with terminate := true })
  | .epollWait r =>
    match s.pc with
    | .wait =>
      if s.terminate then some (.quiet, { s with pc := .stopped })
      else
        match r with
        | .interrupted => some (.quiet, s)
        | .failed => some (.quiet, { s with pc := .stopped })
        | .events n => some (.quiet, s.nextEvent n)
    | _ => none
  | .accept4 r =>
    match s.pc with
    | .accepting rest =>
      match r with
      | .again => some (.quiet, s.nextEvent rest)
      | .interrupted => some (.quiet, s)
      | .failed => some (.quiet, s.nextEvent rest)
      | .client cfd =>
        if 0 ≤ cfd ∧ s.clients cfd = none then
          some (.quiet, { s with
            pc := .dispatching rest cfd s.next
            next := (s.next + 1) % cfg.workerCount
            clients := update s.clients cfd (some s.accepted)
            accepted := s.accepted + 1 })
        else none
    | _ => none
  | .sendFd fails =>
    match s.pc with
    | .dispatching rest cfd target =>
      match s.clients cfd with
      | none => some (.quiet, { s with pc := .closing rest cfd })
      | some id =>
        -- `target` alone is asked, whether it takes the connection or not
        if (s.link target).Takes cap ∧ fails = false then
          some (.offered id target (forgeSendFd 1), { s with
            pc := .closing rest cfd
            link := update s.link target ((s.link target).push id) })
        else some (.offered id target (forgeSendFd (-1)), { s with pc := .closing rest cfd })
    | _ => none
  | .close =>
    match s.pc with
    -- both branches on the result of `forge_send_fd` are this one
    | .closing rest cfd =>
      some (.quiet, { s with pc := .accepting rest, clients := update s.clients cfd none })
    | _ => none

/-- A system with another state of one worker and its control socket. -/
def setLink (s : System) (n : ℕ) (l : Link) : System := { s with link := update s.link n l }

/-- One step of the system. -/
def step (cfg : ForgeCfg) (cap : ℕ) (s : System) : SysInput → Option (SysOutput × System)
  | .master i => s.masterStep cfg cap i
  | .datagram n cmsg h =>
    let l := s.link n
    if l.Takes cap then some (.quiet, s.setLink n { l with queue := l.queue ++ [.ill cmsg h] })
    else none
  | .recv n r calloc added =>
    let l := s.link n
    match l.loop, deliver r l.queue with
    | some st, some (m, queue, lost) =>
      match (loopMachine cfg).step st (.recv m calloc added) with
      | some (out, st') =>
        some (.worker n out, s.setLink n ⟨some st', queue, l.sent, l.lost ++ lost⟩)
      | none => none
    | _, _ => none
  | .worker n i =>
    let l := s.link n
    match l.loop, i with
    | _, .recv .. => none
    | some st, i =>
      match (loopMachine cfg).step st i with
      | some (out, st') => some (.worker n out, s.setLink n { l with loop := some st' })
      | none => none
    | none, _ => none
  | .exit n => some (.quiet, s.setLink n { s.link n with loop := none, queue := [] })

end System

/-- The server with its workers. -/
def forgeMachine (cfg : ForgeCfg) (cap : ℕ) : Machine System SysInput SysOutput where
  step := System.step cfg cap

/-! ### The steps -/

/-- The master is not dispatching a connection. -/
def MasterPc.Idle : MasterPc → Prop
  | .dispatching .. => False
  | .closing .. => False
  | _ => True

/-- **The steps of the system.** -/
inductive SysStep (cfg : ForgeCfg) (cap : ℕ) (s : System) :
    SysInput → SysOutput → System → Prop
  | signal : SysStep cfg cap s (.master .terminate) .quiet { s with terminate := true }
  /-- `epoll_wait`, or an `accept4` without a connection. -/
  | idle (i : MasterInput) (hpc : s.pc.Idle) (pc : MasterPc) (hpc' : pc.Idle) :
      SysStep cfg cap s (.master i) .quiet { s with pc }
  | accepted (rest : ℕ) (hpc : s.pc = .accepting rest) (cfd : ℤ) (hcfd : s.clients cfd = none) :
      SysStep cfg cap s (.master (.accept4 (.client cfd))) .quiet { s with
        pc := .dispatching rest cfd s.next
        next := (s.next + 1) % cfg.workerCount
        clients := update s.clients cfd (some s.accepted)
        accepted := s.accepted + 1 }
  /-- The descriptor to be sent is not open. -/
  | unopened (rest : ℕ) (cfd : ℤ) (target : ℕ) (hpc : s.pc = .dispatching rest cfd target)
      (hcfd : s.clients cfd = none) (fails : Bool) :
      SysStep cfg cap s (.master (.sendFd fails)) .quiet { s with pc := .closing rest cfd }
  | queued (rest : ℕ) (cfd : ℤ) (target : ℕ) (hpc : s.pc = .dispatching rest cfd target)
      (id : ConnId) (hcfd : s.clients cfd = some id) (htakes : (s.link target).Takes cap) :
      SysStep cfg cap s (.master (.sendFd false)) (.offered id target 0) { s with
        pc := .closing rest cfd
        link := update s.link target ((s.link target).push id) }
  | rejected (rest : ℕ) (cfd : ℤ) (target : ℕ) (hpc : s.pc = .dispatching rest cfd target)
      (id : ConnId) (hcfd : s.clients cfd = some id) (fails : Bool)
      (htakes : (s.link target).Takes cap → fails = true) :
      SysStep cfg cap s (.master (.sendFd fails)) (.offered id target (-1))
        { s with pc := .closing rest cfd }
  | closed (rest : ℕ) (cfd : ℤ) (hpc : s.pc = .closing rest cfd) :
      SysStep cfg cap s (.master .close) .quiet
        { s with pc := .accepting rest, clients := update s.clients cfd none }
  | datagram (n : ℕ) (cmsg : Option Cmsg) (h : ∀ c ∈ cmsg, (c.solSocket && c.scmRights) = false)
      (hloop : (s.link n).loop.isSome) :
      SysStep cfg cap s (.datagram n cmsg h) .quiet
        (s.setLink n { s.link n with queue := (s.link n).queue ++ [.ill cmsg h] })
  | recv (n : ℕ) (r : Receipt) (calloc : Option Addr) (added : Bool) (st st' : LoopState)
      (hloop : (s.link n).loop = some st) (m : RecvMsg) (queue : List Datagram)
      (lost : List ConnId) (hdeliver : deliver r (s.link n).queue = some (m, queue, lost))
      (out : Option (ConnId × Turn))
      (hstep : (loopMachine cfg).step st (.recv m calloc added) = some (out, st')) :
      SysStep cfg cap s (.recv n r calloc added) (.worker n out)
        (s.setLink n ⟨some st', queue, (s.link n).sent, (s.link n).lost ++ lost⟩)
  | worker (n : ℕ) (i : LoopInput) (hi : i.gets = []) (st st' : LoopState)
      (hloop : (s.link n).loop = some st) (out : Option (ConnId × Turn))
      (hstep : (loopMachine cfg).step st i = some (out, st')) :
      SysStep cfg cap s (.worker n i) (.worker n out)
        (s.setLink n { s.link n with loop := some st' })
  | exit (n : ℕ) :
      SysStep cfg cap s (.exit n) .quiet (s.setLink n { s.link n with loop := none, queue := [] })

variable {cfg : ForgeCfg} {cap : ℕ} {s s' : System}

theorem System.nextEvent_idle (s : System) (n : ℕ) :
    ∃ pc : MasterPc, pc.Idle ∧ s.nextEvent n = { s with pc } := by
  cases n with
  | zero => exact ⟨.wait, trivial, rfl⟩
  | succ rest => exact ⟨.accepting rest, trivial, rfl⟩

/-- The master's steps. -/
theorem master_cases {i : MasterInput} {out : SysOutput}
    (h : s.masterStep cfg cap i = some (out, s')) : SysStep cfg cap s (.master i) out s' := by
  have hnext : ∀ n, s.pc.Idle → SysStep cfg cap s (.master i) .quiet (s.nextEvent n) := by
    intro n hidle
    obtain ⟨pc, hpc, heq⟩ := s.nextEvent_idle n
    rw [heq]
    exact .idle i hidle pc hpc
  unfold System.masterStep at h
  -- the cases are the inputs, then the place of the master, then the kernel's answer
  split at h
  case h_1 =>
    obtain ⟨rfl, rfl⟩ := Prod.mk.inj (Option.some.inj h)
    exact .signal
  case h_2 r =>
    split at h
    case h_2 => exact absurd h (by simp)
    rename_i hpc
    have hidle : s.pc.Idle := by rw [hpc]; trivial
    split at h
    · obtain ⟨rfl, rfl⟩ := Prod.mk.inj (Option.some.inj h)
      exact .idle _ hidle .stopped trivial
    · split at h <;> obtain ⟨rfl, rfl⟩ := Prod.mk.inj (Option.some.inj h)
      · exact .idle _ hidle s.pc hidle
      · exact .idle _ hidle .stopped trivial
      · exact hnext _ hidle
  case h_3 r =>
    split at h
    case h_2 => exact absurd h (by simp)
    rename_i rest hpc
    have hidle : s.pc.Idle := by rw [hpc]; trivial
    split at h
    · obtain ⟨rfl, rfl⟩ := Prod.mk.inj (Option.some.inj h)
      exact hnext _ hidle
    · obtain ⟨rfl, rfl⟩ := Prod.mk.inj (Option.some.inj h)
      exact .idle _ hidle s.pc hidle
    · obtain ⟨rfl, rfl⟩ := Prod.mk.inj (Option.some.inj h)
      exact hnext _ hidle
    · -- a connection: it goes to the next worker
      rename_i cfd
      split at h
      · rename_i hcfd
        obtain ⟨rfl, rfl⟩ := Prod.mk.inj (Option.some.inj h)
        exact .accepted rest hpc cfd hcfd.2
      · exact absurd h (by simp)
  case h_4 fails =>
    split at h
    case h_2 => exact absurd h (by simp)
    rename_i rest cfd target hpc
    split at h
    · rename_i hcfd
      obtain ⟨rfl, rfl⟩ := Prod.mk.inj (Option.some.inj h)
      exact .unopened rest cfd target hpc hcfd fails
    · rename_i id hcfd
      split at h
      · rename_i htakes
        obtain ⟨rfl, rfl⟩ := Prod.mk.inj (Option.some.inj h)
        rw [htakes.2]
        exact .queued rest cfd target hpc id hcfd htakes.1
      · rename_i htakes
        obtain ⟨rfl, rfl⟩ := Prod.mk.inj (Option.some.inj h)
        refine .rejected rest cfd target hpc id hcfd fails fun ht ↦ ?_
        cases fails with
        | true => rfl
        | false => exact absurd ⟨ht, rfl⟩ htakes
  case h_5 =>
    split at h
    case h_2 => exact absurd h (by simp)
    rename_i rest cfd hpc
    obtain ⟨rfl, rfl⟩ := Prod.mk.inj (Option.some.inj h)
    exact .closed rest cfd hpc

/-- **The inversion of a step.** -/
theorem sys_cases {i : SysInput} {out : SysOutput}
    (h : (forgeMachine cfg cap).step s i = some (out, s')) : SysStep cfg cap s i out s' := by
  cases i with
  | master i => exact master_cases h
  | datagram n cmsg hill =>
    simp only [forgeMachine, System.step] at h
    split at h
    · rename_i htakes
      obtain ⟨rfl, rfl⟩ := Prod.mk.inj (Option.some.inj h)
      exact .datagram n cmsg hill htakes.1
    · exact absurd h (by simp)
  | recv n r calloc added =>
    simp only [forgeMachine, System.step] at h
    split at h
    case h_2 => exact absurd h (by simp)
    rename_i st m queue lost hloop hdeliver
    split at h
    case h_2 => exact absurd h (by simp)
    rename_i out' st' hstep
    obtain ⟨rfl, rfl⟩ := Prod.mk.inj (Option.some.inj h)
    exact .recv n r calloc added st st' hloop m queue lost hdeliver out' hstep
  | worker n j =>
    simp only [forgeMachine, System.step] at h
    split at h
    case h_1 => exact absurd h (by simp)
    case h_3 => exact absurd h (by simp)
    rename_i j _ _ st hloop hj
    split at h
    case h_2 => exact absurd h (by simp)
    rename_i out' st' hstep
    obtain ⟨rfl, rfl⟩ := Prod.mk.inj (Option.some.inj h)
    refine .worker n j ?_ st st' hloop out' hstep
    cases j with
    | recv m calloc added => exact absurd rfl (hj m calloc added)
    | _ => rfl
  | exit n =>
    obtain ⟨rfl, rfl⟩ := Prod.mk.inj (Option.some.inj h)
    exact .exit n

end ForgeServer
