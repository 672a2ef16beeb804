import ForgeServer.Worker.Resources

/-!
# The event loop of a worker

`forge_run_worker` as a machine. One input is one thing the loop does, with all the kernel answers:
`epoll_wait` returns a batch, the control socket's event is taken up, one `forge_recv_fd` of the
receive loop and what is done with its descriptor, one event of a client. Each is a step of its own,
so every interleaving of control and client events in a batch is a run.

What the environment is held to: `epoll_wait` reports registered descriptors, each at most once in a
batch; the kernel installs a descriptor number that is not open, and `calloc` returns an address
that is not allocated — numbers and addresses that were given back may be handed out at once.
`LoopState.fault` is a use of what is not allocated, not open, or not the connection's own.
-/

namespace ForgeServer

open Function

/-! ### `net.c` -/

/-- The first control message of a datagram: whether it is `SOL_SOCKET` and `SCM_RIGHTS`, and then
the descriptor that was installed and the socket it refers to. -/
structure Cmsg where
  solSocket : Bool
  scmRights : Bool
  fd : ℤ
  id : ConnId
deriving DecidableEq

/-- What `recvmsg` returns on the control socket. -/
inductive RecvMsg
  /-- Nothing there, an error, or the end. -/
  | failed
  /-- A datagram, with its control message if it has one. -/
  | message (cmsg : Option Cmsg)
deriving DecidableEq

/-- `forge_recv_fd`. -/
def forgeRecvFd : RecvMsg → ℤ
  | .failed => -1
  | .message none => -1
  | .message (some cmsg) => if !cmsg.solSocket || !cmsg.scmRights then -1 else cmsg.fd

/-- The socket a datagram hands over. -/
def RecvMsg.id : RecvMsg → ConnId
  | .message (some cmsg) => cmsg.id
  | _ => 0

/-! ### The loop -/

/-- The `events` field of an `epoll_event`. -/
structure Flags where
  inp : Bool
  rdhup : Bool
  hup : Bool
  err : Bool
deriving DecidableEq

/-- A client's event with the kernel answers to the calls made for it. -/
def Flags.event (f : Flags) (k : Kernel) : ConnEvent := ⟨f.inp, f.rdhup, f.hup, f.err, k⟩

/-- What `epoll_wait` reports on. -/
inductive Reported
  | control
  | client (fd : ℤ) (flags : Flags)
deriving DecidableEq

/-- An element of `events`: `data.ptr` is the control marker or a connection. The identity is the
one the descriptor was registered with. -/
inductive Ready
  | control
  | client (ptr : Addr) (id : ConnId) (flags : Flags)
deriving DecidableEq

/-- The descriptors of a batch. -/
def clientFds (batch : List Reported) : List ℤ :=
  batch.filterMap fun
    | .control => none
    | .client fd _ => some fd

/-- The connections of the events still to be processed. -/
def clientPtrs (pending : List Ready) : List Addr :=
  pending.filterMap fun
    | .control => none
    | .client ptr _ _ => some ptr

/-- The element of `events` for a report. -/
def Worker.ready (w : Worker) : Reported → Option Ready
  | .control => some .control
  | .client fd flags => (w.interest fd).map fun e ↦ .client e.ptr e.id flags

/-- One iteration of the receive loop, and whether the loop goes on; `none` is a fault. -/
def recvOne (w : Worker) (m : RecvMsg) (calloc : Option Addr) (added : Bool) :
    Option (Worker × Bool) :=
  let cfd := forgeRecvFd m
  if cfd < 0 then some (w, false)
  else
    -- the kernel has installed the descriptor
    let w := { w with table := update w.table cfd (some (.conn m.id)), got := w.got ++ [m.id] }
    match calloc with
    | none => (w.closeFd m.id cfd).map (·, true)
    | some a =>
      -- `calloc` has zeroed the object; then `fd` and `keep_alive` are set
      let w := { w with heap := update w.heap a (some ⟨m.id, .fresh cfd⟩) }
      if added then some ({ w with interest := update w.interest cfd (some ⟨a, m.id⟩) }, true)
      else ((w.closeFd m.id cfd).bind fun w ↦ w.free a).map (·, true)

/-- A state of the loop. -/
inductive LoopState
  /-- In the receive loop or not, with the events of the batch still to be processed. -/
  | running (w : Worker) (receiving : Bool) (pending : List Ready)
  /-- In a call of `handle_read` that has not returned. -/
  | sending (w : Worker)
  | fault

/-- The resources with another object at `a`. -/
def Worker.put (w : Worker) (a : Addr) (o : Obj) : Worker :=
  { w with heap := update w.heap a (some o) }

/-- The object of a connection after a call that has kept it, written where it is allocated. -/
def Worker.store (w : Worker) (a : Addr) (o : Obj) : Option Worker :=
  (w.heap a).map fun _ ↦ w.put a o

/-- The body of the loop for the event of a client, from the calls that were made for it. -/
def afterEvent (w : Worker) (a : Addr) (o : Obj) (t : Turn) (pending : List Ready) : LoopState :=
  match Worker.exec a o.id w t.calls with
  | none => .fault
  | some w =>
    match t.next with
    | .registered c =>
      match w.store a ⟨o.id, c⟩ with
      | none => .fault
      | some w => .running w false pending
    | .closed => .running w false pending
    | .sending => .sending w
    | .fault => .fault

/-- What happens to a worker. -/
inductive LoopInput
  /-- `epoll_wait` returns. -/
  | wait (batch : List Reported)
  /-- The event of the control socket is taken up. -/
  | enter
  /-- One `forge_recv_fd`, `calloc` and `epoll_ctl`. -/
  | recv (m : RecvMsg) (calloc : Option Addr) (added : Bool)
  /-- The event of a client is handled. -/
  | client (k : Kernel)

/-- The loop of `forge_run_worker`. A client's event is answered with the connection and the calls
made for it. -/
def loopMachine (cfg : ForgeCfg) : Machine LoopState LoopInput (Option (ConnId × Turn)) where
  step
    | .running w false [], .wait batch =>
      if (clientFds batch).Nodup ∧ ∀ fd ∈ clientFds batch, w.interest fd ≠ none then
        some (none, .running w false (batch.filterMap w.ready))
      else none
    | .running w false (.control :: pending), .enter => some (none, .running w true pending)
    | .running w true pending, .recv m calloc added =>
      if (0 ≤ forgeRecvFd m → w.table (forgeRecvFd m) = none) ∧ ∀ a ∈ calloc, w.heap a = none then
        match recvOne w m calloc added with
        | none => some (none, .fault)
        | some (w, more) => some (none, .running w more pending)
      else none
    | .running w false (.client a _ flags :: pending), .client k =>
      match w.heap a with
      | none => some (none, .fault)
      | some o =>
        let t := clientEvent cfg (flags.event k) o.conn
        if ∀ fd ∈ openedFds t.calls, w.table fd = none then
          some (some (o.id, t), afterEvent w a o t pending)
        else none
    | _, _ => none

/-! ### One descriptor -/

variable {w : Worker} {a : Addr} {m : RecvMsg}

/-- The resources after a connection was received and closed again. -/
def Worker.refuse (w : Worker) (id : ConnId) : Worker :=
  { w with got := w.got ++ [id], shut := w.shut ++ [id] }

/-- The resources after a connection was received and registered. -/
def Worker.adopt (w : Worker) (a : Addr) (fd : ℤ) (id : ConnId) : Worker where
  heap := update w.heap a (some ⟨id, .fresh fd⟩)
  interest := update w.interest fd (some ⟨a, id⟩)
  table := update w.table fd (some (.conn id))
  got := w.got ++ [id]
  shut := w.shut

section Fields

variable (w : Worker) (a : Addr) (fd : ℤ) (id : ConnId) (o : Obj)

@[simp] theorem adopt_heap : (w.adopt a fd id).heap = update w.heap a (some ⟨id, .fresh fd⟩) := rfl

@[simp] theorem adopt_interest :
    (w.adopt a fd id).interest = update w.interest fd (some ⟨a, id⟩) := rfl

@[simp] theorem adopt_table : (w.adopt a fd id).table = update w.table fd (some (.conn id)) := rfl

@[simp] theorem adopt_got : (w.adopt a fd id).got = w.got ++ [id] := rfl

@[simp] theorem adopt_shut : (w.adopt a fd id).shut = w.shut := rfl

@[simp] theorem refuse_heap : (w.refuse id).heap = w.heap := rfl

@[simp] theorem refuse_table : (w.refuse id).table = w.table := rfl

@[simp] theorem refuse_got : (w.refuse id).got = w.got ++ [id] := rfl

@[simp] theorem refuse_shut : (w.refuse id).shut = w.shut ++ [id] := rfl

@[simp] theorem put_heap : (w.put a o).heap = update w.heap a (some o) := rfl

@[simp] theorem put_interest : (w.put a o).interest = w.interest := rfl

@[simp] theorem put_table : (w.put a o).table = w.table := rfl

@[simp] theorem put_got : (w.put a o).got = w.got := rfl

@[simp] theorem put_shut : (w.put a o).shut = w.shut := rfl

end Fields

/-- **The exits of one iteration of the receive loop.** -/
inductive Received (w : Worker) (m : RecvMsg) : Worker × Bool → Prop
  /-- No descriptor: the loop is left. -/
  | stop (hfd : forgeRecvFd m < 0) : Received w m (w, false)
  /-- No memory, or `epoll_ctl` failed: the descriptor is closed. -/
  | refused (hfd : 0 ≤ forgeRecvFd m) : Received w m (w.refuse m.id, true)
  /-- The connection is registered. -/
  | adopted (hfd : 0 ≤ forgeRecvFd m) (a : Addr) (ha : w.heap a = none) :
      Received w m (w.adopt a (forgeRecvFd m) m.id, true)

theorem update_update_none {α β : Type*} [DecidableEq α] {f : α → Option β} {x : α}
    (h : f x = none) (y : Option β) : update (update f x y) x none = f := by
  rw [update_idem, ← h, update_eq_self]

/-- **One iteration does not fault** on a descriptor number that was not open and an address that
was not allocated. -/
theorem recvOne_received (hfd : 0 ≤ forgeRecvFd m → w.table (forgeRecvFd m) = none)
    {calloc : Option Addr}
    (ha : ∀ a ∈ calloc, w.heap a = none) (added : Bool) :
    ∃ r, recvOne w m calloc added = some r ∧ Received w m r := by
  unfold recvOne
  by_cases hneg : forgeRecvFd m < 0
  · exact ⟨_, if_pos hneg, .stop hneg⟩
  · have hpos : 0 ≤ forgeRecvFd m := by omega
    have hfd := hfd hpos
    dsimp only
    rw [if_neg hneg]
    rcases calloc with - | a
    · -- what the kernel installed is closed at once
      refine ⟨_, ?_, .refused hpos⟩
      simp only [Worker.closeFd, update_self, if_true, Option.map_some, update_update_none hfd]
      rfl
    · have hnew : w.heap a = none := ha a rfl
      cases added with
      | true => exact ⟨_, rfl, .adopted hpos a hnew⟩
      | false =>
        -- `epoll_ctl` has failed: the object is freed as well
        refine ⟨_, ?_, .refused hpos⟩
        simp only [Worker.closeFd, Worker.free, update_self, if_true, Bool.false_eq_true, if_false,
          Option.bind_some, Option.map_some, update_update_none hfd, update_update_none hnew]
        rfl

end ForgeServer
