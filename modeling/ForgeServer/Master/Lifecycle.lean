import ForgeServer.Systems.Simulation
import ForgeServer.Worker.Projection
import ForgeServer.Master.Fairness
import ForgeServer.Master.Ownership
import ForgeServer.Master.Stages

/-!
# The life of a connection in the server

Every run of the server, seen from one connection (`System.view`), is a run of `stageMachine`
(`connection_lifecycle`): whatever the master and the workers do, and in whatever order, a
connection goes from stage to stage with the calls that are made for it, and where it is in the
system at each stage, and nowhere else, is `System.At`: among the master's descriptors, in the
control sockets, or among the objects, in the interest list and among the descriptors of a worker.

The step lemma goes by stages (`at_step`). At each of them a step is one of the master's that is
about another connection (`master_links`), one of another worker, which has nothing of this one
(`without_other`), or one that the stage is about: `inHand_step` for the dispatch, `taken_link` for
the receive loop, `served_loop` for the worker's own steps.
-/

namespace ForgeServer

open CStr Function Machine

/-! ### The view of a run -/

/-- What a step of the system is to the connection `id`. -/
def System.view (cfg : ForgeCfg) (cap : ℕ) (id : ConnId) (s : System) : SysInput → List StageInput
  | .master (.accept4 (.client _)) => if s.accepted = id then [.accepted] else []
  | .master (.sendFd fails) =>
    match s.pc with
    | .dispatching _ cfd target =>
      if s.clients cfd = some id then
        [.offered (decide ((s.link target).Takes cap ∧ fails = false))]
      else []
    | _ => []
  | .recv n r calloc added =>
    match deliver r (s.link n).queue with
    | some (m, _, lost) =>
      if id ∈ m.gets then [.taken (if calloc.isSome && added then some (forgeRecvFd m) else none)]
      else if id ∈ lost then [.taken none]
      else []
    | none => []
  | .worker n i =>
    match (s.link n).loop with
    | some st => (st.event? id i).toList.map .event
    | none => []
  | .exit n => if id % cfg.workerCount = n then [.exit] else []
  | _ => []

/-- What an output says of the connection `id`. -/
def SysOutput.turn? (id : ConnId) : SysOutput → Option Turn
  | .worker _ out => ForgeServer.turn? id out
  | _ => none

/-- The calls the server makes for the connection `id`, one `Turn` for each event. -/
def servedTurns (id : ConnId) (outs : List SysOutput) : List Turn :=
  outs.filterMap (SysOutput.turn? id)

theorem mem_servedTurns {id : ConnId} {outs : List SysOutput} {t : Turn} :
    t ∈ servedTurns id outs ↔ ∃ n, .worker n (some (id, t)) ∈ outs := by
  rw [servedTurns, List.mem_filterMap]
  constructor
  · rintro ⟨out, hout, hturn⟩
    rcases out with _ | _ | ⟨n, _ | ⟨id', t'⟩⟩
    · exact absurd hturn (by simp [SysOutput.turn?])
    · exact absurd hturn (by simp [SysOutput.turn?])
    · exact absurd hturn (by simp [SysOutput.turn?, turn?])
    · obtain ⟨rfl, heq⟩ := Option.ite_none_right_eq_some.1 hturn
      exact ⟨n, Option.some.inj heq ▸ hout⟩
  · rintro ⟨n, hout⟩
    exact ⟨_, hout, if_pos rfl⟩

/-! ### Where a connection is -/

/-- The worker has nothing of the connection: no object, no entry of the interest list, no
descriptor. -/
structure Worker.Without (w : Worker) (id : ConnId) : Prop where
  heap : ∀ a o, w.heap a = some o → o.id ≠ id
  interest : ∀ fd e, w.interest fd = some e → e.id ≠ id
  table : ∀ fd, w.table fd ≠ some (.conn id)

/-- The worker has the connection as the object `c` at `a`, registered and open under its
descriptor, and has nothing else of it. -/
structure Worker.HoldsOnce (w : Worker) (a : Addr) (id : ConnId) (c : ForgeConn) : Prop extends
    w.Holds a ⟨id, c⟩ where
  heap_unique : ∀ b o, w.heap b = some o → o.id = id → b = a
  interest_unique : ∀ fd e, w.interest fd = some e → e.id = id → fd = c.fd
  table_unique : ∀ fd, w.table fd = some (.conn id) → fd = c.fd

/-- Nothing of the connection is in a control socket or in its worker. -/
structure Link.Without (l : Link) (id : ConnId) : Prop where
  queue : id ∉ queuedIds l.queue
  worker : ∀ w, l.worker? = some w → w.Without id

/-- The master is in front of `forge_send_fd` with the connection. -/
def System.Dispatches (s : System) (id : ConnId) : Prop :=
  ∃ rest cfd target, s.pc = .dispatching rest cfd target ∧ s.clients cfd = some id

/-- The master has no descriptor of the connection but one that it is about to close. -/
def System.LetGo (s : System) (id : ConnId) : Prop :=
  ∀ fd, s.clients fd = some id → ∃ rest, s.pc = .closing rest fd

/-- The connection was sent: no worker and no control socket but its own have anything of it. -/
structure System.Sent (cfg : ForgeCfg) (s : System) (id : ConnId) : Prop where
  accepted : id < s.accepted
  master : s.LetGo id
  other : ∀ n, n ≠ id % cfg.workerCount → (s.link n).Without id

/-- The connection was accepted, and nothing but perhaps the descriptor the master is about to close
refers to it any more. -/
structure System.Gone (s : System) (id : ConnId) : Prop where
  accepted : id < s.accepted
  master : s.LetGo id
  link : ∀ n, (s.link n).Without id

/-- **Where a connection is in the system at each stage**, and that it is nowhere else. -/
inductive System.At (cfg : ForgeCfg) (s : System) (id : ConnId) : Stage → Prop
  | unborn (h : s.accepted ≤ id) (hmaster : ∀ fd, s.clients fd ≠ some id)
      (hlink : ∀ n, (s.link n).Without id) : At cfg s id .unborn
  | inHand (h : s.Dispatches id) (hlink : ∀ n, (s.link n).Without id) : At cfg s id .inHand
  | queued (h : s.Sent cfg id) (hq : id ∈ queuedIds (s.link (id % cfg.workerCount)).queue)
      (hworker : ∀ w, (s.link (id % cfg.workerCount)).worker? = some w → w.Without id) :
      At cfg s id .queued
  | registered (h : s.Sent cfg id) (hq : id ∉ queuedIds (s.link (id % cfg.workerCount)).queue)
      (w : Worker) (hw : (s.link (id % cfg.workerCount)).worker? = some w) (a : Addr)
      (c : ForgeConn) (ho : w.HoldsOnce a id c) : At cfg s id (.served (.registered c))
  | sending (h : s.Sent cfg id) (hq : id ∉ queuedIds (s.link (id % cfg.workerCount)).queue)
      (w : Worker) (hloop : (s.link (id % cfg.workerCount)).loop = some (.sending w)) (a : Addr)
      (c : ForgeConn) (ho : w.HoldsOnce a id c) : At cfg s id (.served .sending)
  | closed (h : s.Gone id) : At cfg s id (.served .closed)
  | gone (h : s.Gone id) : At cfg s id .gone

/-- What has no object is not registered and not open either. -/
theorem WorkerInv.without {w : Worker} (h : WorkerInv w) {id : ConnId}
    (hno : ∀ a o, w.heap a = some o → o.id ≠ id) : w.Without id where
  heap := hno
  interest fd e he := by
    obtain ⟨o, ho, hid, -⟩ := h.registered fd e he
    exact hid ▸ hno _ o ho
  table fd hfd := by
    obtain ⟨a, o, ho, hid, -⟩ := h.opened fd id hfd
    exact hno a o ho hid

/-- **A connection with an object** is registered and open, once. -/
theorem WorkerInv.holdsOnce {w : Worker} (h : WorkerInv w) (hl : Ledger w) {a : Addr} {id : ConnId}
    {c : ForgeConn} (ho : w.heap a = some ⟨id, c⟩) : w.HoldsOnce a id c where
  toHolds := (h.holds a _ ho).1
  heap_unique b o ho' hid := by
    have htable := (h.holds b o ho').1.table
    rw [hid] at htable
    exact h.fd_injective ho' ho (hl.unique _ _ id htable (h.holds a _ ho).1.table)
  interest_unique fd e he hid := by
    obtain ⟨o, ho', hoid, hfd⟩ := h.registered fd e he
    have htable := (h.holds _ o ho').1.table
    rw [hfd, hoid, hid] at htable
    exact hl.unique _ _ id htable (h.holds a _ ho).1.table
  table_unique fd hfd := hl.unique _ _ id hfd (h.holds a _ ho).1.table

theorem LinkInv.without {l : Link} (h : LinkInv l) {id : ConnId} (hq : id ∉ queuedIds l.queue)
    (hno : ∀ w, l.worker? = some w → ∀ a o, w.heap a = some o → o.id ≠ id) : l.Without id :=
  ⟨hq, fun w hw ↦ (h.of_worker hw).1.without (hno w hw)⟩

/-- Nothing is left where a worker has exited. -/
theorem Link.without_exit (l : Link) (id : ConnId) :
    Link.Without { l with loop := none, queue := [] } id :=
  ⟨List.not_mem_nil, fun w hw ↦ absurd hw (by simp [Link.worker?])⟩

/-! ### The loop of a worker -/

section Loop

variable {cfg : ForgeCfg} {id : ConnId} {w : Worker} {m : RecvMsg}

theorem recvOne_adopt (hfd : 0 ≤ forgeRecvFd m) (a : Addr) :
    recvOne w m (some a) true = some (w.adopt a (forgeRecvFd m) m.id, true) := by
  rw [recvOne, if_neg (by omega)]
  rfl

/-- A connection that gets no memory, or is not registered, is closed at once. -/
theorem recvOne_refuse (hfd : 0 ≤ forgeRecvFd m) (htable : w.table (forgeRecvFd m) = none)
    {calloc : Option Addr} {added : Bool} (ha : ∀ a ∈ calloc, w.heap a = none)
    (hno : (calloc.isSome && added) = false) :
    recvOne w m calloc added = some (w.refuse m.id, true) := by
  rw [recvOne, if_neg (by omega)]
  rcases calloc with - | a
  · simp only [Worker.closeFd, update_self, if_true, Option.map_some, update_update_none htable]
    rfl
  · obtain rfl : added = false := by simpa using hno
    simp only [Worker.closeFd, Worker.free, update_self, if_true, Bool.false_eq_true, if_false,
      Option.bind_some, Option.map_some, update_update_none htable, update_update_none (ha a rfl)]
    rfl

/-- A step of a worker that has nothing of the connection. -/
theorem without_loop {st st' : LoopState} (hst : st.Inv) (hw : st.worker? = some w)
    (hno : ∀ a o, w.heap a = some o → o.id ≠ id) {i : LoopInput} (hgets : id ∉ i.gets)
    {out : Option (ConnId × Turn)} (hstep : (loopMachine cfg).step st i = some (out, st')) :
    st.event? id i = none ∧ turn? id out = none ∧
      ∀ w', st'.worker? = some w' → ∀ a o, w'.heap a = some o → o.id ≠ id := by
  cases st with
  | running w₀ receiving pending =>
    obtain rfl : w₀ = w := Option.some.inj hw
    have hcases := loop_cases hst.1 hst.2 hstep
    obtain ⟨hev, hturn⟩ := event?_eq_none hcases fun a o ho hid ↦ absurd hid (hno a o ho)
    refine ⟨hev, hturn, fun w' hw' a o ho hid ↦ ?_⟩
    rcases allocated_step hcases hw' ho with ⟨hget, -⟩ | ⟨a', o', ho', hid'⟩
    · exact hgets (hid ▸ hget)
    · exact hno a' o' ho' (hid'.trans hid)
  | sending w₀ => exact absurd hstep (by simp [loopMachine])
  | fault => exact absurd hst fun h ↦ h

end Loop

/-! ### What the invariant says -/

variable {cfg : ForgeCfg} {cap : ℕ} {s s' : System} {id : ConnId} {i : SysInput} {out : SysOutput}

/-- A worker that was not sent the connection has nothing of it. -/
theorem without_of_not_sent (hs : s.Inv cfg) {n : ℕ} (hsent : id ∉ (s.link n).sent) :
    (s.link n).Without id := by
  refine (hs.link n).without (fun hmem ↦ hsent (hs.master.queued n id hmem)) ?_
  rintro w hw a o ho rfl
  have htable := (((hs.link n).of_worker hw).1.holds a o ho).1.table
  exact hsent ((hs.link n).mem_of_open hw htable).1

/-- A link that another worker has. -/
theorem without_other (hs : s.Inv cfg) {n : ℕ} (hn : n ≠ id % cfg.workerCount) :
    (s.link n).Without id :=
  without_of_not_sent hs fun hmem ↦ hn (hs.master.sent n id hmem).2.symm

/-- What was sent is not what the master is about to send. -/
theorem not_dispatches_of_sent (hs : s.Inv cfg) {n : ℕ} (hsent : id ∈ (s.link n).sent) :
    ¬ s.Dispatches id := by
  rintro ⟨rest, cfd, target, hpc, hcfd⟩
  obtain ⟨-, -, -, hlt⟩ := inHand_client hs.master.inHand hpc hcfd
  exact absurd (hlt n id hsent) (Nat.lt_irrefl _)

theorem not_sent_of_dispatches (hs : s.Inv cfg) (hd : s.Dispatches id) (n : ℕ) :
    id ∉ (s.link n).sent :=
  fun hsent ↦ not_dispatches_of_sent hs hsent hd

theorem not_sent_of_unborn (hs : s.Inv cfg) (hle : s.accepted ≤ id) (n : ℕ) :
    id ∉ (s.link n).sent :=
  fun hsent ↦ Nat.not_lt.2 hle (hs.master.sent n id hsent).1

/-- A descriptor that is open in the master is the one in hand. -/
theorem client_cases (hs : s.Inv cfg) {fd : ℤ} (hfd : s.clients fd = some id) :
    id < s.accepted ∧
      ((∃ rest target, s.pc = .dispatching rest fd target) ∨ ∃ rest, s.pc = .closing rest fd) := by
  have hin := hs.master.inHand
  have hone : ∀ {cfd : ℤ} {id' : ConnId}, s.accepted = id' + 1 →
      s.clients = update (fun _ ↦ none) cfd (some id') → id < s.accepted ∧ fd = cfd := by
    intro cfd id' hacc hclients
    rw [hclients] at hfd
    by_cases hne : fd = cfd
    · rw [hne, update_self, Option.some.injEq] at hfd
      exact ⟨by rw [hacc, hfd]; exact Nat.lt_succ_self _, hne⟩
    · rw [update_of_ne hne] at hfd
      exact absurd hfd (by simp)
  rcases hpc : s.pc with - | rest | ⟨rest, cfd, target⟩ | ⟨rest, cfd⟩ | -
  case dispatching =>
    obtain ⟨id', hacc, -, hclients, -⟩ := inHand_dispatching hin hpc
    obtain ⟨hlt, rfl⟩ := hone hacc hclients
    exact ⟨hlt, .inl ⟨rest, target, rfl⟩⟩
  case closing =>
    obtain ⟨id', hacc, hclients⟩ := inHand_closing hin hpc
    obtain ⟨hlt, rfl⟩ := hone hacc hclients
    exact ⟨hlt, .inr ⟨rest, rfl⟩⟩
  all_goals
    have hnone := (inHand_of_idle (by rw [hpc]; trivial)).1 hin
    rw [hnone] at hfd
    exact absurd hfd (by simp)

theorem accepted_of_dispatches (hs : s.Inv cfg) (hd : s.Dispatches id) : id < s.accepted := by
  obtain ⟨rest, cfd, target, -, hcfd⟩ := hd
  exact (client_cases hs hcfd).1

theorem System.LetGo.not_dispatches (h : s.LetGo id) : ¬ s.Dispatches id := by
  rintro ⟨rest, cfd, target, hpc, hcfd⟩
  obtain ⟨rest', hpc'⟩ := h cfd hcfd
  exact absurd (hpc.symm.trans hpc') (by simp)

theorem letGo_of_not_dispatches (hs : s.Inv cfg) (h : ¬ s.Dispatches id) : s.LetGo id :=
  fun fd hfd ↦ (client_cases hs hfd).2.resolve_left fun ⟨rest, target, hpc⟩ ↦
    h ⟨rest, fd, target, hpc, hfd⟩

/-! ### The stages from the invariant -/

theorem sent_of_mem (hs : s.Inv cfg) {n : ℕ} (hsent : id ∈ (s.link n).sent) : s.Sent cfg id where
  accepted := (hs.master.sent n id hsent).1
  master := letGo_of_not_dispatches hs (not_dispatches_of_sent hs hsent)
  other _ hn := without_other hs hn

theorem at_unborn (hs : s.Inv cfg) (hle : s.accepted ≤ id) : s.At cfg id .unborn :=
  .unborn hle (fun _ hfd ↦ Nat.not_lt.2 hle (client_cases hs hfd).1)
    fun n ↦ without_of_not_sent hs (not_sent_of_unborn hs hle n)

theorem at_inHand (hs : s.Inv cfg) (hd : s.Dispatches id) : s.At cfg id .inHand :=
  .inHand hd fun n ↦ without_of_not_sent hs (not_sent_of_dispatches hs hd n)

/-- The worker of a connection that is queued for it does not have it. -/
theorem without_of_queued {l : Link} (hl : LinkInv l) (hq : id ∈ queuedIds l.queue) {w : Worker}
    (hw : l.worker? = some w) : w.Without id := by
  have hinv := (hl.of_worker hw).1
  refine hinv.without ?_
  rintro a o ho rfl
  exact (hl.mem_of_open hw (hinv.holds a o ho).1.table).2 hq

theorem at_queued (hs : s.Inv cfg) (hq : id ∈ queuedIds (s.link (id % cfg.workerCount)).queue) :
    s.At cfg id .queued :=
  .queued (sent_of_mem hs (hs.master.queued _ id hq)) hq fun _ ↦ without_of_queued (hs.link _) hq

/-- What a worker has open was sent to it, is not queued for it, and is open once. -/
theorem sent_of_heap (hs : s.Inv cfg) {n : ℕ} {w : Worker} (hw : (s.link n).worker? = some w)
    {a : Addr} {c : ForgeConn} (ho : w.heap a = some ⟨id, c⟩) :
    s.Sent cfg id ∧ id ∉ queuedIds (s.link n).queue ∧ w.HoldsOnce a id c := by
  obtain ⟨hinv, hl, -⟩ := (hs.link n).of_worker hw
  obtain ⟨hsent, hq⟩ := (hs.link n).mem_of_open hw (hinv.holds a _ ho).1.table
  exact ⟨sent_of_mem hs hsent, hq, hinv.holdsOnce hl ho⟩

theorem at_registered (hs : s.Inv cfg) {w : Worker}
    (hw : (s.link (id % cfg.workerCount)).worker? = some w) {a : Addr} {c : ForgeConn}
    (ho : w.heap a = some ⟨id, c⟩) : s.At cfg id (.served (.registered c)) :=
  have ⟨hsent, hq, honce⟩ := sent_of_heap hs hw ho
  .registered hsent hq w hw a c honce

theorem at_sending (hs : s.Inv cfg) {w : Worker}
    (hloop : (s.link (id % cfg.workerCount)).loop = some (.sending w)) {a : Addr} {c : ForgeConn}
    (ho : w.heap a = some ⟨id, c⟩) : s.At cfg id (.served .sending) :=
  have ⟨hsent, hq, honce⟩ := sent_of_heap hs (by rw [Link.worker?, hloop]; rfl) ho
  .sending hsent hq w hloop a c honce

/-- What is with no worker but its own is gone once it is not there either. -/
theorem gone_of_without (hs : s.Inv cfg) (hacc : id < s.accepted) (hno : ¬ s.Dispatches id)
    (h : (s.link (id % cfg.workerCount)).Without id) : s.Gone id := by
  refine ⟨hacc, letGo_of_not_dispatches hs hno, fun n ↦ ?_⟩
  by_cases hn : n = id % cfg.workerCount
  · exact hn ▸ h
  · exact without_other hs hn

/-! ### A step without the connection -/

/-- The worker or control socket a step is about. -/
def SysInput.on? : SysInput → Option ℕ
  | .master _ => none
  | .datagram n .. => some n
  | .recv n .. => some n
  | .worker n _ => some n
  | .exit n => some n

/-- A step of a worker changes nothing else. -/
theorem link_of_on (h : SysStep cfg cap s i out s') {n : ℕ} (hn : i.on? = some n) :
    s'.pc = s.pc ∧ s'.clients = s.clients ∧ s'.accepted = s.accepted ∧
      ∀ m, m ≠ n → s'.link m = s.link m := by
  cases h with
  | signal | idle | accepted | unopened | queued | rejected | closed =>
    exact absurd hn (by simp [SysInput.on?])
  | datagram | recv | worker | exit =>
    obtain rfl := Option.some.inj hn
    exact ⟨rfl, rfl, rfl, fun m hm ↦ update_of_ne hm _ _⟩

/-- **A step of a worker that has nothing of the connection** does nothing for it. -/
theorem without_step (hs : s.Inv cfg) (h : SysStep cfg cap s i out s') {n : ℕ}
    (hn : i.on? = some n) (hno : (s.link n).Without id) :
    (s'.link n).Without id ∧ out.turn? id = none ∧
      (s.view cfg cap id i = [] ∨ n = id % cfg.workerCount ∧ s.view cfg cap id i = [.exit]) := by
  cases h with
  | signal | idle | accepted | unopened | queued | rejected | closed =>
    exact absurd hn (by simp [SysInput.on?])
  | datagram m cmsg hill hloop =>
    obtain rfl := Option.some.inj hn
    refine ⟨?_, rfl, .inl rfl⟩
    rw [setLink_link, update_self]
    refine ⟨?_, hno.worker⟩
    rw [queuedIds_append, queuedIds_ill, List.append_nil]
    exact hno.queue
  | recv m r calloc added st st' hloop msg queue lost hdeliver out hstep =>
    obtain rfl := Option.some.inj hn
    have hqueue := hno.queue
    rw [queuedIds_deliver hdeliver, List.mem_append, List.mem_append, not_or, not_or] at hqueue
    obtain ⟨⟨hgets, hlost⟩, hrest⟩ := hqueue
    obtain ⟨hst, w, hw, -⟩ := (hs.link m).running st hloop
    have hnone := (hno.worker w (by rw [Link.worker?, hloop]; exact hw)).heap
    obtain ⟨-, hturn, hnone'⟩ := without_loop hst hw hnone
      (i := .recv msg calloc added) hgets hstep
    refine ⟨?_, hturn, .inl ?_⟩
    · rw [setLink_link, update_self]
      exact ((hs.link m).recv hloop hdeliver hstep).without hrest fun w' hw' ↦ hnone' w' hw'
    · simp only [System.view, hdeliver, if_neg hgets, if_neg hlost]
  | worker m j hj st st' hloop out hstep =>
    obtain rfl := Option.some.inj hn
    obtain ⟨hst, w, hw, -⟩ := (hs.link m).running st hloop
    have hnone := (hno.worker w (by rw [Link.worker?, hloop]; exact hw)).heap
    obtain ⟨hev, hturn, hnone'⟩ := without_loop hst hw hnone
      (by rw [hj]; exact List.not_mem_nil) hstep
    refine ⟨?_, hturn, .inl ?_⟩
    · rw [setLink_link, update_self]
      exact ((hs.link m).worker hj hloop hstep).without hno.queue fun w' hw' ↦ hnone' w' hw'
    · simp only [System.view, hloop, hev, Option.toList_none, List.map_nil]
  | exit m =>
    obtain rfl := Option.some.inj hn
    refine ⟨?_, rfl, ?_⟩
    · rw [setLink_link, update_self]
      exact Link.without_exit _ id
    · by_cases hm : id % cfg.workerCount = m
      · exact .inr ⟨hm.symm, if_pos hm⟩
      · exact .inl (if_neg hm)

theorem view_master {i : MasterInput}
    (hacc : (SysInput.master i).accepts → s.accepted ≠ id) (hno : ¬ s.Dispatches id) :
    s.view cfg cap id (.master i) = [] := by
  cases i with
  | accept4 r =>
    cases r with
    | client cfd => exact if_neg (hacc rfl)
    | again | interrupted | failed => rfl
  | sendFd fails =>
    simp only [System.view]
    split
    · rename_i rest cfd target hpc
      exact if_neg fun hcfd ↦ hno ⟨rest, cfd, target, hpc, hcfd⟩
    · rfl
  | terminate | epollWait | close => rfl

theorem turn?_master {i : MasterInput} (h : SysStep cfg cap s (.master i) out s') :
    out.turn? id = none := by
  cases h <;> rfl

/-- **A step of the master that is not about the connection** leaves it where it is: at most it puts
another one in a queue. -/
theorem master_links {i : MasterInput} (h : SysStep cfg cap s (.master i) out s')
    (hacc : id < s.accepted) (hno : ¬ s.Dispatches id) :
    out.turn? id = none ∧ id < s'.accepted ∧ ¬ s'.Dispatches id ∧
      ∀ n, s'.link n = s.link n ∨ ∃ id', id' ≠ id ∧ s'.link n = (s.link n).push id' := by
  cases h with
  | signal => exact ⟨rfl, hacc, hno, fun n ↦ .inl rfl⟩
  | idle _ hpc pc hpc' =>
    refine ⟨rfl, hacc, ?_, fun n ↦ .inl rfl⟩
    rintro ⟨rest, cfd, target, rfl, -⟩
    exact hpc'
  | accepted rest hpc cfd hcfd =>
    refine ⟨rfl, Nat.lt_succ_of_lt hacc, ?_, fun n ↦ .inl rfl⟩
    rintro ⟨rest', cfd', target', hpc', hcfd'⟩
    obtain ⟨-, rfl, -⟩ := MasterPc.dispatching.inj hpc'
    have hid : update s.clients cfd (some s.accepted) cfd = some id := hcfd'
    rw [update_self, Option.some.injEq] at hid
    exact Nat.ne_of_gt hacc hid
  | unopened | rejected =>
    refine ⟨rfl, hacc, ?_, fun n ↦ .inl rfl⟩
    rintro ⟨rest', cfd', target', hpc', -⟩
    exact absurd hpc' (by simp)
  | queued rest cfd target hpc id' hcfd htakes =>
    refine ⟨rfl, hacc, ?_, fun n ↦ ?_⟩
    · rintro ⟨rest', cfd', target', hpc', -⟩
      exact absurd hpc' (by simp)
    · by_cases hn : n = target
      · subst hn
        exact .inr ⟨id', fun heq ↦ hno ⟨rest, cfd, n, hpc, heq ▸ hcfd⟩, update_self ..⟩
      · exact .inl (update_of_ne hn ..)
  | closed rest cfd hpc =>
    refine ⟨rfl, hacc, ?_, fun n ↦ .inl rfl⟩
    rintro ⟨rest', cfd', target', hpc', -⟩
    exact absurd hpc' (by simp)

theorem Link.Without.push {l : Link} (h : l.Without id) {id' : ConnId} (hne : id' ≠ id) :
    (l.push id').Without id := by
  refine ⟨fun hmem ↦ ?_, h.worker⟩
  rcases List.mem_append.1 ((queuedIds_append l.queue [.rights id']) ▸ hmem) with hmem | hmem
  · exact h.queue hmem
  · exact hne (List.mem_singleton.1 hmem).symm

/-! ### A step, stage by stage -/

/-- What a step is to a connection at a stage: a run of `stageMachine` with the same calls, to where
the connection is next. -/
def StepsTo (cfg : ForgeCfg) (id : ConnId) (stage : Stage) (ins : List StageInput) (t : Option Turn)
    (s' : System) : Prop :=
  ∃ os stage', (stageMachine cfg).run stage ins = some (os, stage') ∧
    os.flatMap Option.toList = t.toList ∧ s'.At cfg id stage'

theorem StepsTo.none {stage : Stage} (h : s'.At cfg id stage) : StepsTo cfg id stage [] none s' :=
  ⟨[], stage, rfl, rfl, h⟩

theorem StepsTo.one {stage stage' : Stage} {i : StageInput} {t : Option Turn}
    (hstep : (stageMachine cfg).step stage i = some (t, stage')) (h : s'.At cfg id stage') :
    StepsTo cfg id stage [i] t s' := by
  refine ⟨[t], stage', ?_, List.flatMap_singleton .., h⟩
  exact (run_cons_eq_some _).2 ⟨t, stage', [], hstep, rfl, rfl⟩

theorem gone_step (hs : s.Inv cfg) (h : SysStep cfg cap s i out s') (hgone : s.Gone id) :
    s'.Gone id ∧ out.turn? id = none ∧
      (s.view cfg cap id i = [] ∨ s.view cfg cap id i = [.exit]) := by
  have hs' := system_inv_step hs h
  obtain ⟨hacc, hletGo, hlink⟩ := hgone
  have hno := hletGo.not_dispatches
  rcases hon : i.on? with - | n
  · cases i with
    | master i =>
      obtain ⟨hturn, hacc', hno', hlink'⟩ := master_links h hacc hno
      refine ⟨⟨hacc', letGo_of_not_dispatches hs' hno', fun n ↦ ?_⟩, hturn,
        .inl (view_master (fun _ ↦ Nat.ne_of_gt hacc) hno)⟩
      rcases hlink' n with heq | ⟨id', hne, heq⟩ <;> rw [heq]
      · exact hlink n
      · exact (hlink n).push hne
    | datagram | recv | worker | exit => exact absurd hon (by simp [SysInput.on?])
  · obtain ⟨hpc, hclients, hacc', hlink'⟩ := link_of_on h hon
    obtain ⟨hwithout, hturn, hview⟩ := without_step hs h hon (hlink n)
    refine ⟨⟨hacc' ▸ hacc, ?_, fun m ↦ ?_⟩, hturn, hview.imp_right And.right⟩
    · rwa [System.LetGo, hpc, hclients]
    · by_cases hm : m = n
      · exact hm ▸ hwithout
      · exact hlink' m hm ▸ hlink m

theorem unborn_step (hs : s.Inv cfg)
    (hstep : (forgeMachine cfg cap).step s i = some (out, s')) (hle : s.accepted ≤ id) :
    StepsTo cfg id .unborn (s.view cfg cap id i) (out.turn? id) s' := by
  have h := sys_cases hstep
  have hs' := system_inv_step hs h
  have hno : ¬ s.Dispatches id := fun hd ↦
    Nat.not_lt.2 hle (accepted_of_dispatches hs hd)
  rcases hon : i.on? with - | n
  · cases i with
    | master i =>
      have hacc := accepted_step hstep
      rw [turn?_master h]
      by_cases hborn : (SysInput.master i).accepts ∧ s.accepted = id
      · cases h with
        | accepted rest hpc cfd hcfd =>
          have hview : s.view cfg cap id (.master (.accept4 (.client cfd))) = [.accepted] :=
            if_pos hborn.2
          rw [hview]
          have hcfd' : update s.clients cfd (some s.accepted) cfd = some id := by
            rw [update_self, hborn.2]
          exact .one rfl (at_inHand hs' ⟨rest, cfd, s.next, rfl, hcfd'⟩)
        | idle _ hpc pc hpc' => exact absurd hpc' (not_idle_of_accepts hborn.1 hstep)
        | signal | unopened | queued | rejected | closed =>
          exact absurd hborn.1 (by simp [SysInput.accepts])
      · rw [view_master (fun hi heq ↦ hborn ⟨hi, heq⟩) hno]
        refine .none (at_unborn hs' ?_)
        by_cases hi : (SysInput.master i).accepts
        · have hne : s.accepted ≠ id := fun heq ↦ hborn ⟨hi, heq⟩
          rw [hacc, if_pos hi]
          exact Nat.lt_of_le_of_ne hle hne
        · rwa [hacc, if_neg hi]
    | datagram | recv | worker | exit => exact absurd hon (by simp [SysInput.on?])
  · obtain ⟨-, -, hacc, -⟩ := link_of_on h hon
    obtain ⟨-, hturn, hview⟩ :=
      without_step hs h hon (without_of_not_sent hs (not_sent_of_unborn hs hle n))
    have hat : s'.At cfg id .unborn := at_unborn hs' (hacc ▸ hle)
    rw [hturn]
    rcases hview with hview | ⟨-, hview⟩ <;> rw [hview]
    · exact .none hat
    · exact .one rfl hat

theorem inHand_step (hs : s.Inv cfg) (h : SysStep cfg cap s i out s') (hd : s.Dispatches id) :
    StepsTo cfg id .inHand (s.view cfg cap id i) (out.turn? id) s' := by
  have hs' := system_inv_step hs h
  have hsent := not_sent_of_dispatches hs hd
  have hacc := accepted_of_dispatches hs hd
  have ⟨rest, cfd, target, hpc, hcfd⟩ := hd
  obtain ⟨-, rfl, -⟩ := inHand_client hs.master.inHand hpc hcfd
  rcases hon : i.on? with - | n
  · cases h with
    | signal => exact .none (at_inHand hs' hd)
    | idle _ hidle =>
      rw [hpc] at hidle
      exact absurd hidle fun h ↦ h
    | accepted rest' hpc' => exact absurd (hpc.symm.trans hpc') (by simp)
    | closed rest' cfd' hpc' => exact absurd (hpc.symm.trans hpc') (by simp)
    | unopened rest' cfd' target' hpc' hcfd' =>
      obtain ⟨-, rfl, -⟩ := MasterPc.dispatching.inj (hpc.symm.trans hpc')
      exact absurd (hcfd.symm.trans hcfd') (by simp)
    | queued rest' cfd' target' hpc' id' hcfd' htakes =>
      obtain ⟨rfl, rfl, rfl⟩ := MasterPc.dispatching.inj (hpc.symm.trans hpc')
      obtain rfl : id = id' := Option.some.inj (hcfd.symm.trans hcfd')
      have hview : s.view cfg cap id (.master (.sendFd false)) = [.offered true] := by
        simp [System.view, hpc, hcfd, htakes]
      rw [hview]
      exact .one rfl (at_queued hs' (mem_queued_push.2 (.inr ⟨rfl, rfl⟩)))
    | rejected rest' cfd' target' hpc' id' hcfd' fails htakes =>
      obtain ⟨rfl, rfl, rfl⟩ := MasterPc.dispatching.inj (hpc.symm.trans hpc')
      obtain rfl : id = id' := Option.some.inj (hcfd.symm.trans hcfd')
      have hview : s.view cfg cap id (.master (.sendFd fails)) = [.offered false] := by
        have hno : ¬ ((s.link (id % cfg.workerCount)).Takes cap ∧ fails = false) := fun ht ↦ by
          rw [htakes ht.1] at ht
          exact absurd ht.2 (by simp)
        simp only [System.view, hpc, hcfd, if_true, decide_eq_false hno]
      rw [hview]
      refine .one rfl (.gone (gone_of_without hs' hacc ?_ (without_of_not_sent hs' (hsent _))))
      rintro ⟨rest', cfd', target', hpc', -⟩
      exact absurd hpc' (by simp)
    | datagram | recv | worker | exit => exact absurd hon (by simp [SysInput.on?])
  · obtain ⟨hpc', hclients, -, -⟩ := link_of_on h hon
    obtain ⟨-, hturn, hview⟩ := without_step hs h hon (without_of_not_sent hs (hsent n))
    have hat : s'.At cfg id .inHand :=
      at_inHand hs' ⟨rest, cfd, _, hpc'.trans hpc, hclients ▸ hcfd⟩
    rw [hturn]
    rcases hview with hview | ⟨-, hview⟩ <;> rw [hview]
    · exact .none hat
    · exact .one rfl hat

/-- One call of `forge_recv_fd` in a worker and what follows it. -/
theorem loop_recv {st st' : LoopState} {m : RecvMsg} {calloc : Option Addr} {added : Bool}
    {o : Option (ConnId × Turn)}
    (hstep : (loopMachine cfg).step st (.recv m calloc added) = some (o, st')) :
    o = none ∧ ∃ w pending, st = .running w true pending ∧
      (0 ≤ forgeRecvFd m → w.table (forgeRecvFd m) = none) ∧ (∀ a ∈ calloc, w.heap a = none) ∧
      ∃ r, recvOne w m calloc added = some r ∧ st' = .running r.1 r.2 pending := by
  rcases st with ⟨w, receiving, pending⟩ | w | -
  · rcases receiving with - | -
    · rcases pending with - | ⟨- | ⟨a, x, flags⟩, pending⟩ <;>
        exact absurd hstep (by simp [loopMachine])
    · simp only [loopMachine] at hstep
      split at hstep
      · rename_i hguard
        obtain ⟨r, hr, -⟩ := recvOne_received hguard.1 hguard.2 added
        rw [hr] at hstep
        obtain ⟨rfl, rfl⟩ := Prod.mk.inj (Option.some.inj hstep)
        exact ⟨rfl, w, pending, rfl, hguard.1, hguard.2, r, hr, rfl⟩
      · exact absurd hstep (by simp)
  · exact absurd hstep (by simp [loopMachine])
  · exact absurd hstep (by simp [loopMachine])

/-- **The worker of a queued connection receives**: it registers the connection, or takes it and
drops it, or takes another datagram or none. -/
theorem taken_link {l : Link} (hl : LinkInv l) (hq : id ∈ queuedIds l.queue)
    {st st' : LoopState} (hloop : l.loop = some st) {r : Receipt} {m : RecvMsg}
    {queue : List Datagram} {lost : List ConnId}
    (hdeliver : deliver r l.queue = some (m, queue, lost)) {calloc : Option Addr} {added : Bool}
    {o : Option (ConnId × Turn)}
    (hstep : (loopMachine cfg).step st (.recv m calloc added) = some (o, st')) :
    (id ∈ m.gets ∧ (calloc.isSome && added) = true ∧ ∃ w a, st'.worker? = some w ∧
        w.heap a = some ⟨id, .fresh (forgeRecvFd m)⟩) ∨
      ((id ∈ m.gets ∧ (calloc.isSome && added) = false ∨ id ∉ m.gets ∧ id ∈ lost) ∧
        Link.Without ⟨some st', queue, l.sent, l.lost ++ lost⟩ id) ∨
      (id ∉ m.gets ∧ id ∉ lost ∧ id ∈ queuedIds queue) := by
  obtain ⟨rfl, w, pending, rfl, htable, hheap, r', hr', rfl⟩ := loop_recv hstep
  have hw : l.worker? = some w := by rw [Link.worker?, hloop]; rfl
  have hnone := (without_of_queued hl hq hw).heap
  have hl' := hl.recv hloop hdeliver hstep
  obtain ⟨-, -, heq⟩ := hl.of_worker hw
  have hnodup := (List.nodup_append.1 (hl.nodup_received heq)).2.1
  rw [queuedIds_deliver hdeliver] at hq hnodup
  obtain ⟨hfront, -, hdisj⟩ := List.nodup_append.1 hnodup
  by_cases hgets : id ∈ m.gets
  · have hrest : id ∉ queuedIds queue := fun hmem ↦
      hdisj id (List.mem_append_left _ hgets) id hmem rfl
    obtain ⟨hpos, rfl⟩ : 0 ≤ forgeRecvFd m ∧ id = m.id := by
      by_cases hneg : forgeRecvFd m < 0
      · rw [RecvMsg.gets, if_pos hneg] at hgets
        exact absurd hgets List.not_mem_nil
      · rw [RecvMsg.gets, if_neg hneg] at hgets
        exact ⟨not_lt.1 hneg, List.mem_singleton.1 hgets⟩
    rcases hadd : calloc.isSome && added with - | -
    · -- no memory, or not registered: it is closed again
      rw [recvOne_refuse hpos (htable hpos) hheap hadd, Option.some.injEq] at hr'
      subst hr'
      refine .inr (.inl ⟨.inl ⟨hgets, rfl⟩, hl'.without hrest fun w' hw' ↦ ?_⟩)
      obtain rfl := Option.some.inj hw'
      exact hnone
    · obtain ⟨hsome, rfl⟩ := Bool.and_eq_true_iff.1 hadd
      obtain ⟨a, rfl⟩ := Option.isSome_iff_exists.1 hsome
      rw [recvOne_adopt hpos, Option.some.injEq] at hr'
      subst hr'
      exact .inl ⟨hgets, rfl, _, a, rfl, update_self ..⟩
  · -- what the worker has afterwards it had before, or has just received
    have hinv := (hl.running _ hloop).1
    obtain ⟨-, -, hnone'⟩ := without_loop hinv rfl hnone (i := .recv m calloc added) hgets hstep
    by_cases hlost : id ∈ lost
    · have hrest : id ∉ queuedIds queue := fun hmem ↦
        hdisj id (List.mem_append_right _ hlost) id hmem rfl
      exact .inr (.inl ⟨.inr ⟨hgets, hlost⟩, hl'.without hrest fun w' hw' ↦ hnone' w' hw'⟩)
    · have hno : id ∉ m.gets ++ lost := by simp [hgets, hlost]
      exact .inr (.inr ⟨hgets, hlost, (List.mem_append.1 hq).resolve_left hno⟩)

theorem queued_step (hs : s.Inv cfg) (h : SysStep cfg cap s i out s')
    (hq : id ∈ queuedIds (s.link (id % cfg.workerCount)).queue) :
    StepsTo cfg id .queued (s.view cfg cap id i) (out.turn? id) s' := by
  have hs' := system_inv_step hs h
  have hsent := hs.master.queued _ id hq
  have hacc := (hs.master.sent _ id hsent).1
  have hno := not_dispatches_of_sent hs hsent
  rcases hon : i.on? with - | n
  · cases i with
    | master i =>
      obtain ⟨hturn, -, -, hlink⟩ := master_links h hacc hno
      rw [hturn, view_master (fun _ ↦ Nat.ne_of_gt hacc) hno]
      refine .none (at_queued hs' ?_)
      rcases hlink (id % cfg.workerCount) with heq | ⟨id', -, heq⟩ <;> rw [heq]
      · exact hq
      · exact queuedIds_append _ [.rights id'] ▸ List.mem_append_left _ hq
    | datagram | recv | worker | exit => exact absurd hon (by simp [SysInput.on?])
  obtain ⟨hpc', hclients, hacc', hlink⟩ := link_of_on h hon
  have hno' : ¬ s'.Dispatches id := by rwa [System.Dispatches, hpc', hclients]
  by_cases hn : n = id % cfg.workerCount
  · subst hn
    cases h with
    | signal | idle | accepted | unopened | queued | rejected | closed =>
      exact absurd hon (by simp [SysInput.on?])
    | datagram n cmsg hill hloop =>
      obtain rfl := Option.some.inj hon
      refine .none (at_queued hs' ?_)
      rw [setLink_link, update_self]
      exact queuedIds_append _ [.ill cmsg hill] ▸ List.mem_append_left _ hq
    | recv n r calloc added st st' hloop m queue lost hdeliver o hstep =>
      obtain rfl := Option.some.inj hon
      have hturn : (SysOutput.worker (id % cfg.workerCount) o).turn? id = none := by
        obtain ⟨rfl, -⟩ := loop_recv hstep
        rfl
      rw [hturn, System.view, hdeliver]
      dsimp only
      rcases taken_link (hs.link _) hq hloop hdeliver hstep with ⟨hgets, hadd, w, a, hw, ho⟩ |
        ⟨hwhy, hwithout⟩ | ⟨hgets, hlost, hrest⟩
      · rw [if_pos hgets, if_pos hadd]
        refine .one rfl (at_registered hs' ?_ ho)
        rw [setLink_link, update_self]
        exact hw
      · have hgone := gone_of_without hs' (hacc' ▸ hacc) hno'
          (by rw [setLink_link, update_self]; exact hwithout)
        rcases hwhy with ⟨hgets, hadd⟩ | ⟨hgets, hlost⟩
        · rw [if_pos hgets, hadd]
          exact .one rfl (.gone hgone)
        · rw [if_neg hgets, if_pos hlost]
          exact .one rfl (.gone hgone)
      · rw [if_neg hgets, if_neg hlost]
        refine .none (at_queued hs' ?_)
        rw [setLink_link, update_self]
        exact hrest
    | worker n j hj st st' hloop o hstep =>
      obtain rfl := Option.some.inj hon
      obtain ⟨hst, w, hw, -⟩ := (hs.link _).running st hloop
      have hworker : (s.link (id % cfg.workerCount)).worker? = some w := by
        rw [Link.worker?, hloop]
        exact hw
      have hnone := (without_of_queued (hs.link _) hq hworker).heap
      obtain ⟨hev, hturn, -⟩ := without_loop hst hw hnone
        (by rw [hj]; exact List.not_mem_nil) hstep
      have hview : s.view cfg cap id (.worker (id % cfg.workerCount) j) = [] := by
        simp only [System.view, hloop, hev, Option.toList_none, List.map_nil]
      rw [hview, SysOutput.turn?, hturn]
      refine .none (at_queued hs' ?_)
      rw [setLink_link, update_self]
      exact hq
    | exit n =>
      obtain rfl := Option.some.inj hon
      rw [System.view, if_pos rfl]
      refine .one rfl (.gone (gone_of_without hs' (hacc' ▸ hacc) hno' ?_))
      rw [setLink_link, update_self]
      exact Link.without_exit _ id
  · obtain ⟨-, hturn, hview⟩ := without_step hs h hon (without_other hs hn)
    rw [hturn, hview.resolve_right fun h ↦ hn h.1]
    exact .none (at_queued hs' (hlink _ (Ne.symm hn) ▸ hq))

/-- **The worker of a served connection takes a step**: none of the connection, or what the machine
of a single connection does. -/
theorem served_loop {l : Link} (hl : LinkInv l) {st st' : LoopState} (hloop : l.loop = some st)
    {w : Worker} (hw : st.worker? = some w) {a : Addr} {c : ForgeConn}
    (ho : w.heap a = some ⟨id, c⟩) {i : LoopInput} {o : Option (ConnId × Turn)}
    (hstep : (loopMachine cfg).step st i = some (o, st')) :
    (st.event? id i = none ∧ turn? id o = none ∧
        ∀ w', st'.worker? = some w' → w'.heap a = some ⟨id, c⟩) ∨
      ∃ e, st.event? id i = some e ∧ turn? id o = some (clientEvent cfg e c) ∧
        ((∃ c' w', (clientEvent cfg e c).next = .registered c' ∧ st'.worker? = some w' ∧
            w'.heap a = some ⟨id, c'⟩) ∨
          ((clientEvent cfg e c).next = .closed ∧
            ∀ w', st'.worker? = some w' → ∀ b o', w'.heap b = some o' → o'.id ≠ id) ∨
          ∃ w', (clientEvent cfg e c).next = .sending ∧ st' = .sending w' ∧
            w'.heap a = some ⟨id, c⟩) := by
  cases st with
  | fault => exact absurd hw (by simp [LoopState.worker?])
  | sending w₀ => exact absurd hstep (by simp [loopMachine])
  | running w₀ receiving pending =>
    obtain rfl : w₀ = w := Option.some.inj hw
    obtain ⟨hinv, w', hw', hledger, -⟩ := hl.running _ hloop
    obtain rfl : w₀ = w' := Option.some.inj hw'
    have hs : Sound [] w₀ pending :=
      ⟨hinv.1, hinv.2, hledger, fun _ hfd ↦ absurd hfd List.not_mem_nil⟩
    rcases live_step hs ho hstep with hother | ⟨e, hev, hturn, -, hnext⟩
    · exact .inl hother
    refine .inr ⟨e, hev, hturn, ?_⟩
    rcases hnext with ⟨c', pending', hc', -, rfl⟩ | ⟨pending', hc', rfl⟩ | ⟨w', hc', rfl⟩
    · exact .inl ⟨c', _, hc', rfl, update_self ..⟩
    · refine .inr (.inl ⟨hc', fun w' hw' b o' ho' hid ↦ ?_⟩)
      obtain rfl := Option.some.inj hw'
      obtain ⟨hb, ho'⟩ := update_none_eq_some.1 ho'
      exact hb (hs.id_injective ho' ho hid)
    · have hcases := loop_cases hs.inv hs.pending hstep
      cases hcases with
      | sending => exact .inr (.inr ⟨_, hc', rfl, ho⟩)

/-- **A step, from a connection that its worker has**, where the worker's own steps are given. -/
theorem served_other (hs : s.Inv cfg) (h : SysStep cfg cap s i out s') {w : Worker}
    (hw : (s.link (id % cfg.workerCount)).worker? = some w) {a : Addr} {c : ForgeConn}
    (ho : w.heap a = some ⟨id, c⟩) :
    (s.view cfg cap id i = [] ∧ out.turn? id = none ∧
        (s'.link (id % cfg.workerCount)).loop = (s.link (id % cfg.workerCount)).loop) ∨
      (s.view cfg cap id i = [.exit] ∧ out.turn? id = none ∧ s'.Gone id) ∨
      ∃ st j o st', (s.link (id % cfg.workerCount)).loop = some st ∧
        (loopMachine cfg).step st j = some (o, st') ∧
        (s'.link (id % cfg.workerCount)).loop = some st' ∧
        s.view cfg cap id i = (st.event? id j).toList.map .event ∧ out.turn? id = turn? id o ∧
        id < s'.accepted ∧ ¬ s'.Dispatches id ∧
        id ∉ queuedIds (s'.link (id % cfg.workerCount)).queue := by
  have hs' := system_inv_step hs h
  obtain ⟨⟨hacc, hletGo, -⟩, hq, -⟩ := sent_of_heap hs hw ho
  have hno := hletGo.not_dispatches
  rcases hon : i.on? with - | n
  · cases i with
    | master i =>
      obtain ⟨hturn, -, -, hlink⟩ := master_links h hacc hno
      refine .inl ⟨view_master (fun _ ↦ Nat.ne_of_gt hacc) hno, hturn, ?_⟩
      rcases hlink (id % cfg.workerCount) with heq | ⟨id', -, heq⟩ <;> rw [heq]
      rfl
    | datagram | recv | worker | exit => exact absurd hon (by simp [SysInput.on?])
  obtain ⟨hpc', hclients, hacc', hlink⟩ := link_of_on h hon
  have hno' : ¬ s'.Dispatches id := by rwa [System.Dispatches, hpc', hclients]
  by_cases hn : n = id % cfg.workerCount
  · subst hn
    cases h with
    | signal | idle | accepted | unopened | queued | rejected | closed =>
      exact absurd hon (by simp [SysInput.on?])
    | datagram n cmsg hill hloop =>
      obtain rfl := Option.some.inj hon
      exact .inl ⟨rfl, rfl, by rw [setLink_link, update_self]⟩
    | recv n r calloc added st st' hloop m queue lost hdeliver o hstep =>
      obtain rfl := Option.some.inj hon
      rw [queuedIds_deliver hdeliver, List.mem_append, List.mem_append, not_or, not_or] at hq
      refine .inr (.inr ⟨st, _, o, st', hloop, hstep, by rw [setLink_link, update_self], ?_, rfl,
        hacc' ▸ hacc, hno', by rw [setLink_link, update_self]; exact hq.2⟩)
      obtain ⟨-, w', pending, rfl, -⟩ := loop_recv hstep
      rw [System.view, hdeliver]
      dsimp only
      rw [if_neg hq.1.1, if_neg hq.1.2]
      rcases pending with - | ⟨- | ⟨b, x, flags⟩, pending⟩ <;> rfl
    | worker n j hj st st' hloop o hstep =>
      obtain rfl := Option.some.inj hon
      refine .inr (.inr ⟨st, j, o, st', hloop, hstep, by rw [setLink_link, update_self], ?_, rfl,
        hacc' ▸ hacc, hno', by rw [setLink_link, update_self]; exact hq⟩)
      rw [System.view, hloop]
    | exit n =>
      obtain rfl := Option.some.inj hon
      refine .inr (.inl ⟨if_pos rfl, rfl, gone_of_without hs' (hacc' ▸ hacc) hno' ?_⟩)
      rw [setLink_link, update_self]
      exact Link.without_exit _ id
  · obtain ⟨-, hturn, hview⟩ := without_step hs h hon (without_other hs hn)
    refine .inl ⟨hview.resolve_right fun h ↦ hn h.1, hturn, ?_⟩
    rw [hlink _ (Ne.symm hn)]

theorem registered_step (hs : s.Inv cfg) (h : SysStep cfg cap s i out s') {w : Worker}
    (hw : (s.link (id % cfg.workerCount)).worker? = some w) {a : Addr} {c : ForgeConn}
    (ho : w.heap a = some ⟨id, c⟩) :
    StepsTo cfg id (.served (.registered c)) (s.view cfg cap id i) (out.turn? id) s' := by
  have hs' := system_inv_step hs h
  rcases served_other hs h hw ho with ⟨hview, hturn, hloop⟩ | ⟨hview, hturn, hgone⟩ |
    ⟨st, j, o, st', hloop, hstep, hloop', hview, hturn, hacc, hno, hq⟩
  · rw [hview, hturn]
    exact .none (at_registered hs' (by rwa [Link.worker?, hloop]) ho)
  · rw [hview, hturn]
    exact .one rfl (.gone hgone)
  have hw₀ : st.worker? = some w := by rw [Link.worker?, hloop] at hw; exact hw
  rw [hview, hturn]
  rcases served_loop (hs.link _) hloop hw₀ ho hstep with ⟨hev, hturn', hkeep⟩ |
    ⟨e, hev, hturn', hnext⟩ <;> rw [hev, hturn']
  · -- a step of the worker for another connection
    obtain ⟨hinv', w', hw', -⟩ := (hs'.link _).running st' hloop'
    refine .none (at_registered hs' ?_ (hkeep w' hw'))
    rw [Link.worker?, hloop']
    exact hw'
  · have hone : (stageMachine cfg).step (.served (.registered c)) (.event e) =
        some (some (clientEvent cfg e c), .served (clientEvent cfg e c).next) := rfl
    have hworker : ∀ w', st'.worker? = some w' →
        (s'.link (id % cfg.workerCount)).worker? = some w' := fun w' hw' ↦ by
      rw [Link.worker?, hloop']
      exact hw'
    rcases hnext with ⟨c', w', hc', hw', ho'⟩ | ⟨hc', hnone⟩ | ⟨w', hc', rfl, ho'⟩ <;>
      rw [hc'] at hone
    · exact .one hone (at_registered hs' (hworker w' hw') ho')
    · refine .one hone (.closed (gone_of_without hs' hacc hno ?_))
      refine (hs'.link _).without hq fun w' hw' ↦ hnone w' ?_
      rwa [Link.worker?, hloop'] at hw'
    · exact .one hone (at_sending hs' hloop' ho')

theorem sending_step (hs : s.Inv cfg) (h : SysStep cfg cap s i out s') {w : Worker}
    (hloop : (s.link (id % cfg.workerCount)).loop = some (.sending w)) {a : Addr} {c : ForgeConn}
    (ho : w.heap a = some ⟨id, c⟩) :
    StepsTo cfg id (.served .sending) (s.view cfg cap id i) (out.turn? id) s' := by
  have hs' := system_inv_step hs h
  have hw : (s.link (id % cfg.workerCount)).worker? = some w := by rw [Link.worker?, hloop]; rfl
  rcases served_other hs h hw ho with ⟨hview, hturn, hloop'⟩ | ⟨hview, hturn, hgone⟩ |
    ⟨st, j, o, st', hloop', hstep, -⟩
  · rw [hview, hturn]
    exact .none (at_sending hs' (hloop'.trans hloop) ho)
  · rw [hview, hturn]
    exact .one rfl (.gone hgone)
  · obtain rfl := Option.some.inj (hloop.symm.trans hloop')
    exact absurd hstep (by simp [loopMachine])

/-- **The step lemma**: whatever the step, the connection goes on from where it is. -/
theorem at_step (hs : s.Inv cfg) (hstep : (forgeMachine cfg cap).step s i = some (out, s'))
    {stage : Stage} (hat : s.At cfg id stage) :
    StepsTo cfg id stage (s.view cfg cap id i) (out.turn? id) s' := by
  have h := sys_cases hstep
  cases hat with
  | unborn hle => exact unborn_step hs hstep hle
  | inHand hd => exact inHand_step hs h hd
  | queued _ hq => exact queued_step hs h hq
  | registered _ _ w hw a c ho => exact registered_step hs h hw ho.heap
  | sending _ _ w hloop a c ho => exact sending_step hs h hloop ho.heap
  | closed hgone =>
    obtain ⟨hgone', hturn, hview⟩ := gone_step hs h hgone
    rw [hturn]
    rcases hview with hview | hview <;> rw [hview]
    · exact .none (.closed hgone')
    · exact .one rfl (.gone hgone')
  | gone hgone =>
    obtain ⟨hgone', hturn, hview⟩ := gone_step hs h hgone
    rw [hturn]
    rcases hview with hview | hview <;> rw [hview]
    · exact .none (.gone hgone')
    · exact .one rfl (.gone hgone')

/-! ### Every run -/

/-- What happens to the connection `id` in a run of the server. -/
def lifeOf (cfg : ForgeCfg) (cap : ℕ) (fds : List ℤ) (id : ConnId) (is : List SysInput) :
    List StageInput :=
  (forgeMachine cfg cap).viewed (System.view cfg cap id) (.start cfg fds) is

/-- From any state the system can be in, with the connection at any stage. -/
theorem life_run {is : List SysInput} {outs : List SysOutput} {stage : Stage} (hs : s.Inv cfg)
    (hat : s.At cfg id stage) (hrun : (forgeMachine cfg cap).run s is = some (outs, s')) :
    ∃ os stage', (stageMachine cfg).run stage
        ((forgeMachine cfg cap).viewed (System.view cfg cap id) s is) = some (os, stage') ∧
      os.reduceOption = servedTurns id outs ∧ s'.At cfg id stage' := by
  have hone : ∀ s stage i o s', s.Inv cfg ∧ s.At cfg id stage →
      (forgeMachine cfg cap).step s i = some (o, s') →
      ∃ os stage', (stageMachine cfg).run stage (s.view cfg cap id i) = some (os, stage') ∧
        os.flatMap Option.toList = (o.turn? id).toList ∧ s'.Inv cfg ∧ s'.At cfg id stage' := by
    rintro s stage i o s' ⟨hs, hat⟩ hstep
    obtain ⟨os, stage', hstage, hout, hat'⟩ := at_step hs hstep hat
    exact ⟨os, stage', hstage, hout, system_inv_step hs (sys_cases hstep), hat'⟩
  obtain ⟨os, stage', hstage, hout, -, hat'⟩ :=
    run_simulates (fun o ↦ (o.turn? id).toList) Option.toList hone ⟨hs, hat⟩ hrun
  refine ⟨os, stage', hstage, ?_, hat'⟩
  change os.filterMap (fun o ↦ o) = _
  rw [List.filterMap_eq_flatMap_toList, servedTurns, List.filterMap_eq_flatMap_toList]
  exact hout

theorem life_run_start {fds : List ℤ} {is : List SysInput} {outs : List SysOutput}
    (hrun : (forgeMachine cfg cap).run (.start cfg fds) is = some (outs, s)) (id : ConnId) :
    ∃ os stage, (stageMachine cfg).run .unborn (lifeOf cfg cap fds id is) = some (os, stage) ∧
      os.reduceOption = servedTurns id outs ∧ s.At cfg id stage :=
  life_run (.start cfg fds) (at_unborn (.start cfg fds) (Nat.zero_le _)) hrun

/-! ### The refinement -/

/-- A connection that is accepted, sent to worker 0 and registered by it under descriptor 5, and is
readable then. -/
def oneRegistered : List SysInput :=
  [.master (.epollWait (.events 1)), .master (.accept4 (.client 9)), .master (.sendFd false),
    .worker 0 (.wait [.control]), .worker 0 .enter, .recv 0 (.installed 5) (some 64) true,
    .master .close, .recv 0 .failed none false,
    .worker 0 (.wait [.client 5 ⟨true, false, false, false⟩])]

/-- Its event is handled. -/
def oneClient (k : Kernel) : List SysInput := oneRegistered ++ [.worker 0 (.client k)]

theorem lifeOf_oneClient (k : Kernel) :
    lifeOf {} 10 [3, 4] 0 (oneClient k) =
      [.accepted, .offered true, .taken (some 5), .event (.readable k)] := by
  obtain ⟨outs, s, hrun, hview⟩ : ∃ outs s,
      (forgeMachine {} 10).run (.start {} [3, 4]) oneRegistered = some (outs, s) ∧
        s.view {} 10 0 (.worker 0 (.client k)) = [.event (.readable k)] := ⟨_, _, rfl, rfl⟩
  rw [lifeOf, oneClient, viewed_concat hrun, hview]
  rfl

/-- The client asks for a file, which is sent under descriptor 7. -/
theorem run_oneClient :
    ∃ outs s, (forgeMachine {} 10).run (.start {} [3, 4])
      (oneClient (.serving (ascii "GET /a HTTP/1.1\r\n\r\n"))) = some (outs, s) := by
  have hsome : ((forgeMachine {} 10).run (.start {} [3, 4])
      (oneClient (.serving (ascii "GET /a HTTP/1.1\r\n\r\n")))).isSome := by
    decide +kernel
  obtain ⟨⟨outs, s⟩, hrun⟩ := Option.isSome_iff_exists.1 hsome
  exact ⟨outs, s, hrun⟩

/-- What is done for the client is what a connection alone does. -/
theorem servedTurns_oneClient {k : Kernel} {outs : List SysOutput} {s : System}
    (hrun : (forgeMachine {} 10).run (.start {} [3, 4]) (oneClient k) = some (outs, s)) :
    servedTurns 0 outs = [handleRead {} k (.fresh 5)] := by
  obtain ⟨os, stage, hstage, hturns, -⟩ := life_run_start hrun 0
  have hlife : (stageMachine {}).run .unborn (lifeOf {} 10 [3, 4] 0 (oneClient k)) =
      some ([none, none, none, some (handleRead {} k (.fresh 5))],
        .served (handleRead {} k (.fresh 5)).next) := by
    rw [lifeOf_oneClient]
    rfl
  obtain ⟨rfl, -⟩ := Prod.mk.inj (Option.some.inj (hstage.symm.trans hlife))
  exact hturns.symm

end ForgeServer
