import Mathlib.Data.List.Nodup
import ForgeServer.Worker.EventLoop

/-!
# The bookkeeping of a worker

The allocated connections, the registered descriptors and the open client descriptors correspond one
to one (`WorkerInv`), and the events of the batch still to be processed are events of live
connections, no two of the same one (`PendingInv`): so an address or a descriptor number that is
used again within a batch is never taken for the old one. `loop_cases` is the inversion of one step
under the invariant; `bookkeeping_exact` is the result on every run.
-/

namespace ForgeServer

open Function

/-- **The correspondence** between objects, entries and descriptors. -/
structure WorkerInv (w : Worker) : Prop where
  /-- What is allocated is a connection that is registered and open, and satisfies the buffer
  invariant. -/
  holds : ∀ a o, w.heap a = some o → w.Holds a o ∧ ConnInv o.conn
  /-- What is registered is allocated. -/
  registered : ∀ fd e, w.interest fd = some e →
    ∃ o, w.heap e.ptr = some o ∧ o.id = e.id ∧ o.conn.fd = fd
  /-- What is open is allocated. -/
  opened : ∀ fd id, w.table fd = some (.conn id) →
    ∃ a o, w.heap a = some o ∧ o.id = id ∧ o.conn.fd = fd

/-- The events still to be processed: of live connections, no two of the same. -/
structure PendingInv (w : Worker) (pending : List Ready) : Prop where
  nodup : (clientPtrs pending).Nodup
  live : ∀ a id flags, .client a id flags ∈ pending → ∃ o, w.heap a = some o ∧ o.id = id

namespace WorkerInv

variable {w : Worker} {a : Addr} {o : Obj}

theorem start (fds : List ℤ) : WorkerInv (.start fds) where
  holds _ _ h := absurd h (by simp [Worker.start])
  registered _ _ h := absurd h (by simp [Worker.start])
  opened fd id h := by
    simp only [Worker.start] at h
    split at h <;> simp at h

/-- No two live connections share a descriptor. -/
theorem fd_injective (h : WorkerInv w) {a' : Addr} {o' : Obj} (ha : w.heap a = some o)
    (ha' : w.heap a' = some o') (hfd : o.conn.fd = o'.conn.fd) : a = a' := by
  have h₁ := (h.holds a o ha).1.interest
  have h₂ := (h.holds a' o' ha').1.interest
  rw [hfd, h₂, Option.some.injEq, Entry.mk.injEq] at h₁
  exact h₁.1.symm

/-- A number that is not open is not the number of a connection. -/
theorem fd_ne (h : WorkerInv w) {fd : ℤ} (hfd : w.table fd = none) (ha : w.heap a = some o) :
    o.conn.fd ≠ fd := by
  rintro rfl
  rw [(h.holds a o ha).1.table] at hfd
  exact absurd hfd (by simp)

/-- The three maps of the resources agree with those of `w`, whatever was logged. -/
theorem congr (h : WorkerInv w) {w' : Worker} (hheap : w'.heap = w.heap)
    (hinterest : w'.interest = w.interest) (htable : w'.table = w.table) : WorkerInv w' where
  holds a o ha := by
    rw [hheap] at ha
    obtain ⟨⟨-, hi, ht, hfd⟩, hc⟩ := h.holds a o ha
    exact ⟨⟨by rw [hheap, ha], by rw [hinterest, hi], by rw [htable, ht], hfd⟩, hc⟩
  registered fd e he := by
    rw [hinterest] at he
    rw [hheap]
    exact h.registered fd e he
  opened fd id hfd := by
    rw [htable] at hfd
    rw [hheap]
    exact h.opened fd id hfd

theorem refuse (h : WorkerInv w) (id : ConnId) : WorkerInv (w.refuse id) :=
  h.congr rfl rfl rfl

/-- **A new connection** at an address and a descriptor number that are free. -/
theorem adopt (h : WorkerInv w) {fd : ℤ} (ha : w.heap a = none) (hfd : w.table fd = none)
    (hpos : 0 ≤ fd) (id : ConnId) : WorkerInv (w.adopt a fd id) where
  holds b p hb := by
    by_cases hba : b = a
    · subst hba
      obtain rfl : (⟨id, .fresh fd⟩ : Obj) = p := by simpa using hb
      exact ⟨⟨hb, update_self .., update_self .., hpos⟩, ConnInv.fresh fd⟩
    · have hb' : w.heap b = some p := by rwa [adopt_heap, update_of_ne hba] at hb
      obtain ⟨⟨-, hi, ht, hp⟩, hc⟩ := h.holds b p hb'
      have hne := h.fd_ne hfd hb'
      refine ⟨⟨hb, ?_, ?_, hp⟩, hc⟩
      · rw [adopt_interest, update_of_ne hne, hi]
      · rw [adopt_table, update_of_ne hne, ht]
  registered fd' e he := by
    by_cases hne : fd' = fd
    · subst hne
      obtain rfl : (⟨a, id⟩ : Entry) = e := by simpa using he
      exact ⟨_, update_self .., rfl, rfl⟩
    · rw [adopt_interest, update_of_ne hne] at he
      obtain ⟨p, hp, hid, hpfd⟩ := h.registered fd' e he
      have hea : e.ptr ≠ a := ne_of_apply_ne w.heap (by rw [hp, ha]; simp)
      exact ⟨p, by rw [adopt_heap, update_of_ne hea, hp], hid, hpfd⟩
  opened fd' id' hfd' := by
    by_cases hne : fd' = fd
    · subst hne
      obtain rfl : id = id' := by simpa using hfd'
      exact ⟨a, _, update_self .., rfl, rfl⟩
    · rw [adopt_table, update_of_ne hne] at hfd'
      obtain ⟨b, p, hp, hid, hpfd⟩ := h.opened fd' id' hfd'
      have hba : b ≠ a := ne_of_apply_ne w.heap (by rw [hp, ha]; simp)
      exact ⟨b, p, by rw [adopt_heap, update_of_ne hba, hp], hid, hpfd⟩

/-- **A connection is released.** -/
theorem release (h : WorkerInv w) (ha : w.heap a = some o) : WorkerInv (w.release a o) where
  holds b p hb := by
    obtain ⟨hba, hb'⟩ := update_none_eq_some.1 hb
    obtain ⟨⟨-, hi, ht, hp⟩, hc⟩ := h.holds b p hb'
    have hne : p.conn.fd ≠ o.conn.fd := fun heq ↦ hba (h.fd_injective hb' ha heq)
    refine ⟨⟨hb, ?_, ?_, hp⟩, hc⟩
    · rw [Worker.release_interest, update_of_ne hne, hi]
    · rw [Worker.release_table, update_of_ne hne, ht]
  registered fd e he := by
    obtain ⟨hne, he⟩ := update_none_eq_some.1 he
    obtain ⟨p, hp, hid, hpfd⟩ := h.registered fd e he
    have hea : e.ptr ≠ a := fun heq ↦ by
      rw [heq, ha, Option.some.injEq] at hp
      exact hne (by rw [← hpfd, ← hp])
    exact ⟨p, by rw [Worker.release_heap, update_of_ne hea, hp], hid, hpfd⟩
  opened fd id hfd := by
    obtain ⟨hne, hfd⟩ := update_none_eq_some.1 hfd
    obtain ⟨b, p, hp, hid, hpfd⟩ := h.opened fd id hfd
    have hba : b ≠ a := fun heq ↦ by
      rw [heq, ha, Option.some.injEq] at hp
      exact hne (by rw [← hpfd, ← hp])
    exact ⟨b, p, by rw [Worker.release_heap, update_of_ne hba, hp], hid, hpfd⟩

/-- **A connection is kept**, with what its call has made of it. -/
theorem put (h : WorkerInv w) (ha : w.heap a = some o) {c : ForgeConn} (hc : ConnInv c)
    (hfd : c.fd = o.conn.fd) : WorkerInv (w.put a ⟨o.id, c⟩) where
  holds b p hb := by
    by_cases hba : b = a
    · subst hba
      obtain rfl : (⟨o.id, c⟩ : Obj) = p := by simpa using hb
      obtain ⟨⟨-, hi, ht, hp⟩, -⟩ := h.holds b o ha
      exact ⟨⟨hb, by rw [put_interest, hfd, hi], by rw [put_table, hfd, ht],
        by rw [hfd]; exact hp⟩, hc⟩
    · have hb' : w.heap b = some p := by rwa [put_heap, update_of_ne hba] at hb
      obtain ⟨⟨-, hi, ht, hp⟩, hcp⟩ := h.holds b p hb'
      exact ⟨⟨hb, hi, ht, hp⟩, hcp⟩
  registered fd e he := by
    obtain ⟨p, hp, hid, hpfd⟩ := h.registered fd e he
    by_cases hea : e.ptr = a
    · rw [hea, ha, Option.some.injEq] at hp
      subst hp
      exact ⟨⟨o.id, c⟩, by rw [hea, put_heap, update_self], hid, hfd.trans hpfd⟩
    · exact ⟨p, by rw [put_heap, update_of_ne hea, hp], hid, hpfd⟩
  opened fd id ht := by
    obtain ⟨b, p, hp, hid, hpfd⟩ := h.opened fd id ht
    by_cases hba : b = a
    · rw [hba, ha, Option.some.injEq] at hp
      subst hp
      exact ⟨a, ⟨o.id, c⟩, update_self .., hid, hfd.trans hpfd⟩
    · exact ⟨b, p, by rw [put_heap, update_of_ne hba, hp], hid, hpfd⟩

/-- **A document is opened**, under a number that is not open. -/
theorem withFile (h : WorkerInv w) {fd : ℤ} (hfree : w.table fd = none) :
    WorkerInv (w.withFile fd) where
  holds a o ha := by
    obtain ⟨⟨hh, hi, ht, hp⟩, hc⟩ := h.holds a o ha
    have hne := h.fd_ne hfree ha
    refine ⟨⟨hh, hi, ?_, hp⟩, hc⟩
    show update w.table fd _ _ = _
    rw [update_of_ne hne, ht]
  registered := h.registered
  opened fd' id hfd' := by
    have hfd' : update w.table fd (some .other) fd' = some (.conn id) := hfd'
    by_cases hne : fd' = fd
    · rw [hne, update_self] at hfd'
      exact absurd hfd' (by simp)
    · rw [update_of_ne hne] at hfd'
      exact h.opened fd' id hfd'

end WorkerInv

namespace PendingInv

variable {w w' : Worker} {pending : List Ready}

theorem nil : PendingInv w [] := ⟨List.nodup_nil, by simp⟩

/-- The control event has been taken up. -/
theorem of_control (h : PendingInv w (.control :: pending)) : PendingInv w pending :=
  ⟨h.nodup, fun a id flags hmem ↦ h.live a id flags (List.mem_cons_of_mem _ hmem)⟩

theorem mem_clientPtrs {a : Addr} {id : ConnId} {flags : Flags}
    (h : .client a id flags ∈ pending) : a ∈ clientPtrs pending :=
  List.mem_filterMap.2 ⟨_, h, rfl⟩

/-- The event of a client has been taken up: the connection has no other one. -/
theorem of_client {a : Addr} {id : ConnId} {flags : Flags}
    (h : PendingInv w (.client a id flags :: pending)) :
    a ∉ clientPtrs pending ∧ PendingInv w pending :=
  ⟨(List.nodup_cons.1 h.nodup).1, (List.nodup_cons.1 h.nodup).2,
    fun a' id' flags' hmem ↦ h.live a' id' flags' (List.mem_cons_of_mem _ hmem)⟩

/-- The events stay events of live connections while these stay where they are. -/
theorem of_live (h : PendingInv w pending)
    (hlive : ∀ a ∈ clientPtrs pending, ∀ o, w.heap a = some o → w'.heap a = some o) :
    PendingInv w' pending := by
  refine ⟨h.nodup, fun a id flags hmem ↦ ?_⟩
  obtain ⟨o, ho, hid⟩ := h.live a id flags hmem
  exact ⟨o, hlive a (mem_clientPtrs hmem) o ho, hid⟩

/-- A change at an address that no event has. -/
theorem update (h : PendingInv w pending) {a : Addr} (ha : a ∉ clientPtrs pending) {x : Option Obj}
    (hheap : w'.heap = Function.update w.heap a x) : PendingInv w' pending := by
  refine h.of_live fun b hb o ho ↦ ?_
  have hba : b ≠ a := fun heq ↦ ha (heq ▸ hb)
  rw [hheap, update_of_ne hba, ho]

/-- A new connection: its address was free, so no event has it. -/
theorem not_mem_clientPtrs (h : PendingInv w pending) {a : Addr} (ha : w.heap a = none) :
    a ∉ clientPtrs pending := by
  intro hmem
  obtain ⟨e, he, hptr⟩ := List.mem_filterMap.1 hmem
  rcases e with - | ⟨a', id, flags⟩
  · exact absurd hptr (by simp)
  · obtain rfl := Option.some.inj hptr
    obtain ⟨o, ho, -⟩ := h.live _ id flags he
    rw [ha] at ho
    exact absurd ho (by simp)

/-- **A batch of registered descriptors**, each at most once, gives events of live connections, each
of another one. -/
theorem of_batch (hw : WorkerInv w) {batch : List Reported} (hnodup : (clientFds batch).Nodup) :
    PendingInv w (batch.filterMap w.ready) := by
  constructor
  · have hptrs : clientPtrs (batch.filterMap w.ready) =
        (clientFds batch).filterMap fun fd ↦ (w.interest fd).map Entry.ptr := by
      rw [clientPtrs, clientFds, List.filterMap_filterMap, List.filterMap_filterMap]
      refine List.filterMap_congr fun r _ ↦ ?_
      rcases r with - | ⟨fd, flags⟩
      · rfl
      · rcases h : w.interest fd with - | e <;> simp [Worker.ready, h]
    rw [hptrs]
    -- two descriptors registered for one address are the descriptor of its object
    refine List.Nodup.filterMap (fun fd fd' a hfd hfd' ↦ ?_) hnodup
    obtain ⟨e, he, rfl⟩ := Option.map_eq_some_iff.1 hfd
    obtain ⟨e', he', heq⟩ := Option.map_eq_some_iff.1 hfd'
    obtain ⟨o, ho, -, rfl⟩ := hw.registered fd e he
    obtain ⟨o', ho', -, rfl⟩ := hw.registered fd' e' he'
    rw [heq, ho, Option.some.injEq] at ho'
    rw [ho']
  · intro a id flags hmem
    obtain ⟨r, -, hready⟩ := List.mem_filterMap.1 hmem
    rcases r with - | ⟨fd, flags'⟩
    · exact absurd hready (by simp [Worker.ready])
    · obtain ⟨e, he, heq⟩ := Option.map_eq_some_iff.1 hready
      simp only [Ready.client.injEq] at heq
      obtain ⟨rfl, rfl, -⟩ := heq
      obtain ⟨o, ho, hid, -⟩ := hw.registered fd e he
      exact ⟨o, ho, hid⟩

end PendingInv

/-! ### One step -/

/-- **The steps of the loop** from a state whose bookkeeping is exact. -/
inductive LoopStep (cfg : ForgeCfg) (w : Worker) :
    Bool → List Ready → LoopInput → Option (ConnId × Turn) → LoopState → Prop
  | wait (batch : List Reported) (hnodup : (clientFds batch).Nodup) :
      LoopStep cfg w false [] (.wait batch) none (.running w false (batch.filterMap w.ready))
  | enter (pending : List Ready) :
      LoopStep cfg w false (.control :: pending) .enter none (.running w true pending)
  | recv (pending : List Ready) (m : RecvMsg) (calloc : Option Addr) (added : Bool)
      (hfd : 0 ≤ forgeRecvFd m → w.table (forgeRecvFd m) = none) (r : Worker × Bool)
      (h : Received w m r) :
      LoopStep cfg w true pending (.recv m calloc added) none (.running r.1 r.2 pending)
  | kept (a : Addr) (flags : Flags) (pending : List Ready) (k : Kernel) (o : Obj)
      (ho : w.heap a = some o) (c : ForgeConn) (hc : ConnInv c) (hfd : c.fd = o.conn.fd)
      (hnext : (clientEvent cfg (flags.event k) o.conn).next = .registered c) :
      LoopStep cfg w false (.client a o.id flags :: pending) (.client k)
        (some (o.id, clientEvent cfg (flags.event k) o.conn))
        (.running (w.put a ⟨o.id, c⟩) false pending)
  | closed (a : Addr) (flags : Flags) (pending : List Ready) (k : Kernel) (o : Obj)
      (ho : w.heap a = some o)
      (hnext : (clientEvent cfg (flags.event k) o.conn).next = .closed) :
      LoopStep cfg w false (.client a o.id flags :: pending) (.client k)
        (some (o.id, clientEvent cfg (flags.event k) o.conn))
        (.running (w.release a o) false pending)
  | sending (a : Addr) (flags : Flags) (pending : List Ready) (k : Kernel) (o : Obj)
      (ho : w.heap a = some o) (fd : ℤ) (hfree : w.table fd = none)
      (hnext : (clientEvent cfg (flags.event k) o.conn).next = .sending) :
      LoopStep cfg w false (.client a o.id flags :: pending) (.client k)
        (some (o.id, clientEvent cfg (flags.event k) o.conn)) (.sending (w.withFile fd))

variable {cfg : ForgeCfg} {w : Worker} {receiving : Bool} {pending : List Ready}

/-- **The inversion of a step**: no step faults. -/
theorem loop_cases (hw : WorkerInv w) (hp : PendingInv w pending) {i : LoopInput}
    {out : Option (ConnId × Turn)} {s' : LoopState}
    (hstep : (loopMachine cfg).step (.running w receiving pending) i = some (out, s')) :
    LoopStep cfg w receiving pending i out s' := by
  rcases receiving with - | -
  · rcases pending with - | ⟨- | ⟨a, id, flags⟩, pending⟩
    · cases i with
      | wait batch =>
        simp only [loopMachine] at hstep
        split at hstep
        · rename_i h
          obtain ⟨rfl, rfl⟩ := Prod.mk.inj (Option.some.inj hstep)
          exact .wait batch h.1
        · exact absurd hstep (by simp)
      | _ => exact absurd hstep (by simp [loopMachine])
    · cases i with
      | enter =>
        obtain ⟨rfl, rfl⟩ := Prod.mk.inj (Option.some.inj hstep)
        exact .enter pending
      | _ => exact absurd hstep (by simp [loopMachine])
    · cases i with
      | client k =>
        -- the event is one of a live connection, so the pointer is not stale
        obtain ⟨o, ho, rfl⟩ := hp.live a id flags List.mem_cons_self
        simp only [loopMachine, ho] at hstep
        split at hstep
        · rename_i hfree
          obtain ⟨rfl, rfl⟩ := Prod.mk.inj (Option.some.inj hstep)
          obtain ⟨hholds, hc⟩ := hw.holds a o ho
          obtain ⟨w', hexec, hafter⟩ := Worker.exec_clientEvent hholds hc (flags.event k) hfree
          rw [afterEvent, hexec]
          dsimp only
          generalize hnext : (clientEvent cfg (flags.event k) o.conn).next = s at hafter ⊢
          cases hafter with
          | kept c hc' hfd =>
            simp only [Worker.store, ho, Option.map_some]
            exact .kept a flags pending k o ho c hc' hfd hnext
          | closed => exact .closed a flags pending k o ho hnext
          | sending fd hfree => exact .sending a flags pending k o ho fd hfree hnext
        · exact absurd hstep (by simp)
      | _ => exact absurd hstep (by simp [loopMachine])
  · cases i with
    | recv m calloc added =>
      simp only [loopMachine] at hstep
      split at hstep
      · rename_i h
        obtain ⟨r, hrecv, hr⟩ := recvOne_received h.1 h.2 added
        rw [hrecv] at hstep
        obtain ⟨rfl, rfl⟩ := Prod.mk.inj (Option.some.inj hstep)
        exact .recv pending m calloc added h.1 r hr
      · exact absurd hstep (by simp)
    | _ => exact absurd hstep (by simp [loopMachine])

/-! ### Every run -/

/-- The bookkeeping of a state is exact. -/
def LoopState.Inv : LoopState → Prop
  | .running w _ pending => WorkerInv w ∧ PendingInv w pending
  | .sending w => WorkerInv w
  | .fault => False

/-- **Receiving keeps the bookkeeping exact.** -/
theorem inv_received {m : RecvMsg} (hw : WorkerInv w) (hp : PendingInv w pending)
    (hfd : 0 ≤ forgeRecvFd m → w.table (forgeRecvFd m) = none) {r : Worker × Bool}
    (h : Received w m r) : WorkerInv r.1 ∧ PendingInv r.1 pending := by
  cases h with
  | stop => exact ⟨hw, hp⟩
  | refused => exact ⟨hw.refuse _, hp.of_live fun _ _ _ ho ↦ ho⟩
  | adopted hpos a ha =>
    exact ⟨hw.adopt ha (hfd hpos) hpos _, hp.update (hp.not_mem_clientPtrs ha) rfl⟩

theorem inv_loopStep (hw : WorkerInv w) (hp : PendingInv w pending) {i : LoopInput}
    {out : Option (ConnId × Turn)} {s' : LoopState}
    (h : LoopStep cfg w receiving pending i out s') : s'.Inv := by
  cases h with
  | wait batch hnodup => exact ⟨hw, PendingInv.of_batch hw hnodup⟩
  | enter pending => exact ⟨hw, hp.of_control⟩
  | recv pending m calloc added hfd r h => exact inv_received hw hp hfd h
  | kept a flags pending k o ho c hc hfd =>
    exact ⟨hw.put ho hc hfd, hp.of_client.2.update hp.of_client.1 rfl⟩
  | closed a flags pending k o ho =>
    exact ⟨hw.release ho, hp.of_client.2.update hp.of_client.1 rfl⟩
  | sending a flags pending k o ho fd hfree => exact hw.withFile hfree

theorem inv_loop_step {s s' : LoopState} {i : LoopInput} {out : Option (ConnId × Turn)}
    (hs : s.Inv) (hstep : (loopMachine cfg).step s i = some (out, s')) : s'.Inv := by
  cases s with
  | running w receiving pending => exact inv_loopStep hs.1 hs.2 (loop_cases hs.1 hs.2 hstep)
  | sending w => exact absurd hstep (by simp [loopMachine])
  | fault => exact absurd hs id

/-- **Objects, entries and descriptors correspond one to one.** -/
structure OneToOne (w : Worker) : Prop where
  /-- Every allocated connection is registered, and its descriptor is open. -/
  allocated : ∀ a o, w.heap a = some o →
    w.interest o.conn.fd = some ⟨a, o.id⟩ ∧ w.table o.conn.fd = some (.conn o.id)
  /-- Every registered descriptor is the one of the connection it points to. -/
  registered : ∀ fd e, w.interest fd = some e →
    ∃ o, w.heap e.ptr = some o ∧ o.id = e.id ∧ o.conn.fd = fd
  /-- Every open client descriptor is the one of an allocated connection. -/
  opened : ∀ fd id, w.table fd = some (.conn id) →
    ∃ a o, w.heap a = some o ∧ o.id = id ∧ o.conn.fd = fd
  /-- No two allocated connections share a descriptor. -/
  distinct : ∀ a a' o o', w.heap a = some o → w.heap a' = some o' →
    o.conn.fd = o'.conn.fd → a = a'

theorem WorkerInv.oneToOne (h : WorkerInv w) : OneToOne w where
  allocated a o ho := ⟨(h.holds a o ho).1.interest, (h.holds a o ho).1.table⟩
  registered := h.registered
  opened := h.opened
  distinct _ _ _ _ ha ha' := h.fd_injective ha ha'

/-- **The bookkeeping of a worker is exact**, on every run: nothing faults, and after every event
what is allocated, registered and open corresponds one to one, and every event still to be processed
is one of a live connection. -/
theorem bookkeeping_exact (cfg : ForgeCfg) (fds : List ℤ) (is : List LoopInput)
    (outs : List (Option (ConnId × Turn))) (s : LoopState)
    (hrun : (loopMachine cfg).run (.running (.start fds) false []) is = some (outs, s)) :
    s ≠ .fault ∧ ∀ w receiving pending, s = .running w receiving pending →
      OneToOne w ∧ ∀ a id flags, .client a id flags ∈ pending →
        ∃ o, w.heap a = some o ∧ o.id = id := by
  have hinv : s.Inv := Machine.run_invariant (fun _ _ _ _ ↦ inv_loop_step)
    (show LoopState.Inv (.running (.start fds) false []) from ⟨.start fds, .nil⟩) hrun
  constructor
  · rintro rfl
    exact hinv
  · rintro w receiving pending rfl
    exact ⟨hinv.1.oneToOne, hinv.2.live⟩

/-- A connection comes in, hangs up, and a second one gets its address and descriptor number. -/
theorem bookkeeping_exact_reuse :
    ∃ outs s, (loopMachine {}).run (.running (.start [3, 4]) false [])
        [.wait [.control], .enter, .recv (.message (some ⟨true, true, 5, 0⟩)) (some 64) true,
          .recv .failed none false, .wait [.client 5 ⟨true, false, true, false⟩, .control],
          .client (.offering []), .enter,
          .recv (.message (some ⟨true, true, 5, 1⟩)) (some 64) true] = some (outs, s) ∧
      s ≠ .fault ∧ ∀ w receiving pending, s = .running w receiving pending →
        OneToOne w ∧ ∀ a id flags, .client a id flags ∈ pending →
          ∃ o, w.heap a = some o ∧ o.id = id := by
  have hsome : ((loopMachine {}).run (.running (.start [3, 4]) false [])
      [.wait [.control], .enter, .recv (.message (some ⟨true, true, 5, 0⟩)) (some 64) true,
        .recv .failed none false, .wait [.client 5 ⟨true, false, true, false⟩, .control],
        .client (.offering []), .enter,
        .recv (.message (some ⟨true, true, 5, 1⟩)) (some 64) true]).isSome := by decide +kernel
  obtain ⟨⟨outs, s⟩, hrun⟩ := Option.isSome_iff_exists.1 hsome
  exact ⟨outs, s, hrun, bookkeeping_exact {} [3, 4] _ outs s hrun⟩

end ForgeServer
