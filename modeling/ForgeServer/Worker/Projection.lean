import ForgeServer.Systems.Framing
import ForgeServer.Worker.Ledger

/-!
# One connection of a worker

A run of a worker, seen from one of its connections: the events of that connection with the kernel
answers to its calls (`eventsOf`), and what was done for them (`turnsOf`). `track_live` says that
the second is what the machine of a single connection does on the first, so nothing else in the run
has a part in it; the other direction, `run_alone`, gives every run of a single connection as a run
of a worker that has no other one. Together they are `connection_alone`.

Descriptor numbers and addresses that are used again do no harm because the bookkeeping is exact: an
event of a batch is an event of the connection that is live at its address (`loop_cases`).
-/

namespace ForgeServer

open CStr Function Machine

variable {cfg : ForgeCfg} {fds : List ℤ} {id : ConnId}

/-! ### Seen from one connection -/

/-- The event of the connection `id` that an input takes up. -/
def LoopState.event? (id : ConnId) : LoopState → LoopInput → Option ConnEvent
  | .running _ false (.client _ id' flags :: _), .client k =>
    if id' = id then some (flags.event k) else none
  | _, _ => none

/-- The events of the connection `id` in a run. -/
def eventsOf (cfg : ForgeCfg) (id : ConnId) : LoopState → List LoopInput → List ConnEvent
  | _, [] => []
  | s, i :: is => (s.event? id i).toList ++
    match (loopMachine cfg).step s i with
    | some (_, s') => eventsOf cfg id s' is
    | none => []

/-- What an output says of the connection `id`. -/
def turn? (id : ConnId) : Option (ConnId × Turn) → Option Turn
  | some (id', t) => if id' = id then some t else none
  | none => none

/-- What was done for the connection `id`. -/
def turnsOf (id : ConnId) (outs : List (Option (ConnId × Turn))) : List Turn :=
  outs.filterMap (turn? id)

theorem eventsOf_cons {s s' : LoopState} {i : LoopInput} {out : Option (ConnId × Turn)}
    (h : (loopMachine cfg).step s i = some (out, s')) (is : List LoopInput) :
    eventsOf cfg id s (i :: is) = (s.event? id i).toList ++ eventsOf cfg id s' is := by
  rw [eventsOf, h]

theorem eventsOf_append {s s' : LoopState} {is : List LoopInput}
    {outs : List (Option (ConnId × Turn))}
    (h : (loopMachine cfg).run s is = some (outs, s')) (js : List LoopInput) :
    eventsOf cfg id s (is ++ js) = eventsOf cfg id s is ++ eventsOf cfg id s' js := by
  induction is generalizing s outs with
  | nil =>
    obtain ⟨-, rfl⟩ := Prod.mk.inj (Option.some.inj h)
    rfl
  | cons i is ih =>
    obtain ⟨out, s₁, outs, hstep, hrun, rfl⟩ := (run_cons_eq_some _).1 h
    rw [List.cons_append, eventsOf_cons hstep, eventsOf_cons hstep, ih hrun, List.append_assoc]

theorem turnsOf_cons (out : Option (ConnId × Turn)) (outs : List (Option (ConnId × Turn))) :
    turnsOf id (out :: outs) = (turn? id out).toList ++ turnsOf id outs := by
  rw [turnsOf, List.filterMap_cons]
  cases turn? id out <;> rfl

/-! ### One step -/

/-- What holds of a running worker between two steps; `fds` are open for good. -/
structure Sound (fds : List ℤ) (w : Worker) (pending : List Ready) : Prop where
  inv : WorkerInv w
  pending : PendingInv w pending
  ledger : Ledger w
  base : ∀ fd ∈ fds, w.table fd = some .other

/-- The connections still to be received are new. -/
structure NewIds (w : Worker) (is : List LoopInput) : Prop where
  nodup : (is.flatMap LoopInput.gets).Nodup
  not_mem : ∀ x ∈ is.flatMap LoopInput.gets, x ∉ w.got

variable {w : Worker} {receiving : Bool} {pending : List Ready} {i : LoopInput}
  {is : List LoopInput} {out : Option (ConnId × Turn)} {s s' : LoopState}

theorem Sound.start (fds : List ℤ) : Sound fds (.start fds) [] :=
  ⟨.start fds, .nil, .start fds, fun _ h ↦ if_pos h⟩

/-- No two live connections have one identity. -/
theorem Sound.id_injective (h : Sound fds w pending) {a a' : Addr} {o o' : Obj}
    (ho : w.heap a = some o) (ho' : w.heap a' = some o') (hid : o.id = o'.id) : a = a' := by
  have hfd := (h.inv.holds a o ho).1.table
  have hfd' := (h.inv.holds a' o' ho').1.table
  rw [hid] at hfd
  exact h.inv.fd_injective ho ho' (h.ledger.unique _ _ _ hfd hfd')

theorem Sound.eq_of_id (h : Sound fds w pending) {a a' : Addr} {o o' : Obj}
    (ho : w.heap a = some o) (ho' : w.heap a' = some o') (hid : o.id = o'.id) :
    a = a' ∧ o = o' := by
  obtain rfl := h.id_injective ho ho' hid
  exact ⟨rfl, Option.some.inj (ho.symm.trans ho')⟩

/-- What was not received is not live. -/
theorem Sound.id_ne_of_not_got (h : Sound fds w pending) (hid : id ∉ w.got) (a : Addr) (o : Obj)
    (ho : w.heap a = some o) : o.id ≠ id := fun heq ↦
  hid (heq ▸ (h.ledger.opened _ _ (h.inv.holds a o ho).1.table).1)

/-- A live connection has no descriptor that was open before. -/
theorem Sound.fd_not_mem (h : Sound fds w pending) {a : Addr} {o : Obj} (ho : w.heap a = some o) :
    o.conn.fd ∉ fds := by
  intro hmem
  have htable := (h.inv.holds a o ho).1.table
  rw [h.base _ hmem] at htable
  exact absurd htable (by simp)

theorem NewIds.of_cons (h : NewIds w (i :: is)) {w' : Worker} (hgot : w'.got = w.got ++ i.gets) :
    NewIds w' is := by
  obtain ⟨hnodup, hnot⟩ := h
  rw [List.flatMap_cons] at hnodup hnot
  obtain ⟨-, hrest, hdisj⟩ := List.nodup_append.1 hnodup
  refine ⟨hrest, fun x hx hmem ↦ ?_⟩
  rw [hgot] at hmem
  rcases List.mem_append.1 hmem with hmem | hmem
  · exact hnot x (List.mem_append_right _ hx) hmem
  · exact hdisj x hmem x hx rfl

theorem NewIds.gets (h : NewIds w (i :: is)) : ∀ x ∈ i.gets, x ∉ w.got :=
  fun x hx ↦ h.not_mem x (List.mem_append_left _ hx)

/-- **What a step keeps**: the worker runs on, or is in a call that has not returned. -/
theorem sound_step (hs : Sound fds w pending) (hnew : NewIds w (i :: is))
    (h : LoopStep cfg w receiving pending i out s') :
    (∃ w' receiving' pending', s' = .running w' receiving' pending' ∧ Sound fds w' pending' ∧
      NewIds w' is) ∨ ∃ w', s' = .sending w' := by
  have hinv := inv_loopStep hs.inv hs.pending h
  obtain ⟨w', hw', hl, hgot⟩ := ledger_loopStep hs.inv hs.ledger hnew.gets h
  cases h with
  | wait | enter => exact .inl ⟨_, _, _, rfl, ⟨hinv.1, hinv.2, hs.ledger, hs.base⟩, hnew.of_cons
      (by rw [← Option.some.inj hw'] at hgot; exact hgot)⟩
  | recv pending m calloc added hfd r hr =>
    obtain rfl := Option.some.inj hw'
    refine .inl ⟨_, _, _, rfl, ⟨hinv.1, hinv.2, hl, fun fd hfd' ↦ ?_⟩, hnew.of_cons hgot⟩
    cases hr with
    | stop | refused => exact hs.base fd hfd'
    | adopted hpos a ha =>
      have hne : fd ≠ forgeRecvFd m := by
        rintro rfl
        have hnone := hfd hpos
        rw [hs.base _ hfd'] at hnone
        exact absurd hnone (by simp)
      rw [adopt_table, update_of_ne hne]
      exact hs.base fd hfd'
  | kept a flags pending k o ho c hc hfd =>
    obtain rfl := Option.some.inj hw'
    exact .inl ⟨_, _, _, rfl, ⟨hinv.1, hinv.2, hl, hs.base⟩, hnew.of_cons hgot⟩
  | closed a flags pending k o ho =>
    obtain rfl := Option.some.inj hw'
    refine .inl ⟨_, _, _, rfl, ⟨hinv.1, hinv.2, hl, fun fd hfd ↦ ?_⟩, hnew.of_cons hgot⟩
    have hne : fd ≠ o.conn.fd := fun heq ↦ hs.fd_not_mem ho (heq ▸ hfd)
    rw [Worker.release_table, update_of_ne hne]
    exact hs.base fd hfd
  | sending => exact .inr ⟨_, rfl⟩

theorem sound_running (hs : Sound fds w pending) (hnew : NewIds w (i :: is)) {w' : Worker}
    {receiving' : Bool} {pending' : List Ready}
    (h : LoopStep cfg w receiving pending i out (.running w' receiving' pending')) :
    Sound fds w' pending' ∧ NewIds w' is := by
  rcases sound_step hs hnew h with ⟨w₁, receiving₁, pending₁, heq, hs₁, hnew₁⟩ | ⟨w₁, heq⟩
  · obtain ⟨rfl, rfl, rfl⟩ := LoopState.running.inj heq
    exact ⟨hs₁, hnew₁⟩
  · exact absurd heq (by simp)

/-! ### A connection that is no more, and one that is live -/

/-- The rest of a run is empty in a call that has not returned. -/
theorem run_sending (cfg : ForgeCfg) (id : ConnId) {outs : List (Option (ConnId × Turn))}
    (hrun : (loopMachine cfg).run (.sending w) is = some (outs, s)) :
    eventsOf cfg id (.sending w) is = [] ∧ turnsOf id outs = [] := by
  obtain ⟨rfl, rfl, -⟩ := eq_of_run_of_stopped (fun _ ↦ rfl) hrun
  exact ⟨rfl, rfl⟩

/-- A step that is none of the connection `id`. -/
theorem event?_eq_none (h : LoopStep cfg w receiving pending i out s')
    (hid : ∀ a o, w.heap a = some o → o.id = id → ∀ flags pending',
      pending ≠ .client a o.id flags :: pending') :
    (LoopState.running w receiving pending).event? id i = none ∧ turn? id out = none := by
  cases h with
  | wait | enter | recv => exact ⟨rfl, rfl⟩
  | kept a flags pending k o ho | closed a flags pending k o ho | sending a flags pending k o ho =>
    have hne : o.id ≠ id := fun h ↦ hid a o ho h flags pending rfl
    exact ⟨if_neg hne, if_neg hne⟩

/-- What is allocated after a step was allocated before, or has just been received. -/
theorem allocated_step (h : LoopStep cfg w receiving pending i out s') {w' : Worker}
    (hw' : s'.worker? = some w') {a : Addr} {o : Obj} (ho : w'.heap a = some o) :
    (o.id ∈ i.gets ∧ ∃ fd, 0 ≤ fd ∧ o.conn = .fresh fd) ∨
      ∃ a' o', w.heap a' = some o' ∧ o'.id = o.id := by
  cases h with
  | wait | enter =>
    obtain rfl := Option.some.inj hw'
    exact .inr ⟨a, o, ho, rfl⟩
  | recv pending m calloc added hfd r hr =>
    obtain rfl := Option.some.inj hw'
    cases hr with
    | stop | refused => exact .inr ⟨a, o, ho, rfl⟩
    | adopted hpos b hb =>
      by_cases hab : a = b
      · subst hab
        obtain rfl : (⟨m.id, .fresh (forgeRecvFd m)⟩ : Obj) = o := by simpa using ho
        have hgets : (LoopInput.recv m calloc added).gets = [m.id] := if_neg (by omega)
        exact .inl ⟨by rw [hgets]; exact List.mem_singleton_self _, _, hpos, rfl⟩
      · rw [adopt_heap, update_of_ne hab] at ho
        exact .inr ⟨a, o, ho, rfl⟩
  | kept b flags pending k p hp c hc hfd =>
    obtain rfl := Option.some.inj hw'
    by_cases hab : a = b
    · subst hab
      obtain rfl : (⟨p.id, c⟩ : Obj) = o := by simpa using ho
      exact .inr ⟨a, p, hp, rfl⟩
    · rw [put_heap, update_of_ne hab] at ho
      exact .inr ⟨a, o, ho, rfl⟩
  | closed b flags pending k p hp =>
    obtain rfl := Option.some.inj hw'
    exact .inr ⟨a, o, (update_none_eq_some.1 ho).2, rfl⟩
  | sending b flags pending k p hp fd hfree =>
    obtain rfl := Option.some.inj hw'
    exact .inr ⟨a, o, ho, rfl⟩

/-- **Nothing is done for a connection that was closed.** -/
theorem track_gone {outs : List (Option (ConnId × Turn))} (hs : Sound fds w pending)
    (hnew : NewIds w is) (hgot : id ∈ w.got) (hgone : ∀ a o, w.heap a = some o → o.id ≠ id)
    (hrun : (loopMachine cfg).run (.running w receiving pending) is = some (outs, s)) :
    eventsOf cfg id (.running w receiving pending) is = [] ∧ turnsOf id outs = [] := by
  induction is generalizing w receiving pending outs with
  | nil =>
    obtain ⟨rfl, rfl⟩ := Prod.mk.inj (Option.some.inj hrun)
    exact ⟨rfl, rfl⟩
  | cons i is ih =>
    obtain ⟨out, s₁, outs, hstep, hrun, rfl⟩ := ((loopMachine cfg).run_cons_eq_some).1 hrun
    have hcases := loop_cases hs.inv hs.pending hstep
    obtain ⟨hev, hturn⟩ := event?_eq_none hcases fun a o ho hid ↦ absurd hid (hgone a o ho)
    rw [eventsOf_cons hstep, turnsOf_cons, hev, hturn]
    obtain ⟨w', hw', -, hgot'⟩ := ledger_loopStep hs.inv hs.ledger hnew.gets hcases
    rcases sound_step hs hnew hcases with ⟨w₁, receiving₁, pending₁, rfl, hs₁, hnew₁⟩ | ⟨w₁, rfl⟩
    · obtain rfl := Option.some.inj hw'
      refine ih hs₁ hnew₁ (hgot' ▸ List.mem_append_left _ hgot) (fun a o ho hid ↦ ?_) hrun
      rcases allocated_step hcases rfl ho with ⟨hget, -⟩ | ⟨a', o', ho', hid'⟩
      · exact hnew.gets id (hid ▸ hget) hgot
      · exact hgone a' o' ho' (hid'.trans hid)
    · exact run_sending cfg id hrun

/-- The files a step opens are opened under numbers that are not open. -/
theorem openedFds_free {a : Addr} {flags : Flags} {k : Kernel} {o : Obj} (ho : w.heap a = some o)
    (hstep : (loopMachine cfg).step (.running w false (.client a o.id flags :: pending))
      (.client k) = some (out, s')) :
    ∀ fd ∈ openedFds (clientEvent cfg (flags.event k) o.conn).calls, w.table fd = none := by
  simp only [loopMachine, ho] at hstep
  split at hstep
  · assumption
  · exact absurd hstep (by simp)

/-- **A step, seen from a live connection**: it is no step of this connection and leaves it as it
is, or it is what the machine of a single connection does. -/
theorem live_step (hs : Sound fds w pending) {a : Addr} {o : Obj} (ho : w.heap a = some o)
    (hstep : (loopMachine cfg).step (.running w receiving pending) i = some (out, s')) :
    ((LoopState.running w receiving pending).event? o.id i = none ∧ turn? o.id out = none ∧
        ∀ w', s'.worker? = some w' → w'.heap a = some o) ∨
      ∃ e, (LoopState.running w receiving pending).event? o.id i = some e ∧
        turn? o.id out = some (clientEvent cfg e o.conn) ∧
        (∀ fd ∈ openedFds (clientEvent cfg e o.conn).calls, w.table fd = none) ∧
        ((∃ c pending', (clientEvent cfg e o.conn).next = .registered c ∧ c.fd = o.conn.fd ∧
            s' = .running (w.put a ⟨o.id, c⟩) false pending') ∨
          (∃ pending', (clientEvent cfg e o.conn).next = .closed ∧
            s' = .running (w.release a o) false pending') ∨
          ∃ w', (clientEvent cfg e o.conn).next = .sending ∧ s' = .sending w') := by
  have hcases := loop_cases hs.inv hs.pending hstep
  cases hcases with
  | wait | enter =>
    refine .inl ⟨rfl, rfl, fun w' hw' ↦ ?_⟩
    rw [← Option.some.inj hw', ho]
  | recv pending m calloc added hfd r hr =>
    refine .inl ⟨rfl, rfl, fun w' hw' ↦ ?_⟩
    rw [← Option.some.inj hw']
    cases hr with
    | stop | refused => exact ho
    | adopted hpos b hb =>
      have hab : a ≠ b := ne_of_apply_ne w.heap (by rw [ho, hb]; simp)
      rw [adopt_heap, update_of_ne hab, ho]
  | kept b flags pending k p hp c hc hfd hnext =>
    by_cases hid : p.id = o.id
    · obtain ⟨rfl, rfl⟩ := hs.eq_of_id hp ho hid
      exact .inr ⟨_, if_pos rfl, if_pos rfl, openedFds_free ho hstep,
        .inl ⟨c, pending, hnext, hfd, rfl⟩⟩
    · refine .inl ⟨if_neg hid, if_neg hid, fun w' hw' ↦ ?_⟩
      have hab : a ≠ b := fun h ↦ hid (by rw [h, hp] at ho; rw [Option.some.inj ho])
      rw [← Option.some.inj hw', put_heap, update_of_ne hab, ho]
  | closed b flags pending k p hp hnext =>
    by_cases hid : p.id = o.id
    · obtain ⟨rfl, rfl⟩ := hs.eq_of_id hp ho hid
      exact .inr ⟨_, if_pos rfl, if_pos rfl, openedFds_free ho hstep,
        .inr (.inl ⟨pending, hnext, rfl⟩)⟩
    · refine .inl ⟨if_neg hid, if_neg hid, fun w' hw' ↦ ?_⟩
      have hab : a ≠ b := fun h ↦ hid (by rw [h, hp] at ho; rw [Option.some.inj ho])
      rw [← Option.some.inj hw', Worker.release_heap, update_of_ne hab, ho]
  | sending b flags pending k p hp fd hfree hnext =>
    by_cases hid : p.id = o.id
    · obtain ⟨rfl, rfl⟩ := hs.eq_of_id hp ho hid
      exact .inr ⟨_, if_pos rfl, if_pos rfl, openedFds_free ho hstep,
        .inr (.inr ⟨_, hnext, rfl⟩)⟩
    · refine .inl ⟨if_neg hid, if_neg hid, fun w' hw' ↦ ?_⟩
      rw [← Option.some.inj hw']
      exact ho

/-- The files opened for a connection have other numbers than `fds` and the connection. -/
def OpensElsewhere (fds : List ℤ) (fd : ℤ) (ts : List Turn) : Prop :=
  ∀ t ∈ ts, ∀ f ∈ openedFds t.calls, f ∉ fds ∧ f ≠ fd

theorem opensElsewhere_nil {fd : ℤ} : OpensElsewhere fds fd [] :=
  fun _ ht ↦ absurd ht List.not_mem_nil

/-- **For a live connection exactly that is done** which the machine of a single connection does on
its events. -/
theorem track_live {outs : List (Option (ConnId × Turn))} (hs : Sound fds w pending)
    (hnew : NewIds w is) {a : Addr} {o : Obj} (ho : w.heap a = some o)
    (hrun : (loopMachine cfg).run (.running w receiving pending) is = some (outs, s)) :
    (∃ cs, (connMachine cfg).run (.registered o.conn)
        (eventsOf cfg o.id (.running w receiving pending) is) = some (turnsOf o.id outs, cs)) ∧
      OpensElsewhere fds o.conn.fd (turnsOf o.id outs) := by
  induction is generalizing w receiving pending outs o with
  | nil =>
    obtain ⟨rfl, rfl⟩ := Prod.mk.inj (Option.some.inj hrun)
    exact ⟨⟨_, rfl⟩, opensElsewhere_nil⟩
  | cons i is ih =>
    obtain ⟨out, s₁, outs, hstep, hrun, rfl⟩ := ((loopMachine cfg).run_cons_eq_some).1 hrun
    have hcases := loop_cases hs.inv hs.pending hstep
    rw [eventsOf_cons hstep, turnsOf_cons]
    rcases live_step hs ho hstep with ⟨hev, hturn, hkeep⟩ | ⟨e, hev, hturn, hfree, hnext⟩
    · -- a step of another connection
      rw [hev, hturn]
      rcases sound_step hs hnew hcases with ⟨w₁, receiving₁, pending₁, rfl, hs₁, hnew₁⟩ | ⟨w₁, rfl⟩
      · exact ih hs₁ hnew₁ (hkeep w₁ rfl) hrun
      · obtain ⟨hevs, hturns⟩ := run_sending cfg o.id hrun
        rw [hevs, hturns]
        exact ⟨⟨_, rfl⟩, opensElsewhere_nil⟩
    · rw [hev, hturn]
      have htable := (hs.inv.holds a o ho).1.table
      have hhead : ∀ f ∈ openedFds (clientEvent cfg e o.conn).calls, f ∉ fds ∧ f ≠ o.conn.fd := by
        intro f hf
        have hnone := hfree f hf
        refine ⟨fun hmem ↦ ?_, fun heq ↦ ?_⟩
        · rw [hs.base f hmem] at hnone
          exact absurd hnone (by simp)
        · rw [heq, htable] at hnone
          exact absurd hnone (by simp)
      -- the rest of the run, from where the event leaves the connection
      have hrest : (∃ cs, (connMachine cfg).run (clientEvent cfg e o.conn).next
            (eventsOf cfg o.id s₁ is) = some (turnsOf o.id outs, cs)) ∧
          OpensElsewhere fds o.conn.fd (turnsOf o.id outs) := by
        rcases hnext with ⟨c, pending', hc, hfd, rfl⟩ | ⟨pending', hc, rfl⟩ | ⟨w', hc, rfl⟩
        · obtain ⟨hs₁, hnew₁⟩ := sound_running hs hnew hcases
          have hlive : (w.put a ⟨o.id, c⟩).heap a = some ⟨o.id, c⟩ := update_self ..
          rw [hc, ← hfd]
          exact ih hs₁ hnew₁ hlive hrun
        · -- it was closed: nothing with its identity is allocated any more
          obtain ⟨hs₁, hnew₁⟩ := sound_running hs hnew hcases
          have hgone : ∀ a' o', (w.release a o).heap a' = some o' → o'.id ≠ o.id := by
            intro a' o' ho' hid
            obtain ⟨ha, ho'⟩ := update_none_eq_some.1 ho'
            exact ha (hs.id_injective ho' ho hid)
          obtain ⟨hevs, hturns⟩ := track_gone hs₁ hnew₁ (hs.ledger.opened _ _ htable).1 hgone hrun
          rw [hc, hevs, hturns]
          exact ⟨⟨_, rfl⟩, opensElsewhere_nil⟩
        · obtain ⟨hevs, hturns⟩ := run_sending cfg o.id hrun
          rw [hevs, hturns]
          exact ⟨⟨_, rfl⟩, opensElsewhere_nil⟩
      obtain ⟨⟨cs, hcs⟩, hopens⟩ := hrest
      refine ⟨⟨cs, ?_⟩, fun t ht ↦ ?_⟩
      · exact (run_cons_eq_some _).2
          ⟨_, _, _, connMachine_step.2 ⟨o.conn, rfl, rfl, rfl⟩, hcs, rfl⟩
      · rcases List.mem_cons.1 ht with rfl | ht
        · exact hhead
        · exact hopens t ht

/-- **The same for a connection from its registration on**, or it is not registered in the run and
nothing is done for it. -/
theorem track_new {outs : List (Option (ConnId × Turn))} (hs : Sound fds w pending)
    (hnew : NewIds w is) (hid : id ∉ w.got)
    (hrun : (loopMachine cfg).run (.running w receiving pending) is = some (outs, s)) :
    (eventsOf cfg id (.running w receiving pending) is = [] ∧ turnsOf id outs = []) ∨
      ∃ fd, 0 ≤ fd ∧ fd ∉ fds ∧
        (∃ cs, (connMachine cfg).run (.registered (.fresh fd))
          (eventsOf cfg id (.running w receiving pending) is) = some (turnsOf id outs, cs)) ∧
        OpensElsewhere fds fd (turnsOf id outs) := by
  induction is generalizing w receiving pending outs with
  | nil =>
    obtain ⟨rfl, rfl⟩ := Prod.mk.inj (Option.some.inj hrun)
    exact .inl ⟨rfl, rfl⟩
  | cons i is ih =>
    obtain ⟨out, s₁, outs, hstep, hrun, rfl⟩ := ((loopMachine cfg).run_cons_eq_some).1 hrun
    have hcases := loop_cases hs.inv hs.pending hstep
    have hnone := hs.id_ne_of_not_got hid
    obtain ⟨hev, hturn⟩ := event?_eq_none hcases fun a o ho heq ↦ absurd heq (hnone a o ho)
    rw [eventsOf_cons hstep, turnsOf_cons, hev, hturn]
    rcases sound_step hs hnew hcases with ⟨w₁, receiving₁, pending₁, rfl, hs₁, hnew₁⟩ | ⟨w₁, rfl⟩
    · by_cases hlive : ∃ a o, w₁.heap a = some o ∧ o.id = id
      · -- the step has received it
        obtain ⟨a, o, ho, rfl⟩ := hlive
        rcases allocated_step hcases rfl ho with ⟨-, fd, hpos, hfresh⟩ | ⟨a', o', ho', hid'⟩
        · have hfd := hs₁.fd_not_mem ho
          have hlive := track_live hs₁ hnew₁ ho hrun
          rw [hfresh] at hfd hlive
          exact .inr ⟨fd, hpos, hfd, hlive⟩
        · exact absurd hid' (hnone a' o' ho')
      · have hnone₁ : ∀ a o, w₁.heap a = some o → o.id ≠ id := fun a o ho heq ↦
          hlive ⟨a, o, ho, heq⟩
        by_cases hgot : id ∈ w₁.got
        · exact .inl (track_gone hs₁ hnew₁ hgot hnone₁ hrun)
        · exact ih hs₁ hnew₁ hgot hrun
    · exact .inl (run_sending cfg id hrun)

/-! ### A connection alone -/

/-- A worker with one connection. -/
def soleWorker (fds : List ℤ) (a : Addr) (id : ConnId) (c : ForgeConn) : Worker :=
  ((Worker.start fds).adopt a c.fd id).put a ⟨id, c⟩

/-- The events of one connection, each in a batch of its own. -/
def alone (fd : ℤ) (es : List ConnEvent) : List LoopInput :=
  es.flatMap fun e ↦ [.wait [.client fd ⟨e.inp, e.rdhup, e.hup, e.err⟩], .client e.kernel]

theorem gets_alone (fd : ℤ) (es : List ConnEvent) : (alone fd es).flatMap LoopInput.gets = [] := by
  induction es with
  | nil => rfl
  | cons e es ih => exact ih

section Alone

variable {a : Addr} {c : ForgeConn}

theorem soleWorker_heap (fds : List ℤ) (a : Addr) (id : ConnId) (c : ForgeConn) :
    (soleWorker fds a id c).heap a = some ⟨id, c⟩ := update_self ..

theorem soleWorker_interest : (soleWorker fds a id c).interest c.fd = some ⟨a, id⟩ :=
  update_self ..

theorem soleWorker_table (fd : ℤ) :
    (soleWorker fds a id c).table fd =
      if fd = c.fd then some (.conn id) else if fd ∈ fds then some .other else none := by
  show update (Worker.start fds).table c.fd _ fd = _
  rw [update_apply]
  rfl

theorem soleWorker_put {d : ForgeConn} (h : d.fd = c.fd) :
    (soleWorker fds a id c).put a ⟨id, d⟩ = soleWorker fds a id d := by
  simp only [soleWorker, Worker.put, Worker.adopt, update_idem, h]

theorem soleWorker_inv (a : Addr) (id : ConnId) (hc : ConnInv c) (hpos : 0 ≤ c.fd)
    (hfd : c.fd ∉ fds) :
    WorkerInv (soleWorker fds a id c) :=
  ((WorkerInv.start fds).adopt rfl (if_neg hfd) hpos id).put (update_self ..) hc rfl

/-- The two steps for one event. -/
theorem run_alone_one (a : Addr) (id : ConnId) (hc : ConnInv c) (hpos : 0 ≤ c.fd)
    (hfd : c.fd ∉ fds) (e : ConnEvent)
    (hopens : ∀ f ∈ openedFds (clientEvent cfg e c).calls, f ∉ fds ∧ f ≠ c.fd) :
    ∃ s, (loopMachine cfg).run (.running (soleWorker fds a id c) false [])
        [.wait [.client c.fd ⟨e.inp, e.rdhup, e.hup, e.err⟩], .client e.kernel] =
          some ([none, some (id, clientEvent cfg e c)], s) ∧
      eventsOf cfg id (.running (soleWorker fds a id c) false [])
        [.wait [.client c.fd ⟨e.inp, e.rdhup, e.hup, e.err⟩], .client e.kernel] = [e] ∧
      ∀ d, (clientEvent cfg e c).next = .registered d → ConnInv d ∧ d.fd = c.fd ∧
        s = .running (soleWorker fds a id d) false [] := by
  have hheap := soleWorker_heap fds a id c
  have hholds := ((soleWorker_inv a id hc hpos hfd).holds a _ hheap).1
  have hguard : ∀ f ∈ openedFds (clientEvent cfg e c).calls,
      (soleWorker fds a id c).table f = none := by
    intro f hf
    obtain ⟨hbase, hne⟩ := hopens f hf
    rw [soleWorker_table, if_neg hne, if_neg hbase]
  obtain ⟨w', hexec, hafter⟩ := Worker.exec_clientEvent hholds hc e hguard
  have hwait : (loopMachine cfg).step (.running (soleWorker fds a id c) false [])
      (.wait [.client c.fd ⟨e.inp, e.rdhup, e.hup, e.err⟩]) =
        some (none, .running (soleWorker fds a id c) false
          [.client a id ⟨e.inp, e.rdhup, e.hup, e.err⟩]) := by
    simp [loopMachine, clientFds, soleWorker_interest, Worker.ready]
  have hclient : (loopMachine cfg).step (.running (soleWorker fds a id c) false
      [.client a id ⟨e.inp, e.rdhup, e.hup, e.err⟩]) (.client e.kernel) =
        some (some (id, clientEvent cfg e c),
          afterEvent (soleWorker fds a id c) a ⟨id, c⟩ (clientEvent cfg e c) []) := by
    simp only [loopMachine, hheap]
    exact if_pos hguard
  refine ⟨_, (run_cons_eq_some _).2 ⟨_, _, _, hwait, (run_cons_eq_some _).2
    ⟨_, _, _, hclient, rfl, rfl⟩, rfl⟩, ?_, fun d hd ↦ ?_⟩
  · rw [eventsOf_cons hwait, eventsOf_cons hclient]
    exact congrArg (fun x : Option ConnEvent ↦ x.toList ++ []) (if_pos rfl)
  rw [hd] at hafter
  cases hafter with
  | kept _ hd' hfd' =>
    refine ⟨hd', hfd', ?_⟩
    rw [afterEvent, hexec]
    simp only [hd, Worker.store, hheap, Option.map_some]
    rw [soleWorker_put hfd']

/-- **A run of a single connection is a run of a worker** that has no other one. -/
theorem run_alone (a : Addr) (id : ConnId) {es : List ConnEvent} {ts : List Turn} {cs : ConnState}
    (hc : ConnInv c)
    (hpos : 0 ≤ c.fd) (hfd : c.fd ∉ fds)
    (hrun : (connMachine cfg).run (.registered c) es = some (ts, cs))
    (hopens : OpensElsewhere fds c.fd ts) :
    ∃ outs s, (loopMachine cfg).run (.running (soleWorker fds a id c) false []) (alone c.fd es) =
        some (outs, s) ∧ turnsOf id outs = ts ∧
      eventsOf cfg id (.running (soleWorker fds a id c) false []) (alone c.fd es) = es := by
  induction es generalizing c ts with
  | nil =>
    obtain ⟨rfl, rfl⟩ := Prod.mk.inj (Option.some.inj hrun)
    exact ⟨[], _, rfl, rfl, rfl⟩
  | cons e es ih =>
    obtain ⟨t, s₁, ts, hstep, hrun, rfl⟩ := (run_cons_eq_some _).1 hrun
    obtain ⟨d, hd, rfl, rfl⟩ := connMachine_step.1 hstep
    obtain rfl := ConnState.registered.inj hd
    -- the worker is as before but for the object, so the next event finds it alone again
    obtain ⟨s, hone, hev, hnext⟩ := run_alone_one a id hc hpos hfd e
      (hopens _ List.mem_cons_self)
    have hturn : turnsOf id [none, some (id, clientEvent cfg e c)] = [clientEvent cfg e c] := by
      simp [turnsOf, turn?, List.filterMap_cons]
    have hrest : ∃ outs s', (loopMachine cfg).run s (alone c.fd es) = some (outs, s') ∧
        turnsOf id outs = ts ∧ eventsOf cfg id s (alone c.fd es) = es := by
      rcases hn : (clientEvent cfg e c).next with d | - | - | -
      · obtain ⟨hd, hdfd, rfl⟩ := hnext d hn
        rw [hn] at hrun
        rw [← hdfd]
        exact ih hd (hdfd ▸ hpos) (hdfd ▸ hfd) hrun fun t ht ↦ by
          rw [hdfd]
          exact hopens t (List.mem_cons_of_mem _ ht)
      all_goals
        rw [hn] at hrun
        obtain ⟨rfl, rfl, -⟩ := eq_of_run_of_stopped (fun _ ↦ rfl) hrun
        exact ⟨[], s, rfl, rfl, rfl⟩
    obtain ⟨outs, s', hrest, hturns, hevs⟩ := hrest
    refine ⟨_, s', (run_append_eq_some _).2 ⟨_, s, outs, hone, hrest, rfl⟩, ?_, ?_⟩
    · rw [turnsOf, List.filterMap_append]
      exact congrArg₂ (· ++ ·) hturn hturns
    · exact (eventsOf_append hone _).trans (congrArg₂ (· ++ ·) hev hevs)

/-- A worker receives its first connection. -/
theorem run_first (cfg : ForgeCfg) {fd : ℤ} (hpos : 0 ≤ fd) (hfd : fd ∉ fds) (a : Addr)
    (id : ConnId) :
    ∃ outs, (loopMachine cfg).run (.running (.start fds) false [])
        [.wait [.control], .enter, .recv (.message (some ⟨true, true, fd, id⟩)) (some a) true,
          .recv .failed none false] =
          some (outs, .running (soleWorker fds a id (.fresh fd)) false []) ∧
      turnsOf id outs = [] ∧
      eventsOf cfg id (.running (.start fds) false [])
        [.wait [.control], .enter, .recv (.message (some ⟨true, true, fd, id⟩)) (some a) true,
          .recv .failed none false] = [] := by
  have hwait : (loopMachine cfg).step (.running (.start fds) false []) (.wait [.control]) =
      some (none, .running (.start fds) false [.control]) := by
    simp [loopMachine, clientFds, Worker.ready]
  have henter : (loopMachine cfg).step (.running (.start fds) false [.control]) .enter =
      some (none, .running (.start fds) true []) := rfl
  have hcmsg : forgeRecvFd (.message (some ⟨true, true, fd, id⟩)) = fd := rfl
  have hrecv : (loopMachine cfg).step (.running (.start fds) true [])
      (.recv (.message (some ⟨true, true, fd, id⟩)) (some a) true) =
        some (none, .running (soleWorker fds a id (.fresh fd)) true []) := by
    have hguard : (0 ≤ fd → (Worker.start fds).table fd = none) ∧
        ∀ b ∈ some a, (Worker.start fds).heap b = none := ⟨fun _ ↦ if_neg hfd, fun _ _ ↦ rfl⟩
    have hsole : soleWorker fds a id (.fresh fd) = (Worker.start fds).adopt a fd id := by
      simp only [soleWorker, Worker.put, Worker.adopt, update_idem]
      rfl
    have hone : recvOne (.start fds) (.message (some ⟨true, true, fd, id⟩)) (some a) true =
        some ((Worker.start fds).adopt a fd id, true) := by
      simp only [recvOne, hcmsg, if_neg (show ¬ fd < 0 by omega)]
      rfl
    simp only [loopMachine, hcmsg, hsole, hone]
    exact if_pos hguard
  have hstop : (loopMachine cfg).step (.running (soleWorker fds a id (.fresh fd)) true [])
      (.recv .failed none false) =
        some (none, .running (soleWorker fds a id (.fresh fd)) false []) := by
    simp [loopMachine, recvOne, forgeRecvFd]
  refine ⟨_, (run_cons_eq_some _).2 ⟨_, _, _, hwait, (run_cons_eq_some _).2 ⟨_, _, _, henter,
    (run_cons_eq_some _).2 ⟨_, _, _, hrecv, (run_cons_eq_some _).2 ⟨_, _, _, hstop, rfl, rfl⟩,
      rfl⟩, rfl⟩, rfl⟩, rfl, ?_⟩
  rw [eventsOf_cons hwait, eventsOf_cons henter, eventsOf_cons hrecv, eventsOf_cons hstop]
  rfl

end Alone

/-- **Connections of one worker do not influence each other.** Whatever else happens in a run of a
worker, there is a run with no other connection in which this one has the same events with the same
answers of the kernel, and exactly the same is done for it. -/
theorem connection_alone (cfg : ForgeCfg) (fds : List ℤ) (is : List LoopInput)
    (outs : List (Option (ConnId × Turn))) (s : LoopState)
    (hrun : (loopMachine cfg).run (.running (.start fds) false []) is = some (outs, s))
    (hnew : (is.flatMap LoopInput.gets).Nodup) (id : ConnId) :
    ∃ js outs' s', (loopMachine cfg).run (.running (.start fds) false []) js = some (outs', s') ∧
      js.flatMap LoopInput.gets ⊆ [id] ∧
      eventsOf cfg id (.running (.start fds) false []) js =
        eventsOf cfg id (.running (.start fds) false []) is ∧
      turnsOf id outs' = turnsOf id outs := by
  have hids : NewIds (.start fds) is := ⟨hnew, fun _ _ ↦ List.not_mem_nil⟩
  rcases track_new (Sound.start fds) hids List.not_mem_nil hrun with ⟨hevs, hturns⟩ | h
  · exact ⟨[], [], _, rfl, List.nil_subset _, hevs.symm, hturns.symm⟩
  · obtain ⟨fd, hpos, hfd, ⟨cs, hconn⟩, hopens⟩ := h
    obtain ⟨outs₁, hfirst, hturns₁, hevs₁⟩ := run_first cfg hpos hfd 0 id
    obtain ⟨outs₂, s', hrest, hturns₂, hevs₂⟩ :=
      run_alone 0 id (ConnInv.fresh fd) hpos hfd hconn hopens
    refine ⟨_, _, s', (run_append_eq_some _).2 ⟨_, _, _, hfirst, hrest, rfl⟩, ?_, ?_, ?_⟩
    · rw [List.flatMap_append, gets_alone, List.append_nil]
      have hgets :
          (LoopInput.recv (.message (some ⟨true, true, fd, id⟩)) (some 0) true).gets = [id] :=
        if_neg (by show ¬ fd < 0; omega)
      simp only [List.flatMap_cons, List.flatMap_nil, hgets]
      exact List.Subset.refl [id]
    · rw [eventsOf_append hfirst, hevs₁, hevs₂]
      rfl
    · rw [turnsOf, List.filterMap_append]
      exact (congrArg₂ (· ++ ·) hturns₁ hturns₂)

/-- The second connection to come in at one address and under one descriptor number: the first one
hangs up, the second one is sent a file. -/
theorem connection_alone_reuse :
    ∃ outs s, (loopMachine {}).run (.running (.start [3, 4]) false [])
        [.wait [.control], .enter, .recv (.message (some ⟨true, true, 5, 0⟩)) (some 64) true,
          .recv .failed none false, .wait [.client 5 ⟨true, false, true, false⟩, .control],
          .client (.offering []), .enter,
          .recv (.message (some ⟨true, true, 5, 1⟩)) (some 64) true, .recv .failed none false,
          .wait [.client 5 ⟨true, false, false, false⟩],
          .client (.serving (ascii "GET /a HTTP/1.1\r\n\r\n"))] = some (outs, s) ∧
      ∃ js outs' s', (loopMachine {}).run (.running (.start [3, 4]) false []) js =
          some (outs', s') ∧ js.flatMap LoopInput.gets ⊆ [1] ∧
        turnsOf 1 outs' = turnsOf 1 outs := by
  have hsome : ((loopMachine {}).run (.running (.start [3, 4]) false [])
      [.wait [.control], .enter, .recv (.message (some ⟨true, true, 5, 0⟩)) (some 64) true,
        .recv .failed none false, .wait [.client 5 ⟨true, false, true, false⟩, .control],
        .client (.offering []), .enter,
        .recv (.message (some ⟨true, true, 5, 1⟩)) (some 64) true, .recv .failed none false,
        .wait [.client 5 ⟨true, false, false, false⟩],
        .client (.serving (ascii "GET /a HTTP/1.1\r\n\r\n"))]).isSome := by
    decide +kernel
  obtain ⟨⟨outs, s⟩, hrun⟩ := Option.isSome_iff_exists.1 hsome
  obtain ⟨js, outs', s', hjs, hsole, -, hturns⟩ :=
    connection_alone {} [3, 4] _ outs s hrun (by decide) 1
  exact ⟨outs, s, hrun, js, outs', s', hjs, hsole, hturns⟩

end ForgeServer
