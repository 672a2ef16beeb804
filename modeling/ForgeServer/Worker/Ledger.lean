import ForgeServer.Worker.Bookkeeping

/-!
# The ledger of a worker

What becomes of the connections a worker gets from `forge_recv_fd`, provided none comes twice: each
is open under exactly one descriptor, or was closed once and is open no more (`Ledger`). The two
logs of a worker, what it got and what it closed, are all the ledger needs besides the descriptor
table.

`ledger_loopStep` is the step lemma, with what a step adds to the log of received connections.
-/

namespace ForgeServer

open Function

/-- The ledger is balanced. -/
structure Ledger (w : Worker) : Prop where
  got_nodup : w.got.Nodup
  shut_nodup : w.shut.Nodup
  /-- Only what was received is closed. -/
  shut_subset : ∀ id ∈ w.shut, id ∈ w.got
  /-- What is open was received, and not closed. -/
  opened : ∀ fd id, w.table fd = some (.conn id) → id ∈ w.got ∧ id ∉ w.shut
  /-- What was received and not closed is open. -/
  live : ∀ id ∈ w.got, id ∉ w.shut → ∃ fd, w.table fd = some (.conn id)
  /-- No connection is open twice. -/
  unique : ∀ fd fd' id, w.table fd = some (.conn id) → w.table fd' = some (.conn id) → fd = fd'

namespace Ledger

variable {w : Worker} {a : Addr} {o : Obj}

theorem start (fds : List ℤ) : Ledger (.start fds) where
  got_nodup := List.nodup_nil
  shut_nodup := List.nodup_nil
  shut_subset _ h := absurd h List.not_mem_nil
  opened fd id h := by
    simp only [Worker.start] at h
    split at h <;> simp at h
  live _ h := absurd h List.not_mem_nil
  unique fd fd' id h := by
    simp only [Worker.start] at h
    split at h <;> simp at h

/-- A connection that is received and closed again. -/
theorem refuse (h : Ledger w) {id : ConnId} (hnew : id ∉ w.got) : Ledger (w.refuse id) where
  got_nodup := by simpa [List.nodup_append] using ⟨h.got_nodup, fun x hx e ↦ hnew (e ▸ hx)⟩
  shut_nodup := by
    simpa [List.nodup_append] using
      ⟨h.shut_nodup, fun x hx e ↦ hnew (e ▸ h.shut_subset x hx)⟩
  shut_subset x hx := by
    rcases List.mem_append.1 hx with hx | hx
    · exact List.mem_append_left _ (h.shut_subset x hx)
    · exact List.mem_append_right _ hx
  opened fd x hx := by
    obtain ⟨hgot, hshut⟩ := h.opened fd x hx
    refine ⟨List.mem_append_left _ hgot, fun hmem ↦ ?_⟩
    rcases List.mem_append.1 hmem with hmem | hmem
    · exact hshut hmem
    · exact hnew (List.mem_singleton.1 hmem ▸ hgot)
  live x hx hno := by
    rcases List.mem_append.1 hx with hx | hx
    · exact h.live x hx fun hmem ↦ hno (List.mem_append_left _ hmem)
    · exact absurd (List.mem_append_right _ hx) hno
  unique := h.unique

/-- A connection that is received and registered, under a number that was not open. -/
theorem adopt (h : Ledger w) {id : ConnId} (hnew : id ∉ w.got) {fd : ℤ}
    (hfd : w.table fd = none) : Ledger (w.adopt a fd id) where
  got_nodup := by simpa [List.nodup_append] using ⟨h.got_nodup, fun x hx e ↦ hnew (e ▸ hx)⟩
  shut_nodup := h.shut_nodup
  shut_subset x hx := List.mem_append_left _ (h.shut_subset x hx)
  opened fd' x hx := by
    by_cases hne : fd' = fd
    · subst hne
      obtain rfl : id = x := by simpa using hx
      exact ⟨List.mem_append_right _ (List.mem_singleton_self _),
        fun hmem ↦ hnew (h.shut_subset _ hmem)⟩
    · rw [adopt_table, update_of_ne hne] at hx
      obtain ⟨hgot, hshut⟩ := h.opened fd' x hx
      exact ⟨List.mem_append_left _ hgot, hshut⟩
  live x hx hno := by
    rcases List.mem_append.1 hx with hx | hx
    · obtain ⟨fd', hfd'⟩ := h.live x hx hno
      have hne : fd' ≠ fd := fun heq ↦ by
        rw [heq, hfd] at hfd'
        exact absurd hfd' (by simp)
      exact ⟨fd', by rw [adopt_table, update_of_ne hne, hfd']⟩
    · obtain rfl := List.mem_singleton.1 hx
      exact ⟨fd, update_self ..⟩
  unique fd₁ fd₂ x h₁ h₂ := by
    have hother : ∀ fd', fd' ≠ fd → (w.adopt a fd id).table fd' = some (.conn x) → x ∈ w.got :=
      fun fd' hne hx ↦ (h.opened fd' x (by rwa [adopt_table, update_of_ne hne] at hx)).1
    have hself : (w.adopt a fd id).table fd = some (.conn x) → x ∉ w.got := fun hx ↦ by
      obtain rfl : id = x := by simpa using hx
      exact hnew
    by_cases e₁ : fd₁ = fd <;> by_cases e₂ : fd₂ = fd
    · rw [e₁, e₂]
    · exact absurd (hother fd₂ e₂ h₂) (hself (e₁ ▸ h₁))
    · exact absurd (hother fd₁ e₁ h₁) (hself (e₂ ▸ h₂))
    · rw [adopt_table, update_of_ne e₁] at h₁
      rw [adopt_table, update_of_ne e₂] at h₂
      exact h.unique fd₁ fd₂ x h₁ h₂

/-- A connection that is closed. -/
theorem release (h : Ledger w) (ho : w.Holds a o) : Ledger (w.release a o) where
  got_nodup := h.got_nodup
  shut_nodup := by
    have hno := (h.opened _ _ ho.table).2
    simpa [List.nodup_append] using ⟨h.shut_nodup, fun x hx e ↦ hno (e ▸ hx)⟩
  shut_subset x hx := by
    rcases List.mem_append.1 hx with hx | hx
    · exact h.shut_subset x hx
    · exact List.mem_singleton.1 hx ▸ (h.opened _ _ ho.table).1
  opened fd x hx := by
    obtain ⟨hne, hx⟩ := update_none_eq_some.1 hx
    obtain ⟨hgot, hshut⟩ := h.opened fd x hx
    refine ⟨hgot, fun hmem ↦ ?_⟩
    rcases List.mem_append.1 hmem with hmem | hmem
    · exact hshut hmem
    · rw [List.mem_singleton.1 hmem] at hx
      exact hne (h.unique _ _ _ hx ho.table)
  live x hx hno := by
    obtain ⟨fd, hfd⟩ := h.live x hx fun hmem ↦ hno (List.mem_append_left _ hmem)
    have hne : fd ≠ o.conn.fd := fun heq ↦ by
      rw [heq, ho.table, Option.some.injEq, Use.conn.injEq] at hfd
      exact hno (List.mem_append_right _ (List.mem_singleton.2 hfd.symm))
    exact ⟨fd, by rw [Worker.release_table, update_of_ne hne, hfd]⟩
  unique fd₁ fd₂ x h₁ h₂ :=
    h.unique fd₁ fd₂ x (update_none_eq_some.1 h₁).2 (update_none_eq_some.1 h₂).2

/-- A change that no log and no client descriptor takes part in. -/
theorem congr (h : Ledger w) {w' : Worker} (hgot : w'.got = w.got) (hshut : w'.shut = w.shut)
    (htable : ∀ fd id, w'.table fd = some (.conn id) ↔ w.table fd = some (.conn id)) :
    Ledger w' where
  got_nodup := hgot ▸ h.got_nodup
  shut_nodup := hshut ▸ h.shut_nodup
  shut_subset := by
    rw [hgot, hshut]
    exact h.shut_subset
  opened fd id hx := by
    rw [hgot, hshut]
    exact h.opened fd id ((htable fd id).1 hx)
  live id hx hno := by
    rw [hgot] at hx
    rw [hshut] at hno
    obtain ⟨fd, hfd⟩ := h.live id hx hno
    exact ⟨fd, (htable fd id).2 hfd⟩
  unique fd fd' id h₁ h₂ := h.unique fd fd' id ((htable fd id).1 h₁) ((htable fd' id).1 h₂)

theorem withFile (h : Ledger w) {fd : ℤ} (hfree : w.table fd = none) : Ledger (w.withFile fd) := by
  refine h.congr rfl rfl fun fd' id ↦ ?_
  show update w.table fd (some .other) fd' = _ ↔ _
  by_cases hne : fd' = fd
  · rw [hne, update_self, hfree]
    simp
  · rw [update_of_ne hne]

end Ledger

/-! ### One step -/

/-- The resources of a worker that is running. -/
def LoopState.worker? : LoopState → Option Worker
  | .running w _ _ => some w
  | .sending w => some w
  | .fault => none

/-- The connection that comes with what `recvmsg` returns. -/
def RecvMsg.gets (m : RecvMsg) : List ConnId := if forgeRecvFd m < 0 then [] else [m.id]

/-- What an input adds to the connections received. -/
def LoopInput.gets : LoopInput → List ConnId
  | .recv m _ _ => m.gets
  | _ => []

variable {cfg : ForgeCfg} {w : Worker} {receiving : Bool} {pending : List Ready}

/-- **A step keeps the ledger balanced** if what it receives is new. -/
theorem ledger_loopStep (hw : WorkerInv w) (hl : Ledger w) {i : LoopInput}
    {out : Option (ConnId × Turn)} {s' : LoopState} (hnew : ∀ id ∈ i.gets, id ∉ w.got)
    (h : LoopStep cfg w receiving pending i out s') :
    ∃ w', s'.worker? = some w' ∧ Ledger w' ∧ w'.got = w.got ++ i.gets := by
  cases h with
  | wait => exact ⟨w, rfl, hl, (List.append_nil _).symm⟩
  | enter => exact ⟨w, rfl, hl, (List.append_nil _).symm⟩
  | recv pending m calloc added hfd r h =>
    refine ⟨r.1, rfl, ?_⟩
    cases h with
    | stop hneg =>
      rw [LoopInput.gets, RecvMsg.gets, if_pos hneg, List.append_nil]
      exact ⟨hl, rfl⟩
    | refused hpos =>
      have hgets : (LoopInput.recv m calloc added).gets = [m.id] := if_neg (by omega)
      rw [hgets] at hnew ⊢
      exact ⟨hl.refuse (hnew _ (List.mem_singleton_self _)), rfl⟩
    | adopted hpos a ha =>
      have hgets : (LoopInput.recv m calloc added).gets = [m.id] := if_neg (by omega)
      rw [hgets] at hnew ⊢
      exact ⟨hl.adopt (hnew _ (List.mem_singleton_self _)) (hfd hpos), rfl⟩
  | kept a flags pending k o ho c hc hfd =>
    exact ⟨_, rfl, hl.congr rfl rfl fun _ _ ↦ Iff.rfl, (List.append_nil _).symm⟩
  | closed a flags pending k o ho =>
    exact ⟨_, rfl, hl.release (hw.holds a o ho).1, (List.append_nil _).symm⟩
  | sending a flags pending k o ho fd hfree =>
    exact ⟨_, rfl, hl.withFile hfree, (List.append_nil _).symm⟩

/-- The same with the bookkeeping, from a state of the loop. -/
theorem ledger_loop_step {s s' : LoopState} (hs : s.Inv) (hw : s.worker? = some w) (hl : Ledger w)
    {i : LoopInput} {out : Option (ConnId × Turn)} (hnew : ∀ id ∈ i.gets, id ∉ w.got)
    (hstep : (loopMachine cfg).step s i = some (out, s')) :
    s'.Inv ∧ ∃ w', s'.worker? = some w' ∧ Ledger w' ∧ w'.got = w.got ++ i.gets := by
  refine ⟨inv_loop_step hs hstep, ?_⟩
  cases s with
  | running w₀ receiving pending =>
    obtain rfl : w₀ = w := Option.some.inj hw
    exact ledger_loopStep hs.1 hl hnew (loop_cases hs.1 hs.2 hstep)
  | sending w₀ => exact absurd hstep (by simp [loopMachine])
  | fault => exact absurd hs id

/-- In every state whose bookkeeping is exact. -/
theorem LoopState.Inv.workerInv {s : LoopState} (hs : s.Inv) (hw : s.worker? = some w) :
    WorkerInv w := by
  cases s with
  | running w₀ receiving pending =>
    obtain rfl : w₀ = w := Option.some.inj hw
    exact hs.1
  | sending w₀ =>
    obtain rfl : w₀ = w := Option.some.inj hw
    exact hs
  | fault => exact absurd hs id

/-- A connection that was received is live: allocated once, registered and open, never closed. -/
def Worker.LiveOnce (w : Worker) (id : ConnId) : Prop :=
  id ∉ w.shut ∧ ∃ a o, w.Holds a o ∧ o.id = id ∧ ∀ a' o', w.heap a' = some o' → o'.id = id → a' = a

/-- A connection that was received is closed: `close` was called for it once, and nothing is left
of it. -/
def Worker.ClosedOnce (w : Worker) (id : ConnId) : Prop :=
  w.shut.count id = 1 ∧ (∀ fd, w.table fd ≠ some (.conn id)) ∧ ∀ a o, w.heap a = some o → o.id ≠ id

/-- **What was received is live or closed.** -/
theorem Ledger.settled (hl : Ledger w) (hw : WorkerInv w) {id : ConnId} (hid : id ∈ w.got) :
    w.LiveOnce id ∨ w.ClosedOnce id := by
  by_cases hshut : id ∈ w.shut
  · refine .inr ⟨List.count_eq_one_of_mem hl.shut_nodup hshut, fun fd hfd ↦ ?_, ?_⟩
    · exact (hl.opened fd id hfd).2 hshut
    · rintro a o ho rfl
      exact (hl.opened _ _ (hw.holds a o ho).1.table).2 hshut
  · obtain ⟨fd, hfd⟩ := hl.live id hid hshut
    obtain ⟨a, o, ho, rfl, rfl⟩ := hw.opened fd id hfd
    refine .inl ⟨hshut, a, o, (hw.holds a o ho).1, rfl, fun a' o' ho' hid' ↦ ?_⟩
    have htable := (hw.holds a' o' ho').1.table
    rw [hid'] at htable
    exact hw.fd_injective ho' ho (hl.unique _ _ _ htable hfd)

end ForgeServer
