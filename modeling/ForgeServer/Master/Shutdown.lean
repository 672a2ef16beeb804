import ForgeServer.Master.Signals

/-!
# The end of the server

Two statements on what happens once a process is told to leave. `worker_leaves`: a worker whose flag
is set takes a bounded number of steps, with at most one more `epoll_wait`, and is not stuck before
it has exited, unless a call of `handle_read` does not return. `server_ends`: the same for the
master, where each connection it accepts counts, because the accept loop does not look at the flag
(`accepts_on`); then its `kill` sets the flags of the workers.

Both rest on `run_potential`, with what a process has left to do as the potential: the rest of its
batch, and a batch more where the condition of the loop was passed.
-/

namespace ForgeServer

open Function Machine

variable {cfg : ForgeCfg} {cap : ℕ} {v v' : Server} {i : ServerInput} {out : SysOutput}

/-! ### What a worker has left to do -/

/-- The rest of the batch, and the exit. An event of the control socket counts twice: the receive
loop is entered, and left. -/
def LoopState.left : LoopState → ℕ
  | .running _ receiving pending => 1 + receiving.toNat + 2 * pending.length
  | _ => 0

/-- What an input adds to it, the input itself included. -/
def LoopInput.brings : LoopInput → ℕ
  | .wait batch => 2 * batch.length + 1
  | .recv m _ _ => if forgeRecvFd m < 0 then 0 else 1
  | _ => 0

theorem left_loop {st st' : LoopState} (hst : st.Inv) {j : LoopInput}
    {o : Option (ConnId × Turn)} (h : (loopMachine cfg).step st j = some (o, st')) :
    st'.left + 1 ≤ st.left + j.brings := by
  cases st with
  | fault => exact absurd hst fun h ↦ h
  | sending w => exact absurd h (by simp [loopMachine])
  | running w receiving pending =>
    have hcases := loop_cases hst.1 hst.2 h
    cases hcases with
    | wait batch hnodup =>
      have hlen : (batch.filterMap w.ready).length ≤ batch.length := List.length_filterMap_le ..
      simp only [LoopState.left, LoopInput.brings, List.length_nil, Bool.toNat_false]
      omega
    | enter pending =>
      simp only [LoopState.left, LoopInput.brings, List.length_cons, Bool.toNat_false,
        Bool.toNat_true]
      omega
    | recv pending m calloc added hfd r hr =>
      cases hr with
      | stop hneg =>
        simp only [LoopState.left, LoopInput.brings, if_pos hneg, Bool.toNat_false,
          Bool.toNat_true]
        omega
      | refused hpos | adopted hpos =>
        simp only [LoopState.left, LoopInput.brings, if_neg (not_lt.2 hpos)]
        omega
    | kept | closed | sending =>
      simp only [LoopState.left, LoopInput.brings, List.length_cons, Bool.toNat_false]
      omega

/-- A datagram that a worker goes on after is one less in its queue. -/
theorem length_deliver {r : Receipt} {queue queue' : List Datagram} {m : RecvMsg}
    {lost : List ConnId} (h : deliver r queue = some (m, queue', lost)) :
    queue'.length + (if forgeRecvFd m < 0 then 0 else 1) ≤ queue.length := by
  have htaken : ∀ d : Datagram, queue'.length + (if forgeRecvFd m < 0 then 0 else 1) ≤
      (d :: queue').length := fun d ↦ by
    rw [List.length_cons]
    split <;> omega
  cases r with
  | failed =>
    obtain ⟨rfl, heq⟩ := Prod.mk.inj (Option.some.inj h)
    obtain ⟨rfl, -⟩ := Prod.mk.inj heq
    exact le_rfl
  | installed | truncated =>
    rcases queue with - | ⟨d, queue⟩
    · exact absurd h (by simp [deliver])
    obtain ⟨-, heq⟩ := Prod.mk.inj (Option.some.inj h)
    obtain ⟨rfl, -⟩ := Prod.mk.inj heq
    exact htaken d

/-- The same with the datagrams that are queued for the worker. -/
def Link.left (l : Link) : ℕ :=
  match l.loop with
  | none => 0
  | some st => st.left + l.queue.length

/-- What a worker has left to do when its flag is set: what it has begun, and a batch if it has
passed the condition. -/
def Server.left (v : Server) (n : ℕ) : ℕ :=
  (v.sys.link n).left + if v.checked n then 2 * maxEvents + 1 else 0

/-- The worker that takes a step. Signals, datagrams, and an end from outside are steps of none. -/
def ServerInput.mover? : ServerInput → Option ℕ
  | .check n => some n
  | .sys (.worker n _) => some n
  | .sys (.recv n ..) => some n
  | _ => none

/-- A step of worker `n` counts. -/
def workerSteps (n : ℕ) (p : ServerInput × SysOutput) : ℕ := if p.1.mover? = some n then 1 else 0

/-- A call of `epoll_wait` in worker `n` counts. -/
def epollWaits (n : ℕ) : ServerInput × SysOutput → ℕ
  | (.sys (.worker m (.wait _)), _) => if m = n then 1 else 0
  | _ => 0

/-- A datagram that comes to worker `n` counts. -/
def arrivals (n : ℕ) : ServerInput × SysOutput → ℕ
  | (.sys (.datagram m ..), _) => if m = n then 1 else 0
  | (_, .offered _ m rc) => if m = n ∧ rc = 0 then 1 else 0
  | _ => 0

theorem left_push (l : Link) (id : ConnId) : (l.push id).left ≤ l.left + 1 := by
  rcases l with ⟨- | st, queue, sent, lost⟩
  · exact Nat.zero_le _
  · simp only [Link.left, Link.push, List.length_append, List.length_singleton]
    omega

theorem left_ill (l : Link) (d : Datagram) :
    ({ l with queue := l.queue ++ [d] } : Link).left ≤ l.left + 1 := by
  rcases l with ⟨- | st, queue, sent, lost⟩
  · exact Nat.zero_le _
  · simp only [Link.left, List.length_append, List.length_singleton]
    omega

/-- What a step of the system leaves worker `n` to do. A call of `epoll_wait` brings its batch. -/
theorem left_sys {s s' : System} (hs : s.Inv cfg) {j : SysInput}
    (h : SysStep cfg cap s j out s') (n : ℕ) :
    (s'.link n).left + workerSteps n (.sys j, out) ≤
        (s.link n).left + arrivals n (.sys j, out) ∨
      ∃ batch, j = .worker n (.wait batch) ∧
        (s'.link n).left + 1 ≤ (s.link n).left + (2 * batch.length + 1) := by
  have hother : ∀ {m : ℕ} {l : Link}, m ≠ n → ((s.setLink m l).link n).left = (s.link n).left :=
    fun {m l} hm ↦ by rw [setLink_link, update_of_ne (Ne.symm hm)]
  have hself : ∀ {l : Link}, ((s.setLink n l).link n).left = l.left :=
    fun {l} ↦ by rw [setLink_link, update_self]
  cases h with
  | signal | idle | accepted | unopened | rejected | closed => exact .inl (Nat.le_add_right _ _)
  | queued rest cfd target hpc id hcfd htakes =>
    refine .inl ?_
    by_cases hm : target = n
    · subst hm
      show (update s.link target ((s.link target).push id) target).left + 0 ≤
        (s.link target).left + if target = target ∧ (0 : ℤ) = 0 then 1 else 0
      rw [update_self, if_pos ⟨rfl, rfl⟩]
      exact left_push _ id
    · show (update s.link target ((s.link target).push id) n).left + 0 ≤ _
      rw [update_of_ne (Ne.symm hm)]
      exact Nat.le_add_right _ _
  | datagram m cmsg hill hloop =>
    refine .inl ?_
    by_cases hm : m = n
    · subst hm
      show _ + 0 ≤ _ + if m = m then 1 else 0
      rw [hself, if_pos rfl]
      exact left_ill _ _
    · rw [hother hm]
      exact Nat.le_add_right _ _
  | recv m r calloc added st st' hloop msg queue lost hdeliver o hstep =>
    refine .inl ?_
    by_cases hm : m = n
    · subst hm
      have hloop' := left_loop ((hs.link m).running st hloop).1 hstep
      have hqueue := length_deliver hdeliver
      have hleft : (s.link m).left = st.left + (s.link m).queue.length := by
        rw [Link.left, hloop]
      show _ + (if some m = some m then 1 else 0) ≤ _ + 0
      rw [hself, hleft, if_pos rfl]
      simp only [Link.left, LoopInput.brings] at hloop' ⊢
      omega
    · rw [hother hm]
      show _ + (if some m = some n then 1 else 0) ≤ _
      rw [if_neg (by simpa using hm)]
      exact Nat.le_add_right _ _
  | worker m k hk st st' hloop o hstep =>
    by_cases hm : m = n
    · subst hm
      have hloop' := left_loop ((hs.link m).running st hloop).1 hstep
      have hleft : (s.link m).left = st.left + (s.link m).queue.length := by
        rw [Link.left, hloop]
      have hnext : ((s.setLink m { s.link m with loop := some st' }).link m).left =
          st'.left + (s.link m).queue.length := hself
      rw [hnext, hleft]
      cases k with
      | wait batch =>
        refine .inr ⟨batch, rfl, ?_⟩
        simp only [LoopInput.brings] at hloop'
        omega
      | enter | client =>
        refine .inl ?_
        show _ + (if some m = some m then 1 else 0) ≤ _ + 0
        rw [if_pos rfl]
        simp only [LoopInput.brings] at hloop'
        omega
      | recv msg calloc added =>
        -- without a descriptor, so the receive loop is left
        have hneg : forgeRecvFd msg < 0 := by
          by_contra hpos
          rw [LoopInput.gets, RecvMsg.gets, if_neg hpos] at hk
          exact absurd hk (List.cons_ne_nil _ _)
        refine .inl ?_
        show _ + (if some m = some m then 1 else 0) ≤ _ + 0
        rw [if_pos rfl]
        simp only [LoopInput.brings, if_pos hneg] at hloop'
        omega
    · refine .inl ?_
      rw [hother hm]
      show _ + (if some m = some n then 1 else 0) ≤ _
      rw [if_neg (by simpa using hm)]
      exact Nat.le_add_right _ _
  | exit m =>
    refine .inl ?_
    by_cases hm : m = n
    · subst hm
      rw [hself]
      exact Nat.zero_le _
    · rw [hother hm]
      exact Nat.le_add_right _ _

/-! ### A worker whose flag is set -/

/-- No step but its own test makes a worker pass the condition. -/
theorem checkedAfter_le {j : SysInput} {n : ℕ} (h : v.checkedAfter j n = true) :
    v.checked n = true := by
  unfold Server.checkedAfter at h
  split at h
  · rename_i m batch
    rcases eq_or_ne n m with rfl | hne
    · rw [update_self] at h
      exact absurd h Bool.false_ne_true
    · rwa [update_of_ne hne] at h
  · exact h

theorem flag_step {n : ℕ} (hflag : v.flag n = true) (h : ServerStep cfg cap v i out v') :
    v'.flag n = true := by
  cases h with
  | sys | leaves | stays => exact hflag
  | signal m =>
    show update v.flag m true n = true
    rw [update_apply]
    split
    · rfl
    · exact hflag
  | kill => rfl

theorem sysInv_step (hv : v.sys.Inv cfg) (h : ServerStep cfg cap v i out v') : v'.sys.Inv cfg := by
  cases h with
  | sys j hadmits out s' hstep => exact system_inv_step hv (sys_cases hstep)
  | signal | stays => exact hv
  | leaves n =>
    have hexit : SysStep cfg cap v.sys (.exit n) .quiet _ := .exit n
    exact system_inv_step hv hexit
  | kill =>
    have hsignal : SysStep cfg cap v.sys (.master .terminate) .quiet _ := .signal
    exact system_inv_step hv hsignal

/-- **Every step of a worker takes from what it has left**, once its flag is set. -/
theorem left_step (hv : v.sys.Inv cfg) {n : ℕ} (hflag : v.flag n = true)
    (h : ServerStep cfg cap v i out v') :
    v'.left n + workerSteps n (i, out) ≤ v.left n + arrivals n (i, out) := by
  cases h with
  | sys j hadmits out s' hstep =>
    show (s'.link n).left + (if v.checkedAfter j n then 2 * maxEvents + 1 else 0) + _ ≤
      (v.sys.link n).left + (if v.checked n then 2 * maxEvents + 1 else 0) + _
    rcases left_sys hv (sys_cases hstep) n with hle | ⟨batch, rfl, hle⟩
    · have hchecked : (if v.checkedAfter j n then 2 * maxEvents + 1 else 0) ≤
          if v.checked n then 2 * maxEvents + 1 else 0 := by
        split
        · rename_i hafter
          rw [if_pos (checkedAfter_le hafter)]
        · exact Nat.zero_le _
      omega
    · -- `epoll_wait` is paid for by the condition that was passed
      obtain ⟨hchecked, hlen⟩ := hadmits
      have hafter : v.checkedAfter (.worker n (.wait batch)) n = false := update_self ..
      have hone : workerSteps n (.sys (.worker n (.wait batch)), out) = 1 := if_pos rfl
      rw [hafter, if_pos hchecked, hone, if_neg Bool.false_ne_true]
      omega
  | signal m => exact Nat.le_add_right _ _
  | leaves m w hloop hset =>
    show ((v.sys.setLink m { v.sys.link m with loop := none, queue := [] }).link n).left +
      (if v.checked n then 2 * maxEvents + 1 else 0) + (if some m = some n then 1 else 0) ≤
      (v.sys.link n).left + (if v.checked n then 2 * maxEvents + 1 else 0) + 0
    rw [setLink_link]
    rcases eq_or_ne n m with rfl | hne
    · have hleft : 1 ≤ (v.sys.link n).left := by
        simp only [Link.left, hloop, LoopState.left]
        omega
      have hzero : ({ v.sys.link n with loop := none, queue := [] } : Link).left = 0 := rfl
      rw [update_self, hzero, if_pos (rfl : some n = some n)]
      omega
    · rw [update_of_ne hne, if_neg fun heq ↦ hne (Option.some.inj heq).symm]
  | stays m hunset =>
    have hne : n ≠ m := fun heq ↦ by
      rw [← heq, hflag] at hunset
      exact Bool.noConfusion hunset
    show (v.sys.link n).left + (if update v.checked m true n then 2 * maxEvents + 1 else 0) +
      (if some m = some n then 1 else 0) ≤ _
    rw [update_of_ne hne, if_neg fun heq ↦ hne (Option.some.inj heq).symm]
    exact Nat.le_add_right _ _
  | kill => exact Nat.le_add_right _ _

/-- `epoll_wait` is called behind the condition only, and the condition is not passed again. -/
theorem checked_step {n : ℕ} (hflag : v.flag n = true) (h : ServerStep cfg cap v i out v') :
    (v'.checked n).toNat + epollWaits n (i, out) ≤ (v.checked n).toNat + 0 := by
  cases h with
  | signal | leaves | kill => exact Nat.le_refl _
  | stays m hunset =>
    have hne : n ≠ m := fun heq ↦ by
      rw [← heq, hflag] at hunset
      exact Bool.noConfusion hunset
    show (update v.checked m true n).toNat + 0 ≤ _
    rw [update_of_ne hne]
  | sys j hadmits out s' hstep =>
    show (v.checkedAfter j n).toNat + _ ≤ _
    cases j with
    | master | datagram | recv | exit => exact Nat.le_refl _
    | worker m k =>
      cases k with
      | enter | recv | client => exact Nat.le_refl _
      | wait batch =>
        show (update v.checked m false n).toNat + (if m = n then 1 else 0) ≤ _
        rcases eq_or_ne n m with rfl | hne
        · rw [update_self, if_pos rfl, hadmits.1]
          exact Nat.le_refl _
        · rw [update_of_ne hne, if_neg hne.symm]

/-! ### A worker is not stuck -/

/-- Closing opens no file, and neither does a `read` that reports the end. -/
theorem openedFds_offering (cfg : ForgeCfg) (flags : Flags) (c : ForgeConn) :
    openedFds (clientEvent cfg (flags.event (.offering [])) c).calls = [] := by
  have hclose : openedFds (connClose c) = [] := by
    rw [connClose]
    split <;> rfl
  have hread : (handleRead cfg (.offering []) c).calls =
      .read c.fd c.rlen (readCount c) (.bytes []) :: connClose c := by
    rw [handleRead]
    simp [Kernel.offering, finishRead, connClose]
  unfold clientEvent
  split
  · exact hclose
  split
  · show openedFds (handleRead cfg (.offering []) c).calls = []
    rw [hread]
    exact hclose
  · rfl

/-- **A worker that runs can take a step**, whatever it is doing. -/
theorem exists_move (hv : v.sys.Inv cfg) {n : ℕ} {w : Worker} {receiving : Bool}
    {pending : List Ready} (hloop : (v.sys.link n).loop = some (.running w receiving pending)) :
    ∃ i out v', i.mover? = some n ∧ (serverMachine cfg cap).step v i = some (out, v') := by
  have hworker : ∀ j : LoopInput, v.Admits (.worker n j) → (∀ m c b, j ≠ .recv m c b) →
      ∀ o st', (loopMachine cfg).step (.running w receiving pending) j = some (o, st') →
      ∃ i out v', i.mover? = some n ∧ (serverMachine cfg cap).step v i = some (out, v') := by
    intro j hadmits hj o st' hstep
    refine ⟨.sys (.worker n j), .worker n o, { v with
      sys := v.sys.setLink n { v.sys.link n with loop := some st' }
      checked := v.checkedAfter (.worker n j) }, rfl, ?_⟩
    have hsys : v.sys.step cfg cap (.worker n j) = some (.worker n o,
        v.sys.setLink n { v.sys.link n with loop := some st' }) := by
      cases j with
      | recv m c b => exact absurd rfl (hj m c b)
      | wait | enter | client => simp only [System.step, hloop, hstep]
    simp only [serverMachine, Server.step, if_pos hadmits, hsys, Option.map_some]
  obtain ⟨hinv, hp⟩ := ((hv.link n).running _ hloop).1
  cases receiving with
  | true =>
    -- `recvmsg` can always fail
    refine ⟨.sys (.recv n .failed none false), .worker n none, { v with
      sys := v.sys.setLink n ⟨some (.running w false pending), (v.sys.link n).queue,
        (v.sys.link n).sent, (v.sys.link n).lost ++ []⟩
      checked := v.checked }, rfl, ?_⟩
    have hsys : v.sys.step cfg cap (.recv n .failed none false) = some (.worker n none,
        v.sys.setLink n ⟨some (.running w false pending), (v.sys.link n).queue,
          (v.sys.link n).sent, (v.sys.link n).lost ++ []⟩) := by
      have hstep : (loopMachine cfg).step (.running w true pending) (.recv .failed none false) =
          some (none, .running w false pending) := by
        have hguard : (0 ≤ forgeRecvFd .failed → w.table (forgeRecvFd .failed) = none) ∧
            ∀ a ∈ (none : Option Addr), w.heap a = none :=
          ⟨fun h ↦ absurd h (by decide), fun a ha ↦ absurd ha (by simp)⟩
        simp only [loopMachine, if_pos hguard]
        rfl
      simp only [System.step, hloop, deliver, hstep]
    have hadmits : v.Admits (.recv n .failed none false) := trivial
    simp only [serverMachine, Server.step, if_pos hadmits, hsys, Option.map_some,
      Server.checkedAfter]
  | false =>
    rcases pending with - | ⟨- | ⟨a, id, flags⟩, pending⟩
    · rcases hchecked : v.checked n with - | -
      · rcases hflag : v.flag n with - | -
        · exact ⟨.check n, .quiet, _, rfl, by
            simp only [serverMachine, Server.step, hloop, hchecked, hflag]; rfl⟩
        · exact ⟨.check n, .quiet, _, rfl, by
            simp only [serverMachine, Server.step, hloop, hchecked, hflag, System.step]; rfl⟩
      · refine hworker (.wait []) ⟨hchecked, Nat.zero_le _⟩ (by simp) none (.running w false []) ?_
        simp only [loopMachine]
        exact if_pos ⟨List.nodup_nil, fun fd h ↦ absurd h List.not_mem_nil⟩
    · exact hworker .enter trivial (by simp) none _ rfl
    · obtain ⟨o, ho, rfl⟩ := hp.live a id flags List.mem_cons_self
      have hfree : ∀ fd ∈ openedFds
          (clientEvent cfg (flags.event (.offering [])) o.conn).calls, w.table fd = none := by
        rw [openedFds_offering]
        exact fun fd h ↦ absurd h List.not_mem_nil
      exact hworker (.client (.offering [])) trivial (by simp) _ _ (by
        simp only [loopMachine, ho]
        exact if_pos hfree)

/-- The worker has exited, or is in a call of `handle_read` that does not return. -/
def Server.Out (v : Server) (n : ℕ) : Prop :=
  (v.sys.link n).loop = none ∨ ∃ w, (v.sys.link n).loop = some (.sending w)

/-- A worker without a step to take is out. -/
theorem out_of_stuck (hv : v.sys.Inv cfg) {n : ℕ}
    (hstuck : ∀ i, i.mover? = some n → (serverMachine cfg cap).step v i = none) : v.Out n := by
  rcases hloop : (v.sys.link n).loop with - | st
  · exact .inl hloop
  cases st with
  | sending w => exact .inr ⟨w, hloop⟩
  | fault => exact absurd ((hv.link n).running _ hloop).1 fun h ↦ h
  | running w receiving pending =>
    obtain ⟨i, out, v', hi, hstep⟩ : ∃ i out v', i.mover? = some n ∧
        (serverMachine cfg cap).step v i = some (out, v') := exists_move hv hloop
    rw [hstuck i hi] at hstep
    exact absurd hstep (by simp)

/-- **A worker leaves when it is told to.** From the moment its flag is set, wherever it is in its
loop and whatever the others do, it takes no more steps than it had left and datagrams come to it,
calls `epoll_wait` once more at most, and has a step to take until it has exited, unless a call of
`handle_read` does not return. -/
theorem worker_leaves (cfg : ForgeCfg) (cap : ℕ) (fds : List ℤ) (v : Server)
    (hv : (serverMachine cfg cap).Reachable (.start cfg fds) v) (n : ℕ) (hflag : v.flag n = true)
    (is : List ServerInput) (outs : List SysOutput) (v' : Server)
    (hrun : (serverMachine cfg cap).run v is = some (outs, v')) :
    total (workerSteps n) is outs ≤ v.left n + total (arrivals n) is outs ∧
      total (epollWaits n) is outs ≤ (v.checked n).toNat ∧
      ((∀ i, i.mover? = some n → (serverMachine cfg cap).step v' i = none) → v'.Out n) := by
  have hinv := reachable_server_inv hv
  have hinv' := reachable_server_inv (hv.run hrun)
  have hsteps : v'.left n + total (workerSteps n) is outs ≤
      v.left n + total (arrivals n) is outs := by
    refine run_potential (P := fun v ↦ v.sys.Inv cfg ∧ v.flag n = true)
      (fun v ↦ v.left n) _ _ ?_ ⟨hinv, hflag⟩ hrun
    rintro v i o v' ⟨hinv, hflag⟩ hstep
    have h := server_cases hstep
    exact ⟨⟨sysInv_step hinv h, flag_step hflag h⟩, left_step hinv hflag h⟩
  have hwaits : (v'.checked n).toNat + total (epollWaits n) is outs ≤
      (v.checked n).toNat + total (fun _ ↦ 0) is outs := by
    refine run_potential (P := fun v ↦ v.flag n = true)
      (fun v ↦ (v.checked n).toNat) _ _ ?_ hflag hrun
    intro v i o v' hflag hstep
    have h := server_cases hstep
    exact ⟨flag_step hflag h, checked_step hflag h⟩
  rw [total_zero] at hwaits
  exact ⟨by omega, by omega, out_of_stuck hinv'⟩

/-- A signal comes between the condition and `epoll_wait`: one more batch is handled. -/
theorem worker_leaves_one :
    ∃ v outs v', (serverMachine {} 10).run (.start {} [3, 4]) [.check 0, .signal 0] =
        some ([.quiet, .quiet], v) ∧
      (serverMachine {} 10).run v [.sys (.worker 0 (.wait [.control])), .sys (.worker 0 .enter),
        .sys (.recv 0 .failed none false), .check 0] = some (outs, v') ∧
      v.flag 0 = true ∧ (v'.sys.link 0).loop = none ∧
      total (workerSteps 0) [.sys (.worker 0 (.wait [.control])), .sys (.worker 0 .enter),
        .sys (.recv 0 .failed none false), .check 0] outs ≤
        v.left 0 + total (arrivals 0) [.sys (.worker 0 (.wait [.control])),
          .sys (.worker 0 .enter), .sys (.recv 0 .failed none false), .check 0] outs :=
  ⟨_, _, _, rfl, rfl, rfl, rfl,
    (worker_leaves {} 10 [3, 4] _ ⟨[.check 0, .signal 0], _, rfl⟩ 0 rfl _ _ _ rfl).1⟩

/-! ### The master once its flag is set -/

/-- What is left of the batch, of the dispatch, and of the way out. -/
def MasterPc.left : MasterPc → ℕ
  | .wait => 2
  | .accepting rest => rest + 3
  | .dispatching rest _ _ => rest + 5
  | .closing rest _ => rest + 4
  | .stopped => 1

/-- What the master has left to do when its flag is set and nothing more is accepted. -/
def Server.masterLeft (v : Server) : ℕ := if v.killed then 0 else v.sys.pc.left

/-- The input is a step of the master. -/
def ServerInput.ofMaster : ServerInput → Bool
  | .sys (.master .terminate) => false
  | .sys (.master _) => true
  | .kill => true
  | _ => false

/-- A step of the master counts. -/
def masterSteps (p : ServerInput × SysOutput) : ℕ := p.1.ofMaster.toNat

/-- A connection that is accepted keeps the master for three steps more, an `accept4` that is
interrupted for one. -/
def holdsUp : ServerInput × SysOutput → ℕ
  | (.sys (.master (.accept4 (.client _))), _) => 3
  | (.sys (.master (.accept4 .interrupted)), _) => 1
  | _ => 0

/-- The condition of the master's loop is all that looks at its flag. -/
theorem left_master {s s' : System} (hterm : s.terminate = true) {j : MasterInput}
    (h : s.masterStep cfg cap j = some (out, s')) :
    s'.terminate = true ∧ s'.pc.left + masterSteps (.sys (.master j), out) ≤
      s.pc.left + holdsUp (.sys (.master j), out) := by
  have hnext : ∀ rest, (s.nextEvent rest).terminate = true ∧
      (s.nextEvent rest).pc.left ≤ rest + 2 := by
    rintro (- | rest)
    · exact ⟨hterm, Nat.le_refl 2⟩
    · exact ⟨hterm, Nat.le_refl (rest + 3)⟩
  unfold System.masterStep at h
  -- the cases are the inputs, then the place of the master, then the kernel's answer
  split at h
  case h_1 =>
    obtain ⟨rfl, rfl⟩ := Prod.mk.inj (Option.some.inj h)
    exact ⟨rfl, Nat.le_refl _⟩
  case h_2 r =>
    split at h
    case h_2 => exact absurd h (by simp)
    rename_i hpc
    rw [if_pos hterm] at h
    obtain ⟨rfl, rfl⟩ := Prod.mk.inj (Option.some.inj h)
    exact ⟨hterm, by rw [hpc]; exact Nat.le_refl 2⟩
  case h_3 r =>
    split at h
    case h_2 => exact absurd h (by simp)
    rename_i rest hpc
    rw [hpc]
    have hidle : ∀ r, (s.nextEvent rest).pc.left + masterSteps (.sys (.master (.accept4 r)), out) ≤
        rest + 3 + holdsUp (.sys (.master (.accept4 r)), out) := fun r ↦
      (Nat.add_le_add_right (hnext rest).2 1).trans (Nat.le_add_right _ _)
    split at h
    · obtain ⟨rfl, rfl⟩ := Prod.mk.inj (Option.some.inj h)
      exact ⟨(hnext rest).1, hidle _⟩
    · obtain ⟨rfl, rfl⟩ := Prod.mk.inj (Option.some.inj h)
      exact ⟨hterm, by rw [hpc]; exact Nat.le_refl (rest + 3 + 1)⟩
    · obtain ⟨rfl, rfl⟩ := Prod.mk.inj (Option.some.inj h)
      exact ⟨(hnext rest).1, hidle _⟩
    · -- a connection is accepted, whatever the flag
      obtain ⟨-, h⟩ := Option.ite_none_right_eq_some.1 h
      obtain ⟨rfl, rfl⟩ := Prod.mk.inj (Option.some.inj h)
      exact ⟨hterm, Nat.le_refl (rest + 6)⟩
  case h_4 fails =>
    split at h
    case h_2 => exact absurd h (by simp)
    rename_i rest cfd target hpc
    rw [hpc]
    split at h
    · obtain ⟨rfl, rfl⟩ := Prod.mk.inj (Option.some.inj h)
      exact ⟨hterm, Nat.le_refl (rest + 5)⟩
    · split at h <;> obtain ⟨rfl, rfl⟩ := Prod.mk.inj (Option.some.inj h)
      · exact ⟨hterm, Nat.le_refl (rest + 5)⟩
      · exact ⟨hterm, Nat.le_refl (rest + 5)⟩
  case h_5 =>
    split at h
    case h_2 => exact absurd h (by simp)
    rename_i rest cfd hpc
    obtain ⟨rfl, rfl⟩ := Prod.mk.inj (Option.some.inj h)
    rw [hpc]
    exact ⟨hterm, Nat.le_refl (rest + 4)⟩

/-- What holds once the master has called `kill`. -/
def Server.Settled (v : Server) : Prop :=
  v.killed = true → v.sys.pc = .stopped ∧ ∀ n, v.flag n = true

/-- Out of its loop the master is only told to leave it. -/
theorem masterStep_stopped {s s' : System} (hpc : s.pc = .stopped) {j : MasterInput}
    (h : s.masterStep cfg cap j = some (out, s')) : j = .terminate ∧ s'.pc = .stopped := by
  cases j with
  | terminate =>
    obtain ⟨rfl, rfl⟩ := Prod.mk.inj (Option.some.inj h)
    exact ⟨rfl, hpc⟩
  | epollWait | accept4 | sendFd | close => exact absurd h (by simp [System.masterStep, hpc])

theorem settled_step (hv : v.Settled) (h : ServerStep cfg cap v i out v') : v'.Settled := by
  have hkeep : ∀ n, v.flag n = true → v'.flag n = true := fun n hflag ↦ flag_step hflag h
  cases h with
  | sys j hadmits out s' hstep =>
    intro hkilled
    obtain ⟨hpc, hflag⟩ := hv hkilled
    refine ⟨?_, hflag⟩
    cases hon : j.on? with
    | some n => exact (link_of_on (sys_cases hstep) hon).1.trans hpc
    | none =>
      cases j with
      | master j => exact (masterStep_stopped hpc hstep).2
      | datagram | recv | worker | exit => exact absurd hon (by simp [SysInput.on?])
  | signal => exact fun hkilled ↦ ⟨(hv hkilled).1, fun n ↦ hkeep n ((hv hkilled).2 n)⟩
  | leaves | stays => exact hv
  | kill hpc => exact fun _ ↦ ⟨hpc, fun _ ↦ rfl⟩

theorem reachable_settled {fds : List ℤ}
    (hv : (serverMachine cfg cap).Reachable (.start cfg fds) v) : v.Settled :=
  hv.invariant (fun h ↦ absurd h Bool.false_ne_true) fun _ _ _ _ hs hstep ↦
    settled_step hs (server_cases hstep)

/-- A step of a worker leaves the master's flag as it is. -/
theorem terminate_of_on {s s' : System} {j : SysInput}
    (hstep : (forgeMachine cfg cap).step s j = some (out, s')) {n : ℕ} (hn : j.on? = some n)
    (hterm : s.terminate = true) : s'.terminate = true := by
  have h := sys_cases hstep
  cases h with
  | signal | idle | accepted | unopened | queued | rejected | closed =>
    exact absurd hn (by simp [SysInput.on?])
  | datagram | recv | worker | exit => exact hterm

/-- **Every step of the master takes from what it has left**, once its flag is set, unless it
accepts. -/
theorem masterLeft_step (hv : v.Settled) (hterm : v.sys.terminate = true)
    (h : ServerStep cfg cap v i out v') :
    v'.sys.terminate = true ∧
      v'.masterLeft + masterSteps (i, out) ≤ v.masterLeft + holdsUp (i, out) := by
  cases h with
  | signal | leaves | stays => exact ⟨hterm, Nat.le_refl _⟩
  | kill hpc hkilled =>
    refine ⟨rfl, ?_⟩
    rw [show v.masterLeft = 1 by rw [Server.masterLeft, hkilled, hpc]; rfl]
    exact Nat.le_refl 1
  | sys j hadmits out s' hstep =>
    show _ ∧ (if v.killed then 0 else s'.pc.left) + _ ≤ (if v.killed then 0 else v.sys.pc.left) + _
    cases hon : j.on? with
    | some n =>
      have hpc := (link_of_on (sys_cases hstep) hon).1
      rw [hpc]
      cases j with
      | master => exact absurd hon (by simp [SysInput.on?])
      | datagram | recv | worker | exit => exact ⟨terminate_of_on hstep hon hterm, Nat.le_refl _⟩
    | none =>
      cases j with
      | datagram | recv | worker | exit => exact absurd hon (by simp [SysInput.on?])
      | master j =>
        obtain ⟨hterm', hle⟩ := left_master hterm hstep
        refine ⟨hterm', ?_⟩
        rcases hkilled : v.killed with - | -
        · exact hle
        · obtain ⟨rfl, -⟩ := masterStep_stopped (hv hkilled).1 hstep
          exact Nat.le_refl 0

/-- **The master can take a step** until it has called `kill`. -/
theorem exists_master_move (hkilled : v.killed = false) :
    ∃ i out v', i.ofMaster = true ∧ (serverMachine cfg cap).step v i = some (out, v') := by
  have hmaster : ∀ j : MasterInput, (ServerInput.sys (.master j)).ofMaster = true →
      (v.sys.masterStep cfg cap j).isSome →
      ∃ i out v', i.ofMaster = true ∧ (serverMachine cfg cap).step v i = some (out, v') := by
    intro j hj hsome
    obtain ⟨⟨out, s'⟩, hstep⟩ := Option.isSome_iff_exists.1 hsome
    refine ⟨.sys (.master j), out, { v with sys := s' }, hj, ?_⟩
    have hadmits : v.Admits (.master j) := trivial
    have hsys : v.sys.step cfg cap (.master j) = some (out, s') := hstep
    simp only [serverMachine, Server.step, if_pos hadmits, hsys, Option.map_some,
      Server.checkedAfter]
  rcases hpc : v.sys.pc with - | rest | ⟨rest, cfd, target⟩ | ⟨rest, cfd⟩ | -
  · refine hmaster (.epollWait .failed) rfl ?_
    simp only [System.masterStep, hpc]
    split <;> rfl
  · refine hmaster (.accept4 .again) rfl ?_
    simp only [System.masterStep, hpc]
    rfl
  · refine hmaster (.sendFd true) rfl ?_
    simp only [System.masterStep, hpc]
    split
    · rfl
    · split <;> rfl
  · refine hmaster .close rfl ?_
    simp only [System.masterStep, hpc]
    rfl
  · exact ⟨.kill, .quiet, _, rfl, by simp only [serverMachine, Server.step, hpc, hkilled]; rfl⟩

/-- **The accept loop does not look at the flag**: while clients connect, the master accepts. -/
theorem accepts_on {rest : ℕ} (hv : v.sys.Inv cfg) (hpc : v.sys.pc = .accepting rest) (k : ℕ) :
    ∃ is outs v', (serverMachine cfg cap).run v is = some (outs, v') ∧
      v'.sys.accepted = v.sys.accepted + k ∧ v'.sys.pc = .accepting rest := by
  induction k generalizing v with
  | zero => exact ⟨[], [], v, rfl, rfl, hpc⟩
  | succ k ih =>
    have hclients : v.sys.clients = fun _ ↦ none :=
      (inHand_of_idle (by rw [hpc]; trivial)).1 hv.master.inHand
    -- the connection is accepted, not delivered, and closed
    let v₁ : Server := { v with sys := { v.sys with
      pc := .dispatching rest 0 v.sys.next
      next := (v.sys.next + 1) % cfg.workerCount
      clients := update v.sys.clients 0 (some v.sys.accepted)
      accepted := v.sys.accepted + 1 } }
    let v₂ : Server := { v₁ with sys := { v₁.sys with pc := .closing rest 0 } }
    let v₃ : Server := { v₂ with sys := { v₂.sys with
      pc := .accepting rest
      clients := update v₂.sys.clients 0 none } }
    have h₁ : (serverMachine cfg cap).step v (.sys (.master (.accept4 (.client 0)))) =
        some (.quiet, v₁) := by
      have hadmits : v.Admits (.master (.accept4 (.client 0))) := trivial
      have hfree : (0 : ℤ) ≤ 0 ∧ v.sys.clients 0 = none := ⟨le_rfl, by rw [hclients]⟩
      simp only [serverMachine, Server.step, if_pos hadmits, System.step, System.masterStep, hpc,
        if_pos hfree, Option.map_some, Server.checkedAfter]
      rfl
    have h₂ : (serverMachine cfg cap).step v₁ (.sys (.master (.sendFd true))) =
        some (.offered v.sys.accepted v.sys.next (-1), v₂) := by
      have hadmits : v₁.Admits (.master (.sendFd true)) := trivial
      have hfails : ¬ ((v₁.sys.link v.sys.next).Takes cap ∧ true = false) := by simp
      have hsend : v₁.sys.step cfg cap (.master (.sendFd true)) =
          some (.offered v.sys.accepted v.sys.next (-1), v₂.sys) := by
        simp only [System.step, System.masterStep]
        exact if_neg hfails
      simp only [serverMachine, Server.step, if_pos hadmits, hsend, Option.map_some,
        Server.checkedAfter]
      rfl
    have h₃ : (serverMachine cfg cap).step v₂ (.sys (.master .close)) = some (.quiet, v₃) := rfl
    have hinv₃ : v₃.sys.Inv cfg := sysInv_step (sysInv_step (sysInv_step hv (server_cases h₁))
      (server_cases h₂)) (server_cases h₃)
    obtain ⟨is, outs, v', hrun, hacc, hpc'⟩ := ih hinv₃ rfl
    refine ⟨_ :: _ :: _ :: is, _, v', (run_cons_eq_some _).2 ⟨_, v₁, _, h₁,
      (run_cons_eq_some _).2 ⟨_, v₂, _, h₂, (run_cons_eq_some _).2 ⟨_, v₃, _, h₃, hrun, rfl⟩, rfl⟩,
      rfl⟩, ?_, hpc'⟩
    rw [hacc, show v₃.sys.accepted = v.sys.accepted + 1 from rfl]
    omega

/-- **The server ends when the master is told to leave.** From the moment the master's flag is set,
wherever it is in its loop and whatever the workers do, it takes no more steps than it had left, and
three for each connection it still accepts; its `kill` sets the flag of every worker; and where
neither it nor a worker has a step to take any more, `kill` was called and every worker has exited,
unless a call of `handle_read` does not return. -/
theorem server_ends (cfg : ForgeCfg) (cap : ℕ) (fds : List ℤ) (v : Server)
    (hv : (serverMachine cfg cap).Reachable (.start cfg fds) v) (hterm : v.sys.terminate = true)
    (is : List ServerInput) (outs : List SysOutput) (v' : Server)
    (hrun : (serverMachine cfg cap).run v is = some (outs, v')) :
    total masterSteps is outs ≤ v.masterLeft + total holdsUp is outs ∧
      (v'.killed = true → ∀ n, v'.flag n = true) ∧
      ((∀ i, i.ofMaster = true ∨ i.mover?.isSome → (serverMachine cfg cap).step v' i = none) →
        v'.killed = true ∧ ∀ n, v'.Out n) := by
  have hreach := hv.run hrun
  have hsteps : v'.masterLeft + total masterSteps is outs ≤
      v.masterLeft + total holdsUp is outs := by
    refine run_potential (P := fun v ↦ v.Settled ∧ v.sys.terminate = true) Server.masterLeft _ _ ?_
      ⟨reachable_settled hv, hterm⟩ hrun
    rintro v i o v' ⟨hsettled, hterm⟩ hstep
    have h := server_cases hstep
    obtain ⟨hterm', hle⟩ := masterLeft_step hsettled hterm h
    exact ⟨⟨settled_step hsettled h, hterm'⟩, hle⟩
  refine ⟨by omega, fun hkilled ↦ (reachable_settled hreach hkilled).2,
    fun hstuck ↦ ⟨?_, fun n ↦ ?_⟩⟩
  · by_contra hkilled
    obtain ⟨i, out, v'', hi, hstep⟩ : ∃ i out v'', i.ofMaster = true ∧
        (serverMachine cfg cap).step v' i = some (out, v'') :=
      exists_master_move (Bool.not_eq_true _ ▸ hkilled)
    rw [hstuck i (.inl hi)] at hstep
    exact absurd hstep (by simp)
  · exact out_of_stuck (reachable_server_inv hreach) fun i hi ↦
      hstuck i (.inr (by rw [hi]; rfl))

/-- Told to leave while it waits, the master takes two steps. -/
theorem server_ends_one :
    ∃ v outs v', (serverMachine {} 10).run (.start {} [3, 4]) [.sys (.master .terminate)] =
        some ([.quiet], v) ∧
      (serverMachine {} 10).run v [.sys (.master (.epollWait .interrupted)), .kill] =
        some (outs, v') ∧
      v.sys.terminate = true ∧ v'.killed = true ∧
      total masterSteps [.sys (.master (.epollWait .interrupted)), .kill] outs ≤
        v.masterLeft + total holdsUp [.sys (.master (.epollWait .interrupted)), .kill] outs ∧
      ∀ n, v'.flag n = true := by
  refine ⟨_, _, _, rfl, rfl, rfl, rfl, ?_⟩
  have hends := server_ends {} 10 [3, 4] _ ⟨[.sys (.master .terminate)], _, rfl⟩ rfl
    [.sys (.master (.epollWait .interrupted)), .kill] _ _ rfl
  exact ⟨hends.1, hends.2.1 rfl⟩

end ForgeServer
