import Mathlib.Logic.Function.Basic
import ForgeServer.Server.Types
import ForgeServer.Systems.Machine

/-!
# The start of the master

`forge_master_run` up to its accept loop, with the processes it forks: one input is one system call
of the master with its answer, the set-up of a worker in `forge_run_worker`, or the end of a worker.
Workers run as soon as they are forked, so their inputs come between those of the master.

`fork` copies the descriptor table, `forge_die` ends the process that calls it and no other, and the
kernel installs descriptors under numbers that are not open. Of a table only what start-up has to do
with is told apart: the ends of the socket pairs and the listening socket.

Two statements are about what the fork loop leaves undone. When a process calls `forge_die`, nothing
is done about the workers forked before (`nothing_left_iff`, by the failing call
`nothing_left_iff_first`). And a worker closes the master's end of its own socket pair, but those of
the workers before it were copied as well (`socket_ends_iff`).
-/

namespace ForgeServer

open Function Machine

/-! ### Processes and descriptors -/

/-- What a descriptor refers to. -/
inductive FdRef
  | listen
  /-- The end of socket pair `i` that is `pipes[i][0]`. -/
  | masterEnd (i : ℕ)
  /-- The end of socket pair `i` that is `pipes[i][1]`. -/
  | workerEnd (i : ℕ)
  | other
deriving DecidableEq

/-- An end of a socket pair. -/
def FdRef.IsEnd : FdRef → Prop
  | .masterEnd _ | .workerEnd _ => True
  | _ => False

/-- A descriptor table. -/
abbrev FdTable := ℤ → Option FdRef

/-- The life of a worker process. -/
inductive Life
  /-- In front of its set-up. -/
  | forked
  /-- In the loop of `forge_run_worker`. -/
  | looping
  | ended
deriving DecidableEq

/-- A worker process: its descriptor table and `control_fd` when it enters `forge_run_worker`. -/
structure Child where
  table : FdTable
  controlFd : ℤ
  life : Life

/-- Where the master is. -/
inductive StartPc
  | calloc
  /-- In front of the `socketpair` of an iteration. -/
  | socketpair (i : ℕ)
  /-- In front of the `fork` of an iteration. -/
  | fork (i : ℕ)
  /-- Behind the fork loop. -/
  | epollCreate
  | epollCtl
  /-- In the accept loop. -/
  | serving
  | died
deriving DecidableEq

/-- A state of the start-up. -/
structure Startup where
  pc : StartPc
  pipes : ℕ → ℤ × ℤ
  table : FdTable
  children : ℕ → Option Child

/-- The system calls of the start-up with their answers. -/
inductive StartInput
  | calloc (ok : Bool)
  | socketpair (r : Option (ℤ × ℤ))
  | fork (ok : Bool)
  | epollCreate (r : Option ℤ)
  | epollCtl (ok : Bool)
  /-- `epoll_create1` and `epoll_ctl` of worker `i`. -/
  | childSetUp (i : ℕ) (ok : Bool)
  /-- Worker `i` leaves its loop or is killed: nothing of the start-up makes it. -/
  | childEnds (i : ℕ)
deriving DecidableEq

/-- The process that calls `forge_die`. -/
inductive Caller
  | master
  | worker (i : ℕ)
deriving DecidableEq

namespace Startup

/-- `main` has opened the listening socket; `fds` are open besides. -/
def start (cfg : ForgeCfg) (fds : List ℤ) : Startup where
  pc := .calloc
  pipes _ := (0, 0)
  table fd := if fd = cfg.listenFd then some .listen else if fd ∈ fds then some .other else none
  children _ := none

/-- At the condition of the fork loop. -/
def loopAt (cfg : ForgeCfg) (i : ℕ) : StartPc :=
  if i < cfg.workers.toNat then .socketpair i else .epollCreate

/-- `forge_die` in the master. -/
def die (s : Startup) : Startup := { s with pc := .died }

/-- `socketpair` has returned the descriptors `a` and `b`. -/
def pair (s : Startup) (i : ℕ) (a b : ℤ) : Startup :=
  { s with
    pc := .fork i
    pipes := update s.pipes i (a, b)
    table := update (update s.table a (some (.masterEnd i))) b (some (.workerEnd i)) }

/-- The process of worker `i`, where it enters `forge_run_worker`. -/
def child (cfg : ForgeCfg) (s : Startup) (i : ℕ) : Child where
  table := update (update s.table (s.pipes i).1 none) cfg.listenFd none
  controlFd := (s.pipes i).2
  life := .forked

/-- `fork` has returned in the master, which closes the worker's end. -/
def forked (cfg : ForgeCfg) (s : Startup) (i : ℕ) : Startup :=
  { s with
    pc := loopAt cfg (i + 1)
    table := update s.table (s.pipes i).2 none
    children := update s.children i (some (child cfg s i)) }

/-- A worker process goes on to another part of its life. -/
def setLife (s : Startup) (i : ℕ) (life : Life) : Startup :=
  { s with children := update s.children i ((s.children i).map fun c ↦ { c with life }) }

/-- One step. The output is the process that has called `forge_die`, if one has. -/
def step (cfg : ForgeCfg) (s : Startup) : StartInput → Option (Option Caller × Startup)
  | .calloc ok =>
    match s.pc with
    | .calloc =>
      if ok then some (none, { s with pc := loopAt cfg 0 }) else some (some .master, s.die)
    | _ => none
  | .socketpair r =>
    match s.pc, r with
    | .socketpair _, none => some (some .master, s.die)
    | .socketpair i, some (a, b) =>
      if s.table a = none ∧ s.table b = none ∧ a ≠ b then some (none, s.pair i a b) else none
    | _, _ => none
  | .fork ok =>
    match s.pc with
    | .fork i => if ok then some (none, forked cfg s i) else some (some .master, s.die)
    | _ => none
  | .epollCreate r =>
    match s.pc, r with
    | .epollCreate, none => some (some .master, s.die)
    | .epollCreate, some ep =>
      if s.table ep = none then
        some (none, { s with pc := .epollCtl, table := update s.table ep (some .other) })
      else none
    | _, _ => none
  | .epollCtl ok =>
    match s.pc with
    | .epollCtl => if ok then some (none, { s with pc := .serving }) else some (some .master, s.die)
    | _ => none
  | .childSetUp i ok =>
    match (s.children i).map Child.life with
    | some .forked =>
      if ok then some (none, s.setLife i .looping) else some (some (.worker i), s.setLife i .ended)
    | _ => none
  | .childEnds i =>
    match (s.children i).map Child.life with
    | some .forked | some .looping => some (none, s.setLife i .ended)
    | _ => none

end Startup

/-- `forge_master_run` in front of its accept loop, with its workers. -/
def startMachine (cfg : ForgeCfg) : Machine Startup StartInput (Option Caller) where
  step := Startup.step cfg

/-! ### The steps -/

variable {cfg : ForgeCfg} {s s' : Startup} {is : List StartInput} {i : StartInput}
  {out : Option Caller}

/-- No worker is forked or ended by the input. -/
def StartInput.Quiet (i : StartInput) : Prop :=
  i ≠ .fork true ∧ ∀ j, i ≠ .childSetUp j false ∧ i ≠ .childEnds j

/-- **The steps of the start-up.** -/
inductive StartStep (cfg : ForgeCfg) (s : Startup) :
    StartInput → Option Caller → Startup → Prop
  | died (i : StartInput) (hi : i.Quiet) : StartStep cfg s i (some .master) s.die
  | allocated (hpc : s.pc = .calloc) :
      StartStep cfg s (.calloc true) none { s with pc := Startup.loopAt cfg 0 }
  | paired (n : ℕ) (hpc : s.pc = .socketpair n) (a b : ℤ) (ha : s.table a = none)
      (hb : s.table b = none) (hab : a ≠ b) :
      StartStep cfg s (.socketpair (some (a, b))) none (s.pair n a b)
  | forked (n : ℕ) (hpc : s.pc = .fork n) :
      StartStep cfg s (.fork true) none (s.forked cfg n)
  | polled (hpc : s.pc = .epollCreate) (ep : ℤ) (hep : s.table ep = none) :
      StartStep cfg s (.epollCreate (some ep)) none
        { s with pc := .epollCtl, table := update s.table ep (some .other) }
  | serving (hpc : s.pc = .epollCtl) :
      StartStep cfg s (.epollCtl true) none { s with pc := .serving }
  | setUp (n : ℕ) (c : Child) (hc : s.children n = some c) (hlife : c.life = .forked) :
      StartStep cfg s (.childSetUp n true) none (s.setLife n .looping)
  | setUpFailed (n : ℕ) (c : Child) (hc : s.children n = some c) (hlife : c.life = .forked) :
      StartStep cfg s (.childSetUp n false) (some (.worker n)) (s.setLife n .ended)
  | ended (n : ℕ) (c : Child) (hc : s.children n = some c) (hlife : c.life ≠ .ended) :
      StartStep cfg s (.childEnds n) none (s.setLife n .ended)

/-- **The inversion of a step.** -/
theorem start_cases (h : (startMachine cfg).step s i = some (out, s')) :
    StartStep cfg s i out s' := by
  cases i with
  | calloc ok =>
    simp only [startMachine, Startup.step] at h
    split at h
    case h_2 => exact absurd h (by simp)
    rename_i hpc
    cases ok <;> obtain ⟨rfl, rfl⟩ := Prod.mk.inj (Option.some.inj h)
    · exact .died _ ⟨by simp, by simp⟩
    · exact .allocated hpc
  | socketpair r =>
    simp only [startMachine, Startup.step] at h
    split at h
    · obtain ⟨rfl, rfl⟩ := Prod.mk.inj (Option.some.inj h)
      exact .died _ ⟨by simp, by simp⟩
    · rename_i n a b hpc
      split at h
      · rename_i hfree
        obtain ⟨rfl, rfl⟩ := Prod.mk.inj (Option.some.inj h)
        exact .paired n hpc a b hfree.1 hfree.2.1 hfree.2.2
      · exact absurd h (by simp)
    · exact absurd h (by simp)
  | fork ok =>
    simp only [startMachine, Startup.step] at h
    split at h
    case h_2 => exact absurd h (by simp)
    rename_i n hpc
    cases ok <;> obtain ⟨rfl, rfl⟩ := Prod.mk.inj (Option.some.inj h)
    · exact .died _ ⟨by simp, by simp⟩
    · exact .forked n hpc
  | epollCreate r =>
    simp only [startMachine, Startup.step] at h
    split at h
    · obtain ⟨rfl, rfl⟩ := Prod.mk.inj (Option.some.inj h)
      exact .died _ ⟨by simp, by simp⟩
    · rename_i ep hpc
      split at h
      · rename_i hep
        obtain ⟨rfl, rfl⟩ := Prod.mk.inj (Option.some.inj h)
        exact .polled hpc ep hep
      · exact absurd h (by simp)
    · exact absurd h (by simp)
  | epollCtl ok =>
    simp only [startMachine, Startup.step] at h
    split at h
    case h_2 => exact absurd h (by simp)
    rename_i hpc
    cases ok <;> obtain ⟨rfl, rfl⟩ := Prod.mk.inj (Option.some.inj h)
    · exact .died _ ⟨by simp, by simp⟩
    · exact .serving hpc
  | childSetUp n ok =>
    simp only [startMachine, Startup.step] at h
    split at h
    case h_2 => exact absurd h (by simp)
    rename_i hlife
    obtain ⟨c, hc, hlife⟩ := Option.map_eq_some_iff.1 hlife
    cases ok <;> obtain ⟨rfl, rfl⟩ := Prod.mk.inj (Option.some.inj h)
    · exact .setUpFailed n c hc hlife
    · exact .setUp n c hc hlife
  | childEnds n =>
    simp only [startMachine, Startup.step] at h
    split at h
    case h_3 => exact absurd h (by simp)
    all_goals
      rename_i hlife
      obtain ⟨c, hc, hlife⟩ := Option.map_eq_some_iff.1 hlife
      obtain ⟨rfl, rfl⟩ := Prod.mk.inj (Option.some.inj h)
      exact .ended n c hc (by rw [hlife]; decide)

/-! ### The ends a table holds -/

/-- The ends of socket pairs in a table: the master's ends of the first `n` pairs, and the worker's
end `own`. -/
structure HoldsEnds (t : FdTable) (pipes : ℕ → ℤ × ℤ) (n : ℕ) (own : Option ℕ) : Prop where
  masterEnd : ∀ fd j, t fd = some (.masterEnd j) ↔ j < n ∧ fd = (pipes j).1
  workerEnd : ∀ fd j, t fd = some (.workerEnd j) ↔ own = some j ∧ fd = (pipes j).2

namespace HoldsEnds

variable {t : FdTable} {pipes : ℕ → ℤ × ℤ} {n : ℕ} {own : Option ℕ}

/-- A descriptor that is closed or was none of the ends can be given away. -/
theorem update_other (h : HoldsEnds t pipes n own) {fd : ℤ} (hfd : ∀ j, t fd ≠ some (.masterEnd j) ∧
    t fd ≠ some (.workerEnd j)) {r : Option FdRef}
    (hr : ∀ j, r ≠ some (.masterEnd j) ∧ r ≠ some (.workerEnd j)) :
    HoldsEnds (update t fd r) pipes n own where
  masterEnd fd' j := by
    rw [← h.masterEnd, update_apply]
    split
    · rename_i heq
      exact iff_of_false (hr j).1 (heq ▸ (hfd j).1)
    · exact Iff.rfl
  workerEnd fd' j := by
    rw [← h.workerEnd, update_apply]
    split
    · rename_i heq
      exact iff_of_false (hr j).2 (heq ▸ (hfd j).2)
    · exact Iff.rfl

/-- What is left of a pair when the master's end is closed. -/
theorem close_master (h : HoldsEnds t pipes (n + 1) own) :
    HoldsEnds (update t (pipes n).1 none) pipes n own where
  masterEnd fd j := by
    have hn := (h.masterEnd (pipes n).1 n).2 ⟨Nat.lt_succ_self n, rfl⟩
    rw [update_apply]
    split
    · -- two ends under one descriptor are of one pair
      rename_i heq
      refine iff_of_false (by simp) fun ⟨hj, hfd⟩ ↦ ?_
      have hj' := (h.masterEnd fd j).2 ⟨Nat.lt_succ_of_lt hj, hfd⟩
      rw [heq, hn] at hj'
      have hnj : n = j := FdRef.masterEnd.inj (Option.some.inj hj')
      omega
    · rename_i hne
      rw [h.masterEnd]
      refine and_congr_left fun hfd ↦ ⟨fun hj ↦ ?_, Nat.lt_succ_of_lt⟩
      exact lt_of_le_of_ne (Nat.le_of_lt_succ hj) fun heq ↦ hne (heq ▸ hfd)
  workerEnd fd j := by
    have hn := (h.masterEnd (pipes n).1 n).2 ⟨Nat.lt_succ_self n, rfl⟩
    rw [← h.workerEnd, update_apply]
    split
    · rename_i heq
      rw [heq, hn]
      simp
    · exact Iff.rfl

/-- What is left of a pair when the worker's end is closed. -/
theorem close_worker (h : HoldsEnds t pipes n (some j)) :
    HoldsEnds (update t (pipes j).2 none) pipes n none where
  masterEnd fd k := by
    have hj := (h.workerEnd (pipes j).2 j).2 ⟨rfl, rfl⟩
    rw [← h.masterEnd, update_apply]
    split
    · rename_i heq
      rw [heq, hj]
      simp
    · exact Iff.rfl
  workerEnd fd k := by
    rw [update_apply]
    split
    · simp
    · rename_i hne
      refine iff_of_false (fun hk ↦ ?_) (by simp)
      obtain ⟨hjk, hfd⟩ := (h.workerEnd fd k).1 hk
      exact hne (Option.some.inj hjk ▸ hfd)

/-- A pair is opened. -/
theorem pair (h : HoldsEnds t pipes n none) {a b : ℤ} (ha : t a = none) (hb : t b = none)
    (hab : a ≠ b) :
    HoldsEnds (update (update t a (some (.masterEnd n))) b (some (.workerEnd n)))
      (update pipes n (a, b)) (n + 1) (some n) where
  masterEnd fd j := by
    have hold := h.masterEnd fd j
    have hlt : j < n + 1 ↔ j < n ∨ j = n := Nat.lt_succ_iff_lt_or_eq
    simp only [update_apply, hlt]
    grind
  workerEnd fd j := by
    have hold := h.workerEnd fd j
    simp only [update_apply]
    grind

/-- Only the pairs that have been opened matter. -/
theorem congr (h : HoldsEnds t pipes n own) {pipes' : ℕ → ℤ × ℤ}
    (hpipes : ∀ j, j < n ∨ own = some j → pipes' j = pipes j) : HoldsEnds t pipes' n own where
  masterEnd fd j := by
    rw [h.masterEnd]
    exact and_congr_right fun hj ↦ by rw [hpipes j (.inl hj)]
  workerEnd fd j := by
    rw [h.workerEnd]
    exact and_congr_right fun hj ↦ by rw [hpipes j (.inr hj)]

end HoldsEnds

/-! ### The invariant -/

/-- The number of workers forked. -/
def forks (is : List StartInput) : ℕ := is.count (.fork true)

/-- Worker `n` has ended: its own set-up has failed, or it was left or killed. -/
def EndedIn (is : List StartInput) (n : ℕ) : Prop :=
  .childSetUp n false ∈ is ∨ .childEnds n ∈ is

/-- The master is behind the fork loop. -/
def StartPc.LoopEnded (pc : StartPc) : Prop := pc = .epollCreate ∨ pc = .epollCtl ∨ pc = .serving

/-- The place of the master, after `n` forks of `w`, and the ends of socket pairs it holds. -/
inductive AtPc (w n : ℕ) (t : FdTable) (pipes : ℕ → ℤ × ℤ) : StartPc → Prop
  | calloc (hn : n = 0) (h : HoldsEnds t pipes n none) : AtPc w n t pipes .calloc
  | socketpair (hn : n < w) (h : HoldsEnds t pipes n none) : AtPc w n t pipes (.socketpair n)
  | fork (hn : n < w) (h : HoldsEnds t pipes (n + 1) (some n)) : AtPc w n t pipes (.fork n)
  | behind (pc : StartPc) (hpc : pc.LoopEnded) (hn : n = w) (h : HoldsEnds t pipes n none) :
      AtPc w n t pipes pc
  | died : AtPc w n t pipes .died

/-- What holds of a state after the inputs `is`. -/
structure Startup.Inv (cfg : ForgeCfg) (is : List StartInput) (s : Startup) : Prop where
  pc : AtPc cfg.workers.toNat (forks is) s.table s.pipes s.pc
  listen : s.table cfg.listenFd = some .listen
  forked : ∀ n, s.children n ≠ none ↔ n < forks is
  holds : ∀ n c, s.children n = some c →
    HoldsEnds c.table s.pipes n (some n) ∧ c.controlFd = (s.pipes n).2
  life : ∀ n c, s.children n = some c → (c.life = .ended ↔ EndedIn is n)
  ended : ∀ n, EndedIn is n → n < forks is

theorem AtPc.loopAt {n : ℕ} {t : FdTable} {pipes : ℕ → ℤ × ℤ} (hn : n ≤ cfg.workers.toNat)
    (h : HoldsEnds t pipes n none) :
    AtPc cfg.workers.toNat n t pipes (Startup.loopAt cfg n) := by
  unfold Startup.loopAt
  split
  · rename_i hlt
    exact .socketpair hlt h
  · exact .behind _ (.inl rfl) (by omega) h

theorem Startup.Inv.start (cfg : ForgeCfg) (fds : List ℤ) : (Startup.start cfg fds).Inv cfg [] where
  pc := .calloc rfl
    { masterEnd := fun fd j ↦ iff_of_false
        (by simp only [Startup.start]; split_ifs <;> simp) (by simp [forks])
      workerEnd := fun fd j ↦ iff_of_false
        (by simp only [Startup.start]; split_ifs <;> simp) (by simp) }
  listen := if_pos rfl
  forked n := by simp [Startup.start, forks]
  holds n c h := absurd h (by simp [Startup.start])
  life n c h := absurd h (by simp [Startup.start])
  ended n h := by simp [EndedIn] at h

theorem forks_append (is : List StartInput) (i : StartInput) :
    forks (is ++ [i]) = forks is + if i = .fork true then 1 else 0 := by
  rw [forks, List.count_append, List.count_singleton]
  simp [forks]

theorem endedIn_append (is : List StartInput) (i : StartInput) (n : ℕ) :
    EndedIn (is ++ [i]) n ↔ EndedIn is n ∨ i = .childSetUp n false ∨ i = .childEnds n := by
  simp only [EndedIn, List.mem_append, List.mem_singleton]
  grind

/-- What an input that neither forks nor ends a worker keeps. -/
theorem Startup.Inv.quiet (hs : s.Inv cfg is) (hi : i.Quiet) {pc : StartPc} {t : FdTable}
    {pipes : ℕ → ℤ × ℤ} (hpc : AtPc cfg.workers.toNat (forks is) t pipes pc)
    (hlisten : t cfg.listenFd = some .listen) (hpipes : ∀ n < forks is, pipes n = s.pipes n) :
    Startup.Inv cfg (is ++ [i]) ⟨pc, pipes, t, s.children⟩ := by
  have hforks : forks (is ++ [i]) = forks is := by rw [forks_append, if_neg hi.1, Nat.add_zero]
  have hended : ∀ n, EndedIn (is ++ [i]) n ↔ EndedIn is n := fun n ↦ by
    rw [endedIn_append]
    exact or_iff_left (not_or.2 (hi.2 n))
  refine ⟨hforks ▸ hpc, hlisten, hforks ▸ hs.forked, fun n c hc ↦ ?_, fun n c hc ↦ ?_,
    fun n h ↦ ?_⟩
  · obtain ⟨hholds, hcontrol⟩ := hs.holds n c hc
    have hn : n < forks is := (hs.forked n).1 (by rw [hc]; simp)
    refine ⟨hholds.congr fun j hj ↦ hpipes j ?_, by rw [hcontrol, ← hpipes n hn]⟩
    rcases hj with hj | hj
    · omega
    · exact Option.some.inj hj ▸ hn
  · rw [hended]
    exact hs.life n c hc
  · rw [hforks]
    exact hs.ended n ((hended n).1 h)

/-- What an input to a living worker keeps. -/
theorem Startup.Inv.setLife (hs : s.Inv cfg is) {n : ℕ} {c : Child} (hc : s.children n = some c)
    (hlife : c.life ≠ .ended) (hi : i ≠ .fork true)
    (hother : ∀ m, m ≠ n → i ≠ .childSetUp m false ∧ i ≠ .childEnds m) {life : Life}
    (hend : life = .ended ↔ i = .childSetUp n false ∨ i = .childEnds n) :
    (s.setLife n life).Inv cfg (is ++ [i]) := by
  have hforks : forks (is ++ [i]) = forks is := by rw [forks_append, if_neg hi, Nat.add_zero]
  have hn : n < forks is := (hs.forked n).1 (by rw [hc]; simp)
  have hchild : ∀ m, (s.setLife n life).children m =
      if m = n then some { c with life } else s.children m := fun m ↦ by
    rw [Startup.setLife, hc]
    exact update_apply ..
  refine ⟨hforks ▸ hs.pc, hs.listen, fun m ↦ ?_, fun m d hd ↦ ?_, fun m d hd ↦ ?_, fun m h ↦ ?_⟩
  · rw [hforks, hchild]
    split
    · rename_i heq
      exact iff_of_true (by simp) (heq ▸ hn)
    · exact hs.forked m
  · rw [hchild] at hd
    split at hd
    · rename_i heq
      obtain rfl := Option.some.inj hd
      exact heq ▸ hs.holds n c hc
    · exact hs.holds m d hd
  · rw [hchild] at hd
    rw [endedIn_append]
    split at hd
    · -- the worker itself: it had not ended before
      rename_i heq
      obtain rfl := Option.some.inj hd
      have hnot : ¬ EndedIn is n := fun h ↦ hlife ((hs.life n c hc).2 h)
      rw [heq]
      exact hend.trans (or_iff_right hnot).symm
    · rename_i hne
      exact (hs.life m d hd).trans (or_iff_left (not_or.2 (hother m hne))).symm
  · rw [hforks]
    rcases (endedIn_append is i m).1 h with h | h
    · exact hs.ended m h
    · by_cases hmn : m = n
      · exact hmn ▸ hn
      · exact absurd h (not_or.2 (hother m hmn))

theorem AtPc.of_fork {w n m : ℕ} {t : FdTable} {pipes : ℕ → ℤ × ℤ}
    (h : AtPc w n t pipes (.fork m)) : m = n ∧ n < w ∧ HoldsEnds t pipes (n + 1) (some n) := by
  cases h with
  | fork hn h => exact ⟨rfl, hn, h⟩
  | behind _ hbehind => exact absurd hbehind (by simp [StartPc.LoopEnded])

/-- What is left to a worker of the table that `fork` has copied: it closes the master's end of its
own pair, and the listening socket, which is no end. -/
theorem holdsEnds_child (hlisten : s.table cfg.listenFd = some .listen) {n : ℕ}
    (h : HoldsEnds s.table s.pipes (n + 1) (some n)) :
    HoldsEnds (s.child cfg n).table s.pipes n (some n) := by
  have hmaster : s.table (s.pipes n).1 = some (.masterEnd n) :=
    (h.masterEnd _ _).2 ⟨Nat.lt_succ_self _, rfl⟩
  have hne : cfg.listenFd ≠ (s.pipes n).1 := ne_of_apply_ne s.table (by rw [hlisten, hmaster]; simp)
  refine h.close_master.update_other (fun j ↦ ?_) fun j ↦ by simp
  rw [update_of_ne hne, hlisten]
  simp

/-- What `fork` does, in both processes. -/
theorem Startup.Inv.fork (hs : s.Inv cfg is) {n : ℕ} (hpc : s.pc = .fork n) :
    (s.forked cfg n).Inv cfg (is ++ [.fork true]) := by
  obtain ⟨rfl, hlt, hholds⟩ := (hpc ▸ hs.pc).of_fork
  have hforks : forks (is ++ [.fork true]) = forks is + 1 := by rw [forks_append, if_pos rfl]
  have hended : ∀ n, EndedIn (is ++ [.fork true]) n ↔ EndedIn is n := fun n ↦ by
    rw [endedIn_append]
    exact or_iff_left (by simp)
  have hworker : s.table (s.pipes (forks is)).2 = some (.workerEnd (forks is)) :=
    (hholds.workerEnd _ _).2 ⟨rfl, rfl⟩
  refine ⟨?_, ?_, fun n ↦ ?_, fun n c hc ↦ ?_, fun n c hc ↦ ?_, fun n h ↦ ?_⟩
  · -- the master closes the worker's end and goes on with the loop
    rw [hforks]
    exact .loopAt hlt hholds.close_worker
  · -- that end is not the listening socket
    show update s.table _ none cfg.listenFd = _
    rw [update_of_ne (ne_of_apply_ne s.table (by rw [hs.listen, hworker]; simp)), hs.listen]
  · show update s.children (forks is) _ n ≠ none ↔ _
    rw [hforks, update_apply]
    split
    · exact iff_of_true (by simp) (by omega)
    · rw [hs.forked]
      omega
  · change update s.children (forks is) _ n = some c at hc
    rw [update_apply] at hc
    split at hc
    · rename_i heq
      obtain rfl := Option.some.inj hc
      refine ⟨?_, heq ▸ rfl⟩
      rw [heq]
      exact holdsEnds_child hs.listen hholds
    · exact hs.holds n c hc
  · change update s.children (forks is) _ n = some c at hc
    rw [hended]
    rw [update_apply] at hc
    split at hc
    · rename_i heq
      obtain rfl := Option.some.inj hc
      -- a worker not yet forked cannot have ended
      refine iff_of_false (by simp [Startup.child]) fun h ↦ ?_
      have := hs.ended n h
      omega
    · exact hs.life n c hc
  · rw [hforks]
    exact Nat.lt_succ_of_lt (hs.ended n ((hended n).1 h))

/-- **Every step keeps the invariant.** -/
theorem inv_start_step (hs : s.Inv cfg is) (h : (startMachine cfg).step s i = some (out, s')) :
    s'.Inv cfg (is ++ [i]) := by
  have hpcs := hs.pc
  cases start_cases h with
  | died i hi => exact hs.quiet hi .died hs.listen fun _ _ ↦ rfl
  | allocated hpc =>
    rw [hpc] at hpcs
    cases hpcs with
    | calloc hn hholds =>
      have hat : AtPc cfg.workers.toNat (forks is) s.table s.pipes (Startup.loopAt cfg 0) := by
        rw [hn] at hholds ⊢
        exact .loopAt (Nat.zero_le _) hholds
      exact hs.quiet ⟨by simp, by simp⟩ hat hs.listen fun _ _ ↦ rfl
    | behind _ hbehind => exact absurd hbehind (by simp [StartPc.LoopEnded])
  | paired n hpc a b ha hb hab =>
    rw [hpc] at hpcs
    cases hpcs with
    | socketpair hn hholds =>
      have hlisten : ∀ fd, s.table fd = none → cfg.listenFd ≠ fd := fun fd hfd ↦
        ne_of_apply_ne s.table (by rw [hs.listen, hfd]; simp)
      -- both descriptors are new, so the listening socket stays
      refine hs.quiet ⟨by simp, by simp⟩ (.fork hn (hholds.pair ha hb hab)) ?_ fun m hm ↦ ?_
      · rw [update_of_ne (hlisten b hb), update_of_ne (hlisten a ha), hs.listen]
      · exact update_of_ne (by omega) _ _
    | behind _ hbehind => exact absurd hbehind (by simp [StartPc.LoopEnded])
  | forked n hpc => exact hs.fork hpc
  | polled hpc ep hep =>
    rw [hpc] at hpcs
    cases hpcs with
    | behind _ _ hn hholds =>
      refine hs.quiet ⟨by simp, by simp⟩ (.behind _ (.inr (.inl rfl)) hn
        (hholds.update_other (fun j ↦ by simp [hep]) fun j ↦ by simp)) ?_ fun _ _ ↦ rfl
      rw [update_of_ne (ne_of_apply_ne s.table (by rw [hs.listen, hep]; simp)), hs.listen]
  | serving hpc =>
    rw [hpc] at hpcs
    cases hpcs with
    | behind _ _ hn hholds =>
      exact hs.quiet ⟨by simp, by simp⟩ (.behind _ (.inr (.inr rfl)) hn hholds) hs.listen
        fun _ _ ↦ rfl
  | setUp n c hc hlife =>
    exact hs.setLife hc (by simp [hlife]) (by simp) (fun m _ ↦ by simp) (by simp)
  | setUpFailed n c hc hlife =>
    exact hs.setLife hc (by simp [hlife]) (by simp) (fun m hm ↦ by simp [hm.symm]) (by simp)
  | ended n c hc hlife =>
    exact hs.setLife hc hlife (by simp) (fun m hm ↦ by simp [hm.symm]) (by simp)

/-- **The invariant after every run.** -/
theorem inv_start_run {fds : List ℤ} {outs : List (Option Caller)}
    (hrun : (startMachine cfg).run (.start cfg fds) is = some (outs, s)) : s.Inv cfg is :=
  run_history (P := fun is _ s ↦ Startup.Inv cfg is s) (.start cfg fds)
    (fun _ _ _ _ _ _ ↦ inv_start_step) hrun

/-! ### When a process dies -/

/-- The workers that were forked before the process that calls `forge_die`. -/
def Caller.After : Caller → ℕ → Prop
  | .master, _ => True
  | .worker n, m => m < n

/-- **Nothing is left behind** by the process that calls `forge_die`: every worker forked before it
has ended. -/
def NothingLeft (caller : Caller) (s : Startup) : Prop :=
  ∀ n c, caller.After n → s.children n = some c → c.life = .ended

/-- The process that calls `forge_die` does nothing about the others. -/
theorem children_of_died {caller : Caller} (h : StartStep cfg s i (some caller) s') {n : ℕ}
    (hn : caller.After n) : s'.children n = s.children n := by
  cases h with
  | died => rfl
  | setUpFailed m => exact update_of_ne (Nat.ne_of_lt hn) _ _

theorem nothingLeft_iff_endedIn {caller : Caller} (hs : s.Inv cfg is)
    (hdie : (startMachine cfg).step s i = some (some caller, s')) :
    NothingLeft caller s' ↔ ∀ n < forks is, caller.After n → EndedIn is n := by
  have hkeep := fun {n} ↦ children_of_died (start_cases hdie) (n := n)
  constructor
  · intro hnone n hn hafter
    obtain ⟨c, hc⟩ := Option.ne_none_iff_exists'.1 ((hs.forked n).2 hn)
    exact (hs.life n c hc).1 (hnone n c hafter (by rw [hkeep hafter, hc]))
  · intro hended n c hafter hc
    rw [hkeep hafter] at hc
    exact (hs.life n c hc).2 (hended n ((hs.forked n).1 (by rw [hc]; simp)) hafter)

/-- **Exactly when start-up is all or nothing**: when a process calls `forge_die`, every worker
forked before it has already ended by itself. -/
theorem nothing_left_iff (cfg : ForgeCfg) (fds : List ℤ) (is : List StartInput)
    (outs : List (Option Caller)) (s s' : Startup) (i : StartInput) (caller : Caller)
    (hrun : (startMachine cfg).run (.start cfg fds) is = some (outs, s))
    (hdie : (startMachine cfg).step s i = some (some caller, s')) :
    NothingLeft caller s' ↔
      ∀ n < is.count (.fork true), caller.After n →
        .childSetUp n false ∈ is ∨ .childEnds n ∈ is :=
  nothingLeft_iff_endedIn (inv_start_run hrun) hdie

/-- A configuration of the runs below. -/
def forgeCfg (n : ℤ) : ForgeCfg := { workers := n, listenFd := 3 }

/-- Two workers are to be started, and the second `fork` fails: the first worker is in its loop. -/
theorem worker_left_looping :
    ∃ outs s s', (startMachine (forgeCfg 2)).run (.start (forgeCfg 2) [0, 1, 2])
        [.calloc true, .socketpair (some (4, 5)), .fork true, .childSetUp 0 true,
          .socketpair (some (5, 6))] = some (outs, s) ∧
      (startMachine (forgeCfg 2)).step s (.fork false) = some (some .master, s') ∧
      ¬ NothingLeft .master s' := by
  refine ⟨_, _, _, rfl, rfl, fun h ↦ ?_⟩
  have hended := h 0 _ trivial rfl
  exact absurd hended (by decide)

/-- The first worker could not set itself up, and the second `socketpair` fails. -/
theorem nothing_left_iff_two :
    ∃ outs s s', (startMachine (forgeCfg 2)).run (.start (forgeCfg 2) [0, 1, 2])
        [.calloc true, .socketpair (some (4, 5)), .fork true, .childSetUp 0 false] =
          some (outs, s) ∧
      (startMachine (forgeCfg 2)).step s (.socketpair none) = some (some .master, s') ∧
      NothingLeft .master s' := by
  refine ⟨_, _, _, rfl, rfl, ?_⟩
  refine (nothing_left_iff (forgeCfg 2) [0, 1, 2]
    [.calloc true, .socketpair (some (4, 5)), .fork true, .childSetUp 0 false] _ _ _
    (.socketpair none) .master rfl rfl).2 fun n hn _ ↦ ?_
  obtain rfl : n = 0 := Nat.lt_one_iff.1 hn
  exact .inl (by decide)

/-- The process that calls `forge_die` is there. -/
theorem caller_of_died {caller : Caller}
    (hdie : (startMachine cfg).step s i = some (some caller, s')) :
    match caller with
    | .master => s.pc ≠ .died
    | .worker n => s.children n ≠ none := by
  rcases caller with - | n
  · intro hpc
    cases i with
    | calloc | socketpair | fork | epollCreate | epollCtl =>
      simp [startMachine, Startup.step, hpc] at hdie
    | childSetUp n ok =>
      simp only [startMachine, Startup.step] at hdie
      split at hdie
      · cases ok <;> simp at hdie
      · simp at hdie
    | childEnds n =>
      simp only [startMachine, Startup.step] at hdie
      split at hdie <;> simp at hdie
  · cases start_cases hdie with
    | setUpFailed _ c hc => simp [hc]

/-- Where the master is before it has forked. -/
theorem AtPc.forks_eq_zero_iff {w n : ℕ} {t : FdTable} {pipes : ℕ → ℤ × ℤ} {pc : StartPc}
    (h : AtPc w n t pipes pc) (hpc : pc ≠ .died) :
    n = 0 ↔ pc ∈ [.calloc, .socketpair 0, .fork 0] ∨ w = 0 := by
  cases h with
  | calloc hn => simp [hn]
  | socketpair hn => simp; omega
  | fork hn => simp; omega
  | behind _ hbehind hn =>
    rcases hbehind with rfl | rfl | rfl <;> simp [hn]
  | died => exact absurd rfl hpc

/-- **By the failing call**, if no worker has ended by itself: nothing is left exactly when no
worker was forked before. The master then fails in `calloc` or in the first `socketpair` or `fork`,
or has no worker to fork; a worker is the first one. -/
theorem nothing_left_iff_first (fds : List ℤ) (outs : List (Option Caller)) (caller : Caller)
    (hrun : (startMachine cfg).run (.start cfg fds) is = some (outs, s))
    (hdie : (startMachine cfg).step s i = some (some caller, s'))
    (hself : ∀ n, caller.After n → .childSetUp n false ∉ is ∧ .childEnds n ∉ is) :
    NothingLeft caller s' ↔
      match caller with
      | .master => s.pc ∈ [.calloc, .socketpair 0, .fork 0] ∨ cfg.workers.toNat = 0
      | .worker n => n = 0 := by
  have hs := inv_start_run hrun
  have hcaller := caller_of_died hdie
  have hleft : NothingLeft caller s' ↔ ∀ n < forks is, ¬ caller.After n := by
    rw [nothingLeft_iff_endedIn hs hdie]
    refine forall₂_congr fun n _ ↦ ⟨fun h hafter ↦ ?_, fun h hafter ↦ absurd hafter h⟩
    exact (h hafter).elim (hself n hafter).1 (hself n hafter).2
  rw [hleft]
  rcases caller with - | n
  · rw [← hs.pc.forks_eq_zero_iff hcaller]
    exact ⟨fun h ↦ Nat.eq_zero_of_not_pos fun hpos ↦ h 0 hpos trivial, fun h n hn ↦ by omega⟩
  · have hn := (hs.forked n).1 hcaller
    exact ⟨fun h ↦ Nat.eq_zero_of_not_pos fun hpos ↦ h 0 (by omega) hpos,
      fun h m _ hm ↦ Nat.not_lt_zero m (h ▸ hm)⟩
/-! ### Whose ends a process holds -/

/-- The ends of socket pairs that are open in a table are those that satisfy `P`. -/
def HoldsExactly (t : FdTable) (P : FdRef → Prop) : Prop :=
  ∀ r : FdRef, r.IsEnd → ((∃ fd, t fd = some r) ↔ P r)

theorem AtPc.of_loopEnded {w n : ℕ} {t : FdTable} {pipes : ℕ → ℤ × ℤ} {pc : StartPc}
    (h : AtPc w n t pipes pc) (hpc : pc.LoopEnded) : n = w ∧ HoldsEnds t pipes n none := by
  cases h with
  | behind _ _ hn h => exact ⟨hn, h⟩
  | calloc | socketpair | fork | died => exact absurd hpc (by simp [StartPc.LoopEnded])

/-- **Each process has its own ends only**: a worker, where it enters `forge_run_worker`, the end
`pipes[n][1]` that is its control socket; the master behind the loop, the ends `pipes[n][0]`. -/
def OwnEnds (w : ℕ) (s : Startup) : Prop :=
  (∀ n c, s.children n = some c → HoldsExactly c.table (· = .workerEnd n)) ∧
    (s.pc.LoopEnded → HoldsExactly s.table fun r ↦ ∃ n < w, r = .masterEnd n)

theorem HoldsEnds.exactly {t : FdTable} {pipes : ℕ → ℤ × ℤ} {n : ℕ} {own : Option ℕ}
    (h : HoldsEnds t pipes n own) :
    HoldsExactly t fun r ↦ (∃ j < n, r = .masterEnd j) ∨ ∃ j, own = some j ∧ r = .workerEnd j := by
  rintro (- | j | j | -) hr
  · exact absurd hr id
  · simp [h.masterEnd]
  · simp [h.workerEnd]
  · exact absurd hr id

/-- **A worker holds the master's ends of all pairs before its own.** -/
theorem child_ends (hs : s.Inv cfg is) {n : ℕ} {c : Child} (hc : s.children n = some c) :
    HoldsExactly c.table fun r ↦ (∃ j < n, r = .masterEnd j) ∨ r = .workerEnd n := by
  have h := (hs.holds n c hc).1.exactly
  simpa using h

/-- **Exactly when each process has its own ends only**: when there is no second worker. Behind the
fork loop there are as many workers as were asked for. -/
theorem socket_ends_iff (cfg : ForgeCfg) (fds : List ℤ) (is : List StartInput)
    (outs : List (Option Caller)) (s : Startup)
    (hrun : (startMachine cfg).run (.start cfg fds) is = some (outs, s)) :
    (OwnEnds cfg.workers.toNat s ↔ is.count (.fork true) ≤ 1) ∧
      (s.pc.LoopEnded → is.count (.fork true) = cfg.workers.toNat) := by
  have hs := inv_start_run hrun
  refine ⟨⟨fun ⟨hown, _⟩ ↦ ?_, fun hle ↦ ⟨fun n c hc ↦ ?_, fun hpc ↦ ?_⟩⟩,
    fun hpc ↦ (hs.pc.of_loopEnded hpc).1⟩
  · -- the second worker holds the master's end of the first pair
    by_contra hgt
    obtain ⟨c, hc⟩ := Option.ne_none_iff_exists'.1 ((hs.forked 1).2 (not_le.1 hgt))
    have hfirst := (child_ends hs hc (.masterEnd 0) trivial).2 (.inl ⟨0, Nat.one_pos, rfl⟩)
    exact absurd ((hown 1 c hc (.masterEnd 0) trivial).1 hfirst) (by simp)
  · -- the only worker is the first, and there is no pair before its own
    have hn : n < forks is := (hs.forked n).1 (by rw [hc]; simp)
    obtain rfl : n = 0 := by
      have : forks is ≤ 1 := hle
      omega
    simpa using child_ends hs hc
  · obtain ⟨hn, hholds⟩ := hs.pc.of_loopEnded hpc
    simpa [hn] using hholds.exactly

/-- Two workers: the second one holds the master's end of the first one's control socket. -/
theorem second_worker_holds_first_end :
    ∃ outs s, (startMachine (forgeCfg 2)).run (.start (forgeCfg 2) [0, 1, 2])
        [.calloc true, .socketpair (some (4, 5)), .fork true, .socketpair (some (5, 6)),
          .fork true, .epollCreate (some 6), .epollCtl true] = some (outs, s) ∧
      s.pc = .serving ∧ ¬ OwnEnds 2 s := by
  refine ⟨_, _, rfl, rfl, fun h ↦ ?_⟩
  have hfirst := (h.1 1 _ rfl (.masterEnd 0) trivial).1 ⟨4, rfl⟩
  exact absurd hfirst (by decide)

/-- One worker. -/
theorem socket_ends_iff_one :
    ∃ outs s, (startMachine (forgeCfg 1)).run (.start (forgeCfg 1) [0, 1, 2])
        [.calloc true, .socketpair (some (4, 5)), .fork true, .epollCreate (some 5),
          .epollCtl true] = some (outs, s) ∧ s.pc = .serving ∧ OwnEnds 1 s := by
  refine ⟨_, _, rfl, rfl, ?_⟩
  exact (socket_ends_iff (forgeCfg 1) [0, 1, 2]
    [.calloc true, .socketpair (some (4, 5)), .fork true, .epollCreate (some 5), .epollCtl true]
    _ _ rfl).1.2 (by decide)

end ForgeServer
