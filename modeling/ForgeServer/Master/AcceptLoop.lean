import Mathlib.Data.Fintype.EquivFin
import ForgeServer.Master.Options
import ForgeServer.Master.RoundRobin
import ForgeServer.Master.Startup

/-!
# The arithmetic of the dispatch

`forge_master_run` from its first line on, with `workers`, `next` and `target` as the `int`s they
are: `calloc` is asked for `(size_t)workers` elements, `(next + 1) % workers` may be undefined, and
`pipes[target]` may be outside the array. Where the language gives a step no meaning the master is
in the state `fault`, so that nothing goes wrong is the theorem that this state is not reached.

The number of workers is never checked. A negative one becomes a huge `size_t`, which `calloc`
cannot serve: start-up ends (`negative_never_serves`). From 1 on the cursor stays inside the array
(`serving_step`). With 0 start-up succeeds without a worker, and the first connection leads to a
division by 0 (`dispatch_safe_iff`, `zero_workers_fault`). For the numbers from 1 on the loop of
`System` is this one, step by step (`masterStep_refines`) and in every run (`system_refines`).
-/

namespace ForgeServer

open CStr CInt Machine

/-- Where the master is in its loop. -/
inductive AcceptPc
  | wait
  | accepting (rest : ℕ)
  | dispatching (rest : ℕ) (cfd target : ℤ)
  | closing (rest : ℕ) (cfd : ℤ)
  | stopped

/-- The variables of the loop. -/
structure AcceptLoop where
  pc : AcceptPc
  next : ℤ
  terminate : Bool

/-- The number of elements of `pipes`. -/
def slots (cfg : ForgeCfg) : ℕ := toSizeT cfg.workers

/-- `pipes[target]` is inside the array. -/
def InSlots (cfg : ForgeCfg) (target : ℤ) : Prop := 0 ≤ target ∧ target < slots cfg

instance (cfg : ForgeCfg) (target : ℤ) : Decidable (InSlots cfg target) :=
  inferInstanceAs (Decidable (_ ∧ _))

/-- `(next + 1) % workers`. -/
def nextOf (cfg : ForgeCfg) (next : ℤ) : Option ℤ := (add next 1).bind (rem · cfg.workers)

namespace AcceptLoop

/-- The loop is entered. -/
def start : AcceptLoop := ⟨.wait, 0, false⟩

/-- The next event of the batch. -/
def nextEvent (l : AcceptLoop) : ℕ → AcceptLoop
  | 0 => { l with pc := .wait }
  | rest + 1 => { l with pc := .accepting rest }

/-- One step: `none` when the loop does not admit the input, `some none` when the step has no
meaning. -/
def step (cfg : ForgeCfg) (l : AcceptLoop) : MasterInput → Option (Option AcceptLoop)
  | .terminate => some (some { l with terminate := true })
  | .epollWait r =>
    match l.pc with
    | .wait =>
      if l.terminate then some (some { l with pc := .stopped })
      else
        match r with
        | .interrupted => some (some l)
        | .failed => some (some { l with pc := .stopped })
        | .events n => some (some (l.nextEvent n))
    | _ => none
  | .accept4 r =>
    match l.pc with
    | .accepting rest =>
      match r with
      | .again => some (some (l.nextEvent rest))
      | .interrupted => some (some l)
      | .failed => some (some (l.nextEvent rest))
      | .client cfd =>
        if 0 ≤ cfd then
          some ((nextOf cfg l.next).map fun next ↦
            { l with pc := .dispatching rest cfd l.next, next })
        else none
    | _ => none
  | .sendFd _ =>
    match l.pc with
    | .dispatching rest cfd target =>
      if InSlots cfg target then some (some { l with pc := .closing rest cfd }) else some none
    | _ => none
  | .close =>
    match l.pc with
    | .closing rest _ => some (some { l with pc := .accepting rest })
    | _ => none

end AcceptLoop

/-- The states of the master. -/
inductive MasterState
  | starting (s : Startup)
  | serving (s : Startup) (l : AcceptLoop)
  /-- After a step without a meaning. -/
  | fault

/-- What happens to the master. A signal that comes before the loop is entered is not looked at
before, and is the first input of the loop here. -/
inductive MasterMove
  | start (i : StartInput)
  | loop (i : MasterInput)

/-- `calloc` fails when the size of the array, with elements of 8 bytes, is no `size_t`. The size 0
is no failure. -/
def callocAllows (cfg : ForgeCfg) (i : StartInput) : Prop :=
  i = .calloc true → slots cfg * 8 < 2 ^ 64

instance (cfg : ForgeCfg) (i : StartInput) : Decidable (callocAllows cfg i) :=
  inferInstanceAs (Decidable (_ → _))

/-- Where the master goes on after a step of start-up. -/
def MasterState.afterStart (s : Startup) : MasterState :=
  if s.pc = .serving then .serving s .start else .starting s

/-- One step of the master. The output is the process that has called `forge_die`, if one has. -/
def MasterState.step (cfg : ForgeCfg) :
    MasterState → MasterMove → Option (Option Caller × MasterState)
  | .starting s, .start i =>
    if callocAllows cfg i then
      (Startup.step cfg s i).map fun r ↦ (r.1, .afterStart r.2)
    else none
  -- the workers go on while the master is in its loop
  | .serving s l, .start i => (Startup.step cfg s i).map fun r ↦ (r.1, .serving r.2 l)
  | .serving s l, .loop i =>
    (l.step cfg i).map fun r ↦ (none, r.elim .fault (.serving s))
  | _, _ => none

/-- `forge_master_run`. -/
def masterMachine (cfg : ForgeCfg) : Machine MasterState MasterMove (Option Caller) where
  step := MasterState.step cfg

/-! ### The loop -/

/-- **The arithmetic of the loop is safe**: the cursor is the number of a worker, the next one is
defined, and the worker in hand has its element of `pipes`. -/
structure AcceptLoop.Safe (cfg : ForgeCfg) (l : AcceptLoop) : Prop where
  nonneg : 0 ≤ l.next
  lt : l.next < cfg.workers
  defined : (nextOf cfg l.next).isSome
  target : ∀ rest cfd target, l.pc = .dispatching rest cfd target → InSlots cfg target

/-- The loop is entered, and then safe. -/
def MasterState.Safe (cfg : ForgeCfg) : MasterState → Prop
  | .starting _ => True
  | .serving _ l => l.Safe cfg
  | .fault => False

variable {cfg : ForgeCfg} {l : AcceptLoop}

/-- The numbers of the workers are the indices of the array. -/
theorem inSlots_iff (hint : IsInt cfg.workers) (hw : 0 ≤ cfg.workers) {target : ℤ} :
    InSlots cfg target ↔ 0 ≤ target ∧ target < cfg.workers := by
  rw [InSlots, slots, toSizeT_of_nonneg hint hw]

/-- Safe is what has its numbers in range. -/
theorem AcceptLoop.Safe.of_lt (hint : IsInt cfg.workers) (hnonneg : 0 ≤ l.next)
    (hlt : l.next < cfg.workers)
    (htarget : ∀ rest cfd target, l.pc = .dispatching rest cfd target → InSlots cfg target) :
    l.Safe cfg where
  nonneg := hnonneg
  lt := hlt
  defined := by
    rw [nextOf, (add_one_rem hint hnonneg hlt).1]
    rfl
  target := htarget

theorem AcceptLoop.Safe.start (hint : IsInt cfg.workers) (hw : 0 < cfg.workers) :
    AcceptLoop.start.Safe cfg :=
  .of_lt hint le_rfl hw fun _ _ _ h ↦ absurd h (by simp [AcceptLoop.start])

/-- A step that changes neither the cursor nor the worker in hand. -/
theorem AcceptLoop.Safe.keep (hl : l.Safe cfg) {l' : AcceptLoop} (hnext : l'.next = l.next)
    (hpc : ∀ rest cfd target, l'.pc ≠ .dispatching rest cfd target) : l'.Safe cfg where
  nonneg := hnext ▸ hl.nonneg
  lt := hnext ▸ hl.lt
  defined := hnext ▸ hl.defined
  target rest cfd target h := absurd h (hpc rest cfd target)

theorem AcceptLoop.Safe.nextEvent (hl : l.Safe cfg) (n : ℕ) : (l.nextEvent n).Safe cfg := by
  cases n with
  | zero => exact hl.keep rfl fun _ _ _ ↦ by simp [AcceptLoop.nextEvent]
  | succ rest => exact hl.keep rfl fun _ _ _ ↦ by simp [AcceptLoop.nextEvent]

/-- A connection is accepted: the cursor becomes the worker in hand, and goes on. -/
theorem AcceptLoop.Safe.accept (hint : IsInt cfg.workers) (hl : l.Safe cfg) (rest : ℕ) (cfd : ℤ) :
    ∃ next, nextOf cfg l.next = some next ∧
      ({ l with pc := .dispatching rest cfd l.next, next } : AcceptLoop).Safe cfg := by
  obtain ⟨hnext, hnonneg, hlt⟩ := add_one_rem hint hl.nonneg hl.lt
  refine ⟨_, hnext, .of_lt hint hnonneg hlt fun rest' cfd' target heq ↦ ?_⟩
  obtain ⟨-, -, rfl⟩ := AcceptPc.dispatching.inj heq
  exact (inSlots_iff hint (hl.nonneg.trans hl.lt.le)).2 ⟨hl.nonneg, hl.lt⟩

/-- **From a safe state every step has a meaning**, and leads to a safe state. -/
theorem serving_step (hint : IsInt cfg.workers) (hl : l.Safe cfg) {i : MasterInput}
    {r : Option AcceptLoop} (h : l.step cfg i = some r) : ∃ l', r = some l' ∧ l'.Safe cfg := by
  cases i with
  | terminate =>
    obtain rfl := Option.some.inj h
    exact ⟨_, rfl, hl.nonneg, hl.lt, hl.defined, hl.target⟩
  | epollWait w =>
    simp only [AcceptLoop.step] at h
    split at h
    case h_2 => exact absurd h (by simp)
    rename_i hpc
    split at h
    · obtain rfl := Option.some.inj h
      exact ⟨_, rfl, hl.keep rfl fun _ _ _ ↦ by simp⟩
    · split at h <;> obtain rfl := Option.some.inj h
      · exact ⟨_, rfl, hl⟩
      · exact ⟨_, rfl, hl.keep rfl fun _ _ _ ↦ by simp⟩
      · exact ⟨_, rfl, hl.nextEvent _⟩
  | accept4 a =>
    simp only [AcceptLoop.step] at h
    split at h
    case h_2 => exact absurd h (by simp)
    rename_i rest hpc
    split at h
    · obtain rfl := Option.some.inj h
      exact ⟨_, rfl, hl.nextEvent _⟩
    · obtain rfl := Option.some.inj h
      exact ⟨_, rfl, hl⟩
    · obtain rfl := Option.some.inj h
      exact ⟨_, rfl, hl.nextEvent _⟩
    · rename_i cfd
      obtain ⟨-, h⟩ := Option.ite_none_right_eq_some.1 h
      obtain ⟨next, hnext, hl'⟩ := hl.accept hint rest cfd
      rw [hnext] at h
      obtain rfl := Option.some.inj h
      exact ⟨_, rfl, hl'⟩
  | sendFd fails =>
    simp only [AcceptLoop.step] at h
    split at h
    case h_2 => exact absurd h (by simp)
    rename_i rest cfd target hpc
    rw [if_pos (hl.target rest cfd target hpc)] at h
    obtain rfl := Option.some.inj h
    exact ⟨_, rfl, hl.keep rfl fun _ _ _ ↦ by simp⟩
  | close =>
    simp only [AcceptLoop.step] at h
    split at h
    case h_2 => exact absurd h (by simp)
    obtain rfl := Option.some.inj h
    exact ⟨_, rfl, hl.keep rfl fun _ _ _ ↦ by simp⟩

/-! ### Start-up -/

/-- What start-up keeps: with a negative number of workers it does not get beyond `calloc`. -/
def MasterState.Inv (cfg : ForgeCfg) : MasterState → Prop
  | .starting s => cfg.workers < 0 → s.pc = .calloc ∨ s.pc = .died
  | .serving _ l => l.Safe cfg
  | .fault => False

/-- The size of an array with a negative number of elements does not fit. -/
theorem not_callocAllows (hint : IsInt cfg.workers) (hw : cfg.workers < 0) :
    ¬ callocAllows cfg (.calloc true) := by
  have hsize := toSizeT_of_neg hint hw
  intro h
  have hfits : slots cfg * 8 < 2 ^ 64 := h rfl
  rw [slots] at hfits
  omega

/-- What a step of start-up makes of its place when the number of workers is negative. -/
theorem pc_of_negative (hint : IsInt cfg.workers) (hw : cfg.workers < 0) {s s' : Startup}
    (hs : s.pc = .calloc ∨ s.pc = .died) {i : StartInput} {out : Option Caller}
    (hi : callocAllows cfg i) (h : StartStep cfg s i out s') :
    s'.pc = .calloc ∨ s'.pc = .died := by
  cases h with
  | died => exact .inr rfl
  | allocated => exact absurd hi (not_callocAllows hint hw)
  | paired n hpc | forked n hpc | polled hpc | serving hpc =>
    rw [hpc] at hs
    exact absurd hs (by simp)
  | setUp | setUpFailed | ended => exact hs

theorem MasterState.Inv.afterStart (hint : IsInt cfg.workers) (hw : cfg.workers ≠ 0) {s : Startup}
    (hs : cfg.workers < 0 → s.pc = .calloc ∨ s.pc = .died) : (afterStart s).Inv cfg := by
  unfold MasterState.afterStart
  split
  · rename_i hpc
    have hpos : 0 < cfg.workers := by
      refine lt_of_le_of_ne (not_lt.1 fun hneg ↦ ?_) hw.symm
      have := hs hneg
      rw [hpc] at this
      exact absurd this (by simp)
    exact AcceptLoop.Safe.start hint hpos
  · exact hs

/-- **Every step keeps the invariant** when the number of workers is not 0. -/
theorem inv_master_step (hint : IsInt cfg.workers) (hw : cfg.workers ≠ 0) {s s' : MasterState}
    (hs : s.Inv cfg) {i : MasterMove} {out : Option Caller}
    (h : (masterMachine cfg).step s i = some (out, s')) : s'.Inv cfg := by
  cases s with
  | fault => exact absurd hs fun h ↦ h
  | starting s =>
    cases i with
    | loop i => exact absurd h (by simp [masterMachine, MasterState.step])
    | start i =>
      obtain ⟨hi, h⟩ := Option.ite_none_right_eq_some.1 h
      obtain ⟨⟨out₁, s₁⟩, hstep, heq⟩ := Option.map_eq_some_iff.1 h
      obtain ⟨-, rfl⟩ := Prod.mk.inj heq
      exact .afterStart hint hw fun hneg ↦
        pc_of_negative hint hneg (hs hneg) hi (start_cases hstep)
  | serving s l =>
    cases i with
    | start i =>
      obtain ⟨⟨out₁, s₁⟩, -, heq⟩ := Option.map_eq_some_iff.1 h
      obtain ⟨-, rfl⟩ := Prod.mk.inj heq
      exact hs
    | loop i =>
      obtain ⟨r, hstep, heq⟩ := Option.map_eq_some_iff.1 h
      obtain ⟨-, rfl⟩ := Prod.mk.inj heq
      obtain ⟨l', rfl, hl'⟩ := serving_step hint hs hstep
      exact hl'

theorem inv_master_run (hint : IsInt cfg.workers) (hw : cfg.workers ≠ 0) {fds : List ℤ}
    {s : MasterState}
    (hs : (masterMachine cfg).Reachable (.starting (.start cfg fds)) s) : s.Inv cfg :=
  hs.invariant (fun _ ↦ .inl rfl) fun _ _ _ _ h hstep ↦ inv_master_step hint hw h hstep

/-- **With a negative number of workers the loop is never entered.** -/
theorem negative_never_serves (hint : IsInt cfg.workers) (hw : cfg.workers < 0) {fds : List ℤ}
    {s : MasterState} (hs : (masterMachine cfg).Reachable (.starting (.start cfg fds)) s) :
    ∃ s₁, s = .starting s₁ ∧ (s₁.pc = .calloc ∨ s₁.pc = .died) := by
  have hinv := inv_master_run hint hw.ne hs
  cases s with
  | starting s₁ => exact ⟨s₁, rfl, hinv hw⟩
  | serving s₁ l =>
    have hl : l.Safe cfg := hinv
    exact absurd (hl.nonneg.trans_lt (hl.lt.trans hw)) (lt_irrefl 0)
  | fault => exact absurd hinv fun h ↦ h

/-! ### The number of workers -/

theorem starting_step {s s' : Startup} {i : StartInput} {out : Option Caller}
    (hi : callocAllows cfg i) (h : Startup.step cfg s i = some (out, s')) :
    (masterMachine cfg).step (.starting s) (.start i) = some (out, .afterStart s') := by
  simp only [masterMachine, MasterState.step, if_pos hi, h, Option.map_some]

/-- Without a worker start-up succeeds. -/
theorem zero_serves (hw : cfg.workers = 0) (fds : List ℤ) :
    ∃ s, (masterMachine cfg).Reachable (.starting (.start cfg fds)) (.serving s .start) := by
  obtain ⟨ep, hep⟩ := Infinite.exists_notMem_finset (insert cfg.listenFd fds.toFinset)
  rw [Finset.mem_insert, List.mem_toFinset, not_or] at hep
  have hfree : (Startup.start cfg fds).table ep = none := by
    simp only [Startup.start, if_neg hep.1, if_neg hep.2]
  let s₀ := Startup.start cfg fds
  let s₁ : Startup := { s₀ with pc := .epollCreate }
  let s₂ : Startup :=
    { s₁ with pc := .epollCtl, table := Function.update s₁.table ep (some .other) }
  have hcalloc : callocAllows cfg (.calloc true) := fun _ ↦ by rw [slots, hw]; decide
  have hallows : ∀ i : StartInput, i ≠ .calloc true → callocAllows cfg i := fun i hi h ↦ absurd h hi
  have h₁ : Startup.step cfg s₀ (.calloc true) = some (none, s₁) := by
    show some _ = some _
    rw [Startup.loopAt, hw]
    rfl
  have h₂ : Startup.step cfg s₁ (.epollCreate (some ep)) = some (none, s₂) := if_pos hfree
  have h₃ : Startup.step cfg s₂ (.epollCtl true) = some (none, { s₂ with pc := .serving }) := rfl
  have hreach₁ := (Reachable.refl _ _).step (starting_step hcalloc h₁)
  have hreach₂ := hreach₁.step (starting_step (hallows _ (by simp)) h₂)
  exact ⟨_, hreach₂.step (starting_step (hallows _ (by simp)) h₃)⟩

/-- **Without a worker the first connection is a division by 0.** -/
theorem zero_accept_fault (hw : cfg.workers = 0) {rest : ℕ} (hpc : l.pc = .accepting rest)
    {cfd : ℤ} (hcfd : 0 ≤ cfd) : l.step cfg (.accept4 (.client cfd)) = some none := by
  have hnext : nextOf cfg l.next = none := by
    rw [nextOf, hw]
    cases add l.next 1 <;> rfl
  simp only [AcceptLoop.step, hpc, if_pos hcfd, hnext, Option.map_none]

/-- **Exactly when the dispatch is safe**: when what `main` reads from the last `-w` is not 0. Then
start-up ends before the loop is entered, or the arithmetic of the loop is safe in every state. -/
theorem dispatch_safe_iff (k : ListenKernel) (opts : List Opt) (cfg : ForgeCfg)
    (h : forgeMain k opts = .master cfg) (fds : List ℤ) :
    (∀ s, (masterMachine cfg).Reachable (.starting (.start cfg fds)) s → s.Safe cfg) ↔
      (lastArg Opt.w? opts).map atoi ≠ some 0 := by
  have hint := isInt_workers h
  have hzero : (lastArg Opt.w? opts).map atoi = some 0 ↔ cfg.workers = 0 := by
    obtain ⟨fd, addr, -, rfl⟩ := forgeMain_eq_master h
    cases (lastArg Opt.w? opts).map atoi <;> simp
  rw [Ne, hzero]
  constructor
  · intro hsafe hw
    obtain ⟨s, hs⟩ := zero_serves hw fds
    have hl : AcceptLoop.start.Safe cfg := hsafe _ hs
    exact absurd hl.lt (by simp [AcceptLoop.start, hw])
  · intro hw s hs
    have hinv := inv_master_run hint hw hs
    cases s with
    | starting => trivial
    | serving => exact hinv
    | fault => exact hinv

/-- With `-w 0` the master takes a connection and divides by 0. -/
theorem zero_workers_fault :
    ∃ cfg, forgeMain {} [.w (ascii "0")] = .master cfg ∧
      (∃ outs, (masterMachine cfg).run (.starting (.start cfg [0, 1, 2]))
        [.start (.calloc true), .start (.epollCreate (some 4)), .start (.epollCtl true),
          .loop (.epollWait (.events 1)), .loop (.accept4 (.client 5))] = some (outs, .fault)) ∧
      ¬ ∀ s, (masterMachine cfg).Reachable (.starting (.start cfg [0, 1, 2])) s → s.Safe cfg := by
  refine ⟨_, rfl, ?_⟩
  have hrun : ∃ outs, (masterMachine { workers := 0, listenFd := 3 }).run
      (.starting (.start { workers := 0, listenFd := 3 } [0, 1, 2]))
      [.start (.calloc true), .start (.epollCreate (some 4)), .start (.epollCtl true),
        .loop (.epollWait (.events 1)), .loop (.accept4 (.client 5))] = some (outs, .fault) :=
    ⟨_, rfl⟩
  obtain ⟨outs, hrun⟩ := hrun
  exact ⟨⟨outs, hrun⟩, fun h ↦ h .fault ⟨_, outs, hrun⟩⟩

/-- Eight workers. -/
theorem dispatch_safe_iff_eight :
    ∃ cfg, forgeMain {} [.w (ascii "8")] = .master cfg ∧
      ∀ s, (masterMachine cfg).Reachable (.starting (.start cfg [0, 1, 2])) s → s.Safe cfg :=
  ⟨_, rfl, (dispatch_safe_iff {} [.w (ascii "8")] _ rfl [0, 1, 2]).2 (by decide)⟩

/-! ### The loop of the system -/

/-- The place of the master, with its worker as an `int`. -/
def MasterPc.toAccept : MasterPc → AcceptPc
  | .wait => .wait
  | .accepting rest => .accepting rest
  | .dispatching rest cfd target => .dispatching rest cfd target
  | .closing rest cfd => .closing rest cfd
  | .stopped => .stopped

/-- The variables of the loop in a state of the system. -/
def System.acceptLoop (s : System) : AcceptLoop := ⟨s.pc.toAccept, s.next, s.terminate⟩

variable {cap : ℕ} {s s' : System}

theorem acceptLoop_nextEvent (s : System) (n : ℕ) :
    (s.nextEvent n).acceptLoop = s.acceptLoop.nextEvent n := by
  cases n <;> rfl

/-- The cursor of the system goes on as that of the code does. -/
theorem nextOf_next (hint : IsInt cfg.workers) (hw : 0 < cfg.workers) (hs : MasterInv cfg s) :
    nextOf cfg s.next = some (((s.next + 1) % cfg.workerCount : ℕ) : ℤ) := by
  have hcount : (cfg.workerCount : ℤ) = cfg.workers := Int.toNat_of_nonneg hw.le
  have hlt : s.next < cfg.workerCount := hs.next ▸ Nat.mod_lt _ (by omega)
  rw [nextOf, (add_one_rem hint (by omega) (by omega)).1, Int.natCast_mod, hcount,
    Int.natCast_add, Int.natCast_one]

/-- The worker in hand is one of the workers. -/
theorem inSlots_inHand (hint : IsInt cfg.workers) (hw : 0 < cfg.workers) (hs : s.InHand cfg)
    {rest target : ℕ} {cfd : ℤ} (hpc : s.pc = .dispatching rest cfd target) :
    InSlots cfg target := by
  obtain ⟨id, -, rfl, -⟩ := inHand_dispatching hs hpc
  have hcount : (cfg.workerCount : ℤ) = cfg.workers := Int.toNat_of_nonneg hw.le
  have hlt : id % cfg.workerCount < cfg.workerCount := Nat.mod_lt _ (by omega)
  exact (inSlots_iff hint hw.le).2 ⟨by omega, by omega⟩

theorem epollWait_refines {w : WaitResult} {out : SysOutput}
    (h : s.masterStep cfg cap (.epollWait w) = some (out, s')) :
    s.acceptLoop.step cfg (.epollWait w) = some (some s'.acceptLoop) := by
  have hpcs : s.acceptLoop.pc = s.pc.toAccept := rfl
  have hterm : s.acceptLoop.terminate = s.terminate := rfl
  simp only [System.masterStep] at h
  split at h
  case h_2 => exact absurd h (by simp)
  rename_i hpc
  rw [hpc] at hpcs
  simp only [AcceptLoop.step, hpcs, MasterPc.toAccept, hterm]
  split at h
  · rename_i ht
    obtain ⟨-, rfl⟩ := Prod.mk.inj (Option.some.inj h)
    rw [if_pos ht]
    rfl
  · rename_i ht
    rw [if_neg ht]
    split at h <;> obtain ⟨-, rfl⟩ := Prod.mk.inj (Option.some.inj h)
    · rfl
    · rfl
    · rw [acceptLoop_nextEvent]

theorem accept4_refines (hint : IsInt cfg.workers) (hw : 0 < cfg.workers) (hs : MasterInv cfg s)
    {a : AcceptResult} {out : SysOutput}
    (h : s.masterStep cfg cap (.accept4 a) = some (out, s')) :
    s.acceptLoop.step cfg (.accept4 a) = some (some s'.acceptLoop) := by
  have hpcs : s.acceptLoop.pc = s.pc.toAccept := rfl
  simp only [System.masterStep] at h
  split at h
  case h_2 => exact absurd h (by simp)
  rename_i rest hpc
  rw [hpc] at hpcs
  simp only [AcceptLoop.step, hpcs, MasterPc.toAccept]
  split at h
  · obtain ⟨-, rfl⟩ := Prod.mk.inj (Option.some.inj h)
    rw [acceptLoop_nextEvent]
  · obtain ⟨-, rfl⟩ := Prod.mk.inj (Option.some.inj h)
    rfl
  · obtain ⟨-, rfl⟩ := Prod.mk.inj (Option.some.inj h)
    rw [acceptLoop_nextEvent]
  · obtain ⟨hcfd, h⟩ := Option.ite_none_right_eq_some.1 h
    obtain ⟨-, rfl⟩ := Prod.mk.inj (Option.some.inj h)
    have hnext : nextOf cfg s.acceptLoop.next = _ := nextOf_next hint hw hs
    simp only [if_pos hcfd.1, hnext]
    rfl

theorem sendFd_refines (hint : IsInt cfg.workers) (hw : 0 < cfg.workers) (hs : MasterInv cfg s)
    {fails : Bool} {out : SysOutput} (h : s.masterStep cfg cap (.sendFd fails) = some (out, s')) :
    s.acceptLoop.step cfg (.sendFd fails) = some (some s'.acceptLoop) := by
  have hpcs : s.acceptLoop.pc = s.pc.toAccept := rfl
  simp only [System.masterStep] at h
  split at h
  case h_2 => exact absurd h (by simp)
  rename_i rest cfd target hpc
  rw [hpc] at hpcs
  have hslot : InSlots cfg (target : ℤ) := inSlots_inHand hint hw hs.inHand hpc
  simp only [AcceptLoop.step, hpcs, MasterPc.toAccept, if_pos hslot]
  split at h
  · obtain ⟨-, rfl⟩ := Prod.mk.inj (Option.some.inj h)
    rfl
  · split at h <;> obtain ⟨-, rfl⟩ := Prod.mk.inj (Option.some.inj h) <;> rfl

theorem close_refines {out : SysOutput} (h : s.masterStep cfg cap .close = some (out, s')) :
    s.acceptLoop.step cfg .close = some (some s'.acceptLoop) := by
  have hpcs : s.acceptLoop.pc = s.pc.toAccept := rfl
  simp only [System.masterStep] at h
  split at h
  case h_2 => exact absurd h (by simp)
  rename_i rest cfd hpc
  rw [hpc] at hpcs
  obtain ⟨-, rfl⟩ := Prod.mk.inj (Option.some.inj h)
  simp only [AcceptLoop.step, hpcs, MasterPc.toAccept]
  rfl

/-- **The master of the system is the code**: each of its steps has a meaning, and is the step of
the code. -/
theorem masterStep_refines (hint : IsInt cfg.workers) (hw : 0 < cfg.workers)
    (hs : MasterInv cfg s) {i : MasterInput} {out : SysOutput}
    (h : s.masterStep cfg cap i = some (out, s')) :
    s.acceptLoop.step cfg i = some (some s'.acceptLoop) := by
  cases i with
  | terminate =>
    obtain ⟨-, rfl⟩ := Prod.mk.inj (Option.some.inj h)
    rfl
  | epollWait w => exact epollWait_refines h
  | accept4 a => exact accept4_refines hint hw hs h
  | sendFd fails => exact sendFd_refines hint hw hs h
  | close => exact close_refines h

/-- What a step of the system is to the master. -/
def SysInput.move? : SysInput → Option MasterMove
  | .master i => some (.loop i)
  | _ => none

/-- **Every run of the system is a run of the code**: on the inputs of the master alone, in their
order, the loop of the code goes through, and is in the end where the master of the system is,
whatever the workers do in between. -/
theorem system_refines (hint : IsInt cfg.workers) (hw : 0 < cfg.workers) {fds : List ℤ}
    {is : List SysInput} {outs : List SysOutput}
    (hrun : (forgeMachine cfg cap).run (.start cfg fds) is = some (outs, s)) (st : Startup) :
    ∃ os, (masterMachine cfg).run (.serving st .start) (is.filterMap SysInput.move?) =
      some (os, .serving st s.acceptLoop) := by
  refine (run_history (P := fun is _ s ↦ MasterInv cfg s ∧
    ∃ os, (masterMachine cfg).run (.serving st .start) (is.filterMap SysInput.move?) =
      some (os, .serving st s.acceptLoop)) ⟨.start cfg fds, [], rfl⟩ ?_ hrun).2
  rintro is - s i out s' ⟨hinv, os, hloop⟩ hstep
  refine ⟨masterInv_step hinv (sys_cases hstep), ?_⟩
  rw [List.filterMap_append]
  cases i with
  | master i =>
    have hmove : (masterMachine cfg).step (.serving st s.acceptLoop) (.loop i) =
        some (none, .serving st s'.acceptLoop) := by
      simp only [masterMachine, MasterState.step, masterStep_refines hint hw hinv hstep]
      rfl
    have hlast : (masterMachine cfg).run (.serving st s.acceptLoop) [.loop i] =
        some ([none], .serving st s'.acceptLoop) :=
      (run_cons_eq_some _).2 ⟨_, _, _, hmove, run_nil _ _, rfl⟩
    exact ⟨os ++ [none], (run_append_eq_some _).2 ⟨os, _, _, hloop, hlast, rfl⟩⟩
  | datagram | recv | worker | exit =>
    -- a worker's step does not touch the variables of the master
    have hsame : s'.acceptLoop = s.acceptLoop := by
      cases sys_cases hstep
      rfl
    exact ⟨os, by rw [hsame, List.filterMap_cons_none rfl, List.filterMap_nil, List.append_nil,
      hloop]⟩

/-- The first connection is in hand for worker 0 when worker 1 exits, and the next one is for
worker 1. -/
theorem system_refines_one :
    ∃ outs s, (forgeMachine {} 10).run (.start {} [3, 4])
        [.master (.epollWait (.events 1)), .exit 1, .master (.accept4 (.client 9))] =
          some (outs, s) ∧
      s.acceptLoop = ⟨.dispatching 0 9 0, 1, false⟩ ∧
      ∀ st, ∃ os, (masterMachine {}).run (.serving st .start)
        [.loop (.epollWait (.events 1)), .loop (.accept4 (.client 9))] =
          some (os, .serving st s.acceptLoop) := by
  have hrun : ∃ outs s, (forgeMachine {} 10).run (.start {} [3, 4])
      [.master (.epollWait (.events 1)), .exit 1, .master (.accept4 (.client 9))] =
        some (outs, s) ∧
      s.acceptLoop = ⟨.dispatching 0 9 0, 1, false⟩ := ⟨_, _, rfl, rfl⟩
  obtain ⟨outs, s, hrun, hloop⟩ := hrun
  exact ⟨outs, s, hrun, hloop, system_refines (by decide) (by decide) hrun⟩

end ForgeServer
