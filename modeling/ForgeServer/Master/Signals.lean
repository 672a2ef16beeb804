import ForgeServer.Master.Lifecycle

/-!
# The server with its signals

`SIGINT` and `SIGTERM` set `g_terminate` in the process they come to and do nothing else. Each
process has its own flag, and looks at it in one place: the master and the workers at the condition
of their loops. So `forgeMachine` is refined here by what it leaves to the environment: a worker
tests its flag (`check`) before it calls `epoll_wait`, and exits by itself where the flag is set;
the master calls `kill(0, SIGTERM)` once it has left its loop. A signal can come between the test
and the call, and one batch of up to `MAX_EVENTS` events is then still handled. Of the master's loop
the test and the call are one step, so a signal between the two is one that comes behind the call.

`server_refines` gives every run as a run of `forgeMachine`, so what holds there holds here.
-/

namespace ForgeServer

open Function Machine

/-- `MAX_EVENTS`. -/
def maxEvents : ℕ := 4096

/-! ### The server with its signals -/

/-- A state of the server. The `g_terminate` of the master is `sys.terminate`. -/
structure Server where
  sys : System
  /-- The `g_terminate` of each worker. -/
  flag : ℕ → Bool
  /-- The worker has found its flag unset, and has not called `epoll_wait` since. -/
  checked : ℕ → Bool
  /-- The master has called `kill`. -/
  killed : Bool

/-- What happens to the server. -/
inductive ServerInput
  | sys (i : SysInput)
  /-- A signal comes to a worker. -/
  | signal (n : ℕ)
  /-- A worker is at the condition of its loop. -/
  | check (n : ℕ)
  /-- `kill(0, SIGTERM)`. -/
  | kill

namespace Server

/-- The server in front of the master's loop. -/
def start (cfg : ForgeCfg) (fds : List ℤ) : Server where
  sys := .start cfg fds
  flag _ := false
  checked _ := false
  killed := false

/-- A worker calls `epoll_wait` behind the condition of its loop, and for at most `MAX_EVENTS`
events. -/
def Admits (v : Server) : SysInput → Prop
  | .worker n (.wait batch) => v.checked n ∧ batch.length ≤ maxEvents
  | _ => True

instance (v : Server) : DecidablePred v.Admits
  | .worker n (.wait batch) => inferInstanceAs (Decidable (v.checked n ∧ batch.length ≤ maxEvents))
  | .worker _ .enter | .worker _ (.recv ..) | .worker _ (.client _) | .master _ | .datagram ..
  | .recv .. | .exit _ => inferInstanceAs (Decidable True)

/-- The workers that have passed the condition of their loops, after a step of the system. -/
def checkedAfter (v : Server) : SysInput → ℕ → Bool
  | .worker n (.wait _) => update v.checked n false
  | _ => v.checked

/-- One step. The master's `kill` comes to every process of its group, itself included. -/
def step (cfg : ForgeCfg) (cap : ℕ) (v : Server) : ServerInput → Option (SysOutput × Server)
  | .sys i =>
    if v.Admits i then
      (v.sys.step cfg cap i).map fun r ↦ (r.1, { v with sys := r.2, checked := v.checkedAfter i })
    else none
  | .signal n => some (.quiet, { v with flag := update v.flag n true })
  | .check n =>
    match (v.sys.link n).loop with
    | some (.running _ false []) =>
      if v.checked n then none
      else if v.flag n then
        (v.sys.step cfg cap (.exit n)).map fun r ↦ (r.1, { v with sys := r.2 })
      else some (.quiet, { v with checked := update v.checked n true })
    | _ => none
  | .kill =>
    match v.sys.pc with
    | .stopped =>
      if v.killed then none
      else some (.quiet, { v with
        sys := { v.sys with terminate := true }
        flag := fun _ ↦ true
        killed := true })
    | _ => none

end Server

/-- The server with its signals. -/
def serverMachine (cfg : ForgeCfg) (cap : ℕ) : Machine Server ServerInput SysOutput where
  step := Server.step cfg cap

/-- **The steps of the server.** -/
inductive ServerStep (cfg : ForgeCfg) (cap : ℕ) (v : Server) :
    ServerInput → SysOutput → Server → Prop
  | sys (i : SysInput) (hadmits : v.Admits i) (out : SysOutput) (s' : System)
      (hstep : (forgeMachine cfg cap).step v.sys i = some (out, s')) :
      ServerStep cfg cap v (.sys i) out { v with sys := s', checked := v.checkedAfter i }
  | signal (n : ℕ) : ServerStep cfg cap v (.signal n) .quiet { v with flag := update v.flag n true }
  /-- A worker finds its flag set. -/
  | leaves (n : ℕ) (w : Worker) (hloop : (v.sys.link n).loop = some (.running w false []))
      (hflag : v.flag n = true) :
      ServerStep cfg cap v (.check n) .quiet
        { v with sys := v.sys.setLink n { v.sys.link n with loop := none, queue := [] } }
  /-- A worker does not. -/
  | stays (n : ℕ) (hflag : v.flag n = false) :
      ServerStep cfg cap v (.check n) .quiet { v with checked := update v.checked n true }
  | kill (hpc : v.sys.pc = .stopped) (hkilled : v.killed = false) :
      ServerStep cfg cap v .kill .quiet { v with
        sys := { v.sys with terminate := true }
        flag := fun _ ↦ true
        killed := true }

variable {cfg : ForgeCfg} {cap : ℕ} {v v' : Server} {i : ServerInput} {out : SysOutput}

/-- **The inversion of a step.** -/
theorem server_cases (h : (serverMachine cfg cap).step v i = some (out, v')) :
    ServerStep cfg cap v i out v' := by
  cases i with
  | sys i =>
    obtain ⟨hadmits, h⟩ := Option.ite_none_right_eq_some.1 h
    obtain ⟨⟨o, s'⟩, hstep, heq⟩ := Option.map_eq_some_iff.1 h
    obtain ⟨rfl, rfl⟩ := Prod.mk.inj heq
    exact .sys i hadmits o s' hstep
  | signal n =>
    obtain ⟨rfl, rfl⟩ := Prod.mk.inj (Option.some.inj h)
    exact .signal n
  | check n =>
    simp only [serverMachine, Server.step] at h
    split at h
    case h_2 => exact absurd h (by simp)
    rename_i w hloop
    obtain ⟨-, h⟩ := Option.ite_none_left_eq_some.1 h
    split at h
    · rename_i hflag
      obtain ⟨⟨o, s'⟩, hstep, heq⟩ := Option.map_eq_some_iff.1 h
      obtain ⟨rfl, rfl⟩ := Prod.mk.inj (Option.some.inj hstep)
      obtain ⟨rfl, rfl⟩ := Prod.mk.inj heq
      exact .leaves n w hloop hflag
    · rename_i hflag
      obtain ⟨rfl, rfl⟩ := Prod.mk.inj (Option.some.inj h)
      exact .stays n (Bool.not_eq_true _ ▸ hflag)
  | kill =>
    simp only [serverMachine, Server.step] at h
    split at h
    case h_2 => exact absurd h (by simp)
    rename_i hpc
    obtain ⟨hkilled, h⟩ := Option.ite_none_left_eq_some.1 h
    obtain ⟨rfl, rfl⟩ := Prod.mk.inj (Option.some.inj h)
    exact .kill hpc (Bool.not_eq_true _ ▸ hkilled)

/-! ### The server is the system -/

/-- What a step is to `forgeMachine`: a worker that finds its flag set exits, and the master's
`kill` is a signal to itself too. -/
def Server.view (v : Server) : ServerInput → List SysInput
  | .sys i => [i]
  | .signal _ => []
  | .check n => if v.flag n then [.exit n] else []
  | .kill => [.master .terminate]

/-- What is seen of an output. -/
def SysOutput.seen : SysOutput → List SysOutput
  | .quiet => []
  | out => [out]

theorem view_step (h : ServerStep cfg cap v i out v') :
    ∃ outs, (forgeMachine cfg cap).run v.sys (v.view i) = some (outs, v'.sys) ∧
      outs.flatMap SysOutput.seen = out.seen := by
  have hone : ∀ {j : SysInput} {o : SysOutput} {s' : System},
      (forgeMachine cfg cap).step v.sys j = some (o, s') →
      (forgeMachine cfg cap).run v.sys [j] = some ([o], s') := fun hstep ↦
    (run_cons_eq_some _).2 ⟨_, _, [], hstep, rfl, rfl⟩
  cases h with
  | sys i hadmits out s' hstep => exact ⟨[out], hone hstep, List.append_nil _⟩
  | signal n => exact ⟨[], rfl, rfl⟩
  | leaves n w hloop hflag => exact ⟨[.quiet], by rw [Server.view, if_pos hflag]; rfl, rfl⟩
  | stays n hflag => exact ⟨[], by rw [Server.view, if_neg (by simp [hflag])]; rfl, rfl⟩
  | kill hpc hkilled => exact ⟨[.quiet], rfl, rfl⟩

/-- **The server with its signals refines the system**: what is observed in a run is observed in a
run of `forgeMachine` that ends in the same state. -/
theorem server_refines {is : List ServerInput} {outs : List SysOutput}
    (hrun : (serverMachine cfg cap).run v is = some (outs, v')) :
    ∃ outs', (forgeMachine cfg cap).run v.sys
        ((serverMachine cfg cap).viewed Server.view v is) = some (outs', v'.sys) ∧
      outs'.flatMap SysOutput.seen = outs.flatMap SysOutput.seen := by
  obtain ⟨outs', s, hrun', hseen, rfl⟩ :=
    run_simulates (R := fun v s ↦ v.sys = s) SysOutput.seen SysOutput.seen
      (fun v s i out v' hvs hstep ↦ by
        obtain ⟨outs, hview, hout⟩ := view_step (server_cases hstep)
        exact ⟨outs, v'.sys, hvs ▸ hview, hout, rfl⟩) rfl hrun
  exact ⟨outs', hrun', hseen⟩

theorem reachable_server {fds : List ℤ}
    (hv : (serverMachine cfg cap).Reachable (.start cfg fds) v) :
    (forgeMachine cfg cap).Reachable (.start cfg fds) v.sys := by
  obtain ⟨is, outs, hrun⟩ := hv
  obtain ⟨outs', hrun', -⟩ := server_refines hrun
  exact ⟨_, outs', hrun'⟩

theorem reachable_server_inv {fds : List ℤ}
    (hv : (serverMachine cfg cap).Reachable (.start cfg fds) v) : v.sys.Inv cfg :=
  (reachable_server hv).invariant (.start cfg fds) fun _ _ _ _ hs hstep ↦
    system_inv_step hs (sys_cases hstep)

end ForgeServer
