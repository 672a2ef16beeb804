import ForgeServer.Master.RoundRobin
import ForgeServer.Master.Startup

/-!
# From the start-up to the loop

`System` takes it for granted that `pipes[n][0]` leads to worker `n` and that there are `workers` of
them. Both are what the fork loop leaves behind when the accept loop is entered: `Routes` is read
off the descriptor tables of the processes, and `control_sockets_wired` says that element `n` of the
array leads to worker `n` and to no other, that nobody else could read what is sent there, and that
the workers are those of `System.start`, with an exit for each one that has ended by then.

It rests on the invariant of the start-up, for the ends that each table holds.
-/

namespace ForgeServer

open Function Machine

/-- What the master sends on `pipes[n][0]` comes to worker `m` on its `control_fd`: the two are the
ends of one socket pair. -/
def Startup.Routes (s : Startup) (n m : ℕ) : Prop :=
  ∃ j c, s.table (s.pipes n).1 = some (.masterEnd j) ∧ s.children m = some c ∧
    c.table c.controlFd = some (.workerEnd j)

/-- Worker `n` was forked and has not ended. -/
def Startup.Alive (s : Startup) (n : ℕ) : Prop := ∃ c, s.children n = some c ∧ c.life ≠ .ended

/-- The exits of the workers that have ended, of `w` workers. -/
def Startup.exits (s : Startup) (w : ℕ) : List SysInput :=
  ((List.range w).filter fun n ↦ (s.children n).any fun c ↦ c.life = .ended).map .exit

variable {cfg : ForgeCfg} {cap : ℕ}

/-- Workers exit, one after the other. -/
theorem run_exits (sys : System) (ns : List ℕ) :
    ∃ outs sys', (forgeMachine cfg cap).run sys (ns.map .exit) = some (outs, sys') ∧
      ∀ n, (sys'.link n).loop.isSome ↔ n ∉ ns ∧ (sys.link n).loop.isSome := by
  induction ns generalizing sys with
  | nil => exact ⟨[], sys, rfl, fun n ↦ by simp⟩
  | cons m ns ih =>
    obtain ⟨outs, sys', hrun, hloop⟩ :=
      ih (sys.setLink m { sys.link m with loop := none, queue := [] })
    refine ⟨.quiet :: outs, sys', (run_cons_eq_some _).2 ⟨.quiet, _, outs, rfl, hrun, rfl⟩,
      fun n ↦ ?_⟩
    rw [hloop, setLink_link, List.mem_cons, not_or]
    rcases eq_or_ne n m with rfl | hne
    · rw [update_self]
      simp
    · rw [update_of_ne hne]
      simp [hne]

theorem mem_exits {s : Startup} {w n : ℕ} :
    n ∈ (List.range w).filter (fun n ↦ (s.children n).any fun c ↦ c.life = .ended) ↔
      n < w ∧ ∃ c, s.children n = some c ∧ c.life = .ended := by
  rw [List.mem_filter, List.mem_range, Option.any_eq_true]
  simp

/-- **The control sockets are wired.** In every run of the start-up that comes to the accept loop,
what the master sends on `pipes[n][0]` comes to worker `n` and to no other; the other ends of the
pairs are open in the workers only, each in its own worker, as its `control_fd`; and the workers are
those of the system in front of the loop, after the exits of those that have ended. -/
theorem control_sockets_wired (cfg : ForgeCfg) (fds : List ℤ) (is : List StartInput)
    (outs : List (Option Caller)) (s : Startup)
    (hrun : (startMachine cfg).run (.start cfg fds) is = some (outs, s)) (hpc : s.pc = .serving)
    (cap : ℕ) (fds' : List ℤ) :
    (∀ n < cfg.workerCount, ∀ m, s.Routes n m ↔ m = n) ∧
      ((∀ fd j, s.table fd ≠ some (.workerEnd j)) ∧ ∀ m c fd j, s.children m = some c →
        (c.table fd = some (.workerEnd j) ↔ j = m ∧ fd = c.controlFd)) ∧
      ∃ outs' sys, (forgeMachine cfg cap).run (.start cfg fds') (s.exits cfg.workerCount) =
          some (outs', sys) ∧
        ∀ n, (sys.link n).loop.isSome ↔ s.Alive n := by
  have hs := inv_start_run hrun
  obtain ⟨hforks, hmaster⟩ := hs.pc.of_loopEnded (.inr (.inr hpc))
  have hforked : ∀ n, s.children n ≠ none ↔ n < cfg.workerCount := fun n ↦ by
    rw [hs.forked, hforks, ForgeCfg.workerCount]
  have hworker : ∀ m c fd j, s.children m = some c →
      (c.table fd = some (.workerEnd j) ↔ j = m ∧ fd = c.controlFd) := by
    intro m c fd j hc
    obtain ⟨hholds, hcontrol⟩ := hs.holds m c hc
    rw [hholds.workerEnd, Option.some.injEq, hcontrol]
    exact ⟨fun ⟨hj, hfd⟩ ↦ ⟨hj.symm, hj ▸ hfd⟩, fun ⟨hj, hfd⟩ ↦ ⟨hj.symm, hj ▸ hfd⟩⟩
  refine ⟨fun n hn m ↦ ?_, ⟨fun fd j hfd ↦ ?_, hworker⟩, ?_⟩
  · -- element `n` of the array is the master's end of pair `n`
    have hend : s.table (s.pipes n).1 = some (.masterEnd n) :=
      (hmaster.masterEnd _ n).2 ⟨by rwa [hforks], rfl⟩
    constructor
    · rintro ⟨j, c, hj, hc, hcontrol⟩
      rw [hend, Option.some.injEq, FdRef.masterEnd.injEq] at hj
      exact ((hworker m c _ j hc).1 hcontrol).1.symm.trans hj.symm
    · rintro rfl
      obtain ⟨c, hc⟩ := Option.ne_none_iff_exists'.1 ((hforked m).2 hn)
      exact ⟨m, c, hend, hc, (hworker m c _ m hc).2 ⟨rfl, rfl⟩⟩
  · exact absurd ((hmaster.workerEnd fd j).1 hfd).1 (by simp)
  · let ended := (List.range cfg.workerCount).filter fun n ↦
      (s.children n).any fun c ↦ c.life = .ended
    obtain ⟨outs', sys, hrun', hloop⟩ : ∃ outs sys,
        (forgeMachine cfg cap).run (.start cfg fds') (ended.map .exit) = some (outs, sys) ∧
          ∀ n, (sys.link n).loop.isSome ↔
            n ∉ ended ∧ ((System.start cfg fds').link n).loop.isSome := run_exits _ ended
    refine ⟨outs', sys, hrun', fun n ↦ ?_⟩
    have hstart : ((System.start cfg fds').link n).loop.isSome ↔ n < cfg.workerCount := by
      simp only [System.start]
      split <;> simp [*]
    rw [hloop, mem_exits, hstart]
    constructor
    · rintro ⟨hno, hn⟩
      obtain ⟨c, hc⟩ := Option.ne_none_iff_exists'.1 ((hforked n).2 hn)
      exact ⟨c, hc, fun hlife ↦ hno ⟨hn, c, hc, hlife⟩⟩
    · rintro ⟨c, hc, hlife⟩
      refine ⟨fun ⟨_, c', hc', hlife'⟩ ↦ ?_, (hforked n).1 (by rw [hc]; simp)⟩
      exact hlife (Option.some.inj (hc.symm.trans hc') ▸ hlife')

/-- Two workers, of which the first has ended when the loop is entered. -/
theorem control_sockets_wired_two :
    ∃ outs s, (startMachine (forgeCfg 2)).run (.start (forgeCfg 2) [0, 1, 2])
        [.calloc true, .socketpair (some (4, 5)), .fork true, .socketpair (some (5, 6)),
          .fork true, .childEnds 0, .epollCreate (some 6), .epollCtl true] = some (outs, s) ∧
      s.pc = .serving ∧ s.exits 2 = [.exit 0] ∧ (∀ m, s.Routes 1 m ↔ m = 1) ∧
      ∃ outs' sys, (forgeMachine (forgeCfg 2) 10).run (.start (forgeCfg 2) [3, 4]) (s.exits 2) =
          some (outs', sys) ∧
        ∀ n, (sys.link n).loop.isSome ↔ s.Alive n := by
  refine ⟨_, _, rfl, rfl, rfl, ?_⟩
  obtain ⟨hroutes, -, hsys⟩ := control_sockets_wired (forgeCfg 2) [0, 1, 2]
    [.calloc true, .socketpair (some (4, 5)), .fork true, .socketpair (some (5, 6)), .fork true,
      .childEnds 0, .epollCreate (some 6), .epollCtl true] _ _ rfl rfl 10 [3, 4]
  exact ⟨hroutes 1 (by decide), hsys⟩

end ForgeServer
