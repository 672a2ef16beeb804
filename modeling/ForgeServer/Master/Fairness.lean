import Mathlib.Data.Int.CardIntervalMod
import ForgeServer.Master.RoundRobin

/-!
# The balance of the round robin

What the master offers in a run, read from the run alone: the connections come in the order in which
they were accepted, each once, the `k`-th to worker `k % workers` (`offers_eq`). The cursor `next`
lives across the batches of `epoll_wait` and all the ways out of the accept loop; that it counts
accepted connections and nothing else is `MasterInv`, and this module only adds what was offered.

That the numbers of connections directed to two workers differ by at most one is then about the
residues of the numbers below some `n` (`count_modEq_le`).
-/

namespace ForgeServer

open Machine

/-- Of the numbers below `n`, each residue has as many as any other, up to one. -/
theorem count_modEq_le {w : ℕ} (hw : 0 < w) (i j n : ℕ) :
    n.count (· ≡ i [MOD w]) ≤ n.count (· ≡ j [MOD w]) + 1 := by
  rw [Nat.count_modEq_card n hw, Nat.count_modEq_card n hw]
  split <;> split <;> omega

/-! ### What a run offers -/

/-- `accept4` returns a connection. -/
def SysInput.accepts : SysInput → Bool
  | .master (.accept4 (.client _)) => true
  | _ => false

/-- The connection `forge_send_fd` is called for, and the worker it is directed to. -/
def SysOutput.offer? : SysOutput → Option (ConnId × ℕ)
  | .offered id target _ => some (id, target)
  | _ => none

/-- The connections that were offered in a run, each with its worker. -/
def offers (outs : List SysOutput) : List (ConnId × ℕ) := outs.filterMap SysOutput.offer?

/-- The number of connections that were directed to a worker in a run. -/
def directedTo (n : ℕ) (outs : List SysOutput) : ℕ := ((offers outs).map Prod.snd).count n

/-- The connection that the master has accepted and not yet offered, as a number. -/
def MasterPc.pending : MasterPc → ℕ
  | .dispatching .. => 1
  | _ => 0

variable {cfg : ForgeCfg} {cap : ℕ} {s s' : System}

theorem offers_append (os : List SysOutput) (o : SysOutput) :
    offers (os ++ [o]) = offers os ++ o.offer?.toList := by
  rw [offers, List.filterMap_append]
  cases h : o.offer? <;> simp [offers, h]

theorem MasterPc.Idle.pending {pc : MasterPc} (hpc : pc.Idle) : pc.pending = 0 := by
  cases pc with
  | dispatching => exact absurd hpc fun h ↦ h
  | wait | accepting | closing | stopped => rfl

/-- An `accept4` with a connection leads in front of `forge_send_fd`. -/
theorem not_idle_of_accepts {i : SysInput} {out : SysOutput} (hi : i.accepts)
    (h : (forgeMachine cfg cap).step s i = some (out, s')) : ¬ s'.pc.Idle := by
  unfold SysInput.accepts at hi
  split at hi
  case h_2 => exact absurd hi (by simp)
  simp only [forgeMachine, System.step, System.masterStep] at h
  split at h
  case h_2 => exact absurd h (by simp)
  obtain ⟨-, h⟩ := Option.ite_none_right_eq_some.1 h
  obtain ⟨-, rfl⟩ := Prod.mk.inj (Option.some.inj h)
  exact fun hidle ↦ hidle

/-- A step with an accepted connection counts it, and no other step does. -/
theorem accepted_step {i : SysInput} {out : SysOutput}
    (h : (forgeMachine cfg cap).step s i = some (out, s')) :
    s'.accepted = s.accepted + if i.accepts then 1 else 0 := by
  cases sys_cases h with
  | idle i hpc pc hpc' =>
    have hi : ¬ (SysInput.master i).accepts := fun hi ↦ not_idle_of_accepts hi h hpc'
    rw [if_neg hi]
    rfl
  | signal | accepted | unopened | queued | rejected | closed | datagram | recv | worker | exit =>
    rfl

/-- The connection in front of `forge_send_fd` is the last one accepted, and the worker it is
directed to is the one whose turn it is. -/
theorem offer_inHand {rest target n : ℕ} {cfd : ℤ} {id : ConnId} (h : s.InHand cfg)
    (hn : s.accepted = n + s.pc.pending) (hpc : s.pc = .dispatching rest cfd target)
    (hcfd : s.clients cfd = some id) :
    some (id, target) = some (n, n % cfg.workerCount) ∧ s.accepted = n + 1 := by
  obtain ⟨hacc, rfl, -⟩ := inHand_client h hpc hcfd
  rw [hpc] at hn
  obtain rfl : id = n := Nat.succ.inj (hacc.symm.trans hn)
  exact ⟨rfl, hacc⟩

/-- **What a step offers** when `n` connections were offered before it: nothing, or the connection
with the number `n` to the worker whose turn it is. -/
theorem offer_step (hs : MasterInv cfg s) {n : ℕ} (hn : s.accepted = n + s.pc.pending)
    {i : SysInput} {out : SysOutput} (h : SysStep cfg cap s i out s') :
    out.offer? = none ∧ s'.accepted = n + s'.pc.pending ∨
      out.offer? = some (n, n % cfg.workerCount) ∧ s'.accepted = n + 1 + s'.pc.pending := by
  cases h with
  | signal | datagram | recv | worker | exit => exact .inl ⟨rfl, hn⟩
  | idle i hpc pc hpc' =>
    rw [hpc.pending] at hn
    refine .inl ⟨rfl, ?_⟩
    show s.accepted = n + pc.pending
    rw [hpc'.pending, hn]
  | accepted rest hpc cfd hcfd =>
    rw [hpc] at hn
    exact .inl ⟨rfl, congrArg Nat.succ hn⟩
  | unopened rest cfd target hpc hcfd fails =>
    -- the descriptor in front of `forge_send_fd` is open
    obtain ⟨id, -, -, hclients, -⟩ := inHand_dispatching hs.inHand hpc
    rw [hclients, Function.update_self] at hcfd
    exact absurd hcfd (by simp)
  | queued rest cfd target hpc id hcfd htakes =>
    obtain ⟨hout, hacc⟩ := offer_inHand hs.inHand hn hpc hcfd
    exact .inr ⟨hout, hacc⟩
  | rejected rest cfd target hpc id hcfd fails htakes =>
    obtain ⟨hout, hacc⟩ := offer_inHand hs.inHand hn hpc hcfd
    exact .inr ⟨hout, hacc⟩
  | closed rest cfd hpc =>
    rw [hpc] at hn
    exact .inl ⟨rfl, hn⟩

/-! ### Every run -/

/-- The first `n` connections, each with the worker whose turn it is. -/
def turns (cfg : ForgeCfg) (n : ℕ) : List (ConnId × ℕ) :=
  (List.range n).map fun k ↦ (k, k % cfg.workerCount)

theorem turns_succ (cfg : ForgeCfg) (n : ℕ) :
    turns cfg (n + 1) = turns cfg n ++ [(n, n % cfg.workerCount)] := by
  rw [turns, List.range_succ, List.map_append]
  rfl

/-- What a run with these inputs and outputs has come to when it ends in `s`. -/
structure InTurn (cfg : ForgeCfg) (is : List SysInput) (outs : List SysOutput) (s : System) :
    Prop where
  inv : MasterInv cfg s
  accepts : is.countP SysInput.accepts = s.accepted
  offers : ∃ n, s.accepted = n + s.pc.pending ∧ offers outs = turns cfg n

theorem InTurn.step {is : List SysInput} {outs : List SysOutput} (hs : InTurn cfg is outs s)
    {i : SysInput} {out : SysOutput} (h : (forgeMachine cfg cap).step s i = some (out, s')) :
    InTurn cfg (is ++ [i]) (outs ++ [out]) s' where
  inv := masterInv_step hs.inv (sys_cases h)
  accepts := by
    rw [List.countP_append, hs.accepts, List.countP_singleton, accepted_step h]
  offers := by
    obtain ⟨n, hn, hoffers⟩ := hs.offers
    rcases offer_step hs.inv hn (sys_cases h) with ⟨hout, hn'⟩ | ⟨hout, hn'⟩
    · refine ⟨n, hn', ?_⟩
      rw [offers_append, hout, hoffers, Option.toList_none, List.append_nil]
    · refine ⟨n + 1, hn', ?_⟩
      rw [offers_append, hout, hoffers, turns_succ, Option.toList_some]

/-- **What a run offers**: the accepted connections in order, but for one that is about to be
offered, each to the worker whose turn it is. -/
theorem offers_eq {fds : List ℤ} {is : List SysInput} {outs : List SysOutput}
    (hrun : (forgeMachine cfg cap).run (.start cfg fds) is = some (outs, s)) :
    ∃ n, is.countP SysInput.accepts = n + s.pc.pending ∧ offers outs = turns cfg n := by
  have hs : InTurn cfg is outs s :=
    run_history ⟨.start cfg fds, rfl, 0, rfl, rfl⟩ (fun _ _ _ _ _ _ h hstep ↦ h.step hstep) hrun
  obtain ⟨n, hn, hoffers⟩ := hs.offers
  exact ⟨n, hs.accepts.trans hn, hoffers⟩

/-- What has been offered at any earlier point is a beginning of the turns. -/
theorem offers_prefix {outs outs' : List SysOutput} {n : ℕ} (h : outs' <+: outs)
    (houts : offers outs = turns cfg n) : ∃ m, offers outs' = turns cfg m := by
  have hpre : offers outs' <+: turns cfg n := houts ▸ h.filterMap _
  have htake := List.prefix_iff_eq_take.1 hpre
  refine ⟨min (offers outs').length n, htake.trans ?_⟩
  rw [turns, turns, ← List.map_take, List.take_range]

/-- Of the first `m` connections, those with the number of a worker as their residue go to it. -/
theorem directedTo_eq {outs : List SysOutput} {m i : ℕ} (houts : offers outs = turns cfg m)
    (hi : i < cfg.workerCount) : directedTo i outs = m.count (· ≡ i [MOD cfg.workerCount]) := by
  have hworkers : (offers outs).map Prod.snd = (List.range m).map (· % cfg.workerCount) := by
    rw [houts, turns, List.map_map]
    rfl
  rw [directedTo, hworkers, List.count, List.countP_map, Nat.count]
  refine List.countP_congr fun k _ ↦ ?_
  simp [Nat.ModEq, Nat.mod_eq_of_lt hi]

/-- **The round robin is fair**: the `k`-th connection that was accepted, counting from 0, is sent
to worker `k % workers`, so at every point of a run the numbers of connections that were directed to
two workers differ by at most one. -/
theorem round_robin_fair (cfg : ForgeCfg) (cap : ℕ) (fds : List ℤ) (hw : 1 ≤ cfg.workers)
    {is : List SysInput} {outs : List SysOutput}
    (hrun : (forgeMachine cfg cap).run (.start cfg fds) is = some (outs, s)) :
    (∃ n, is.countP SysInput.accepts = n + s.pc.pending ∧
        offers outs = (List.range n).map fun k ↦ (k, k % cfg.workerCount)) ∧
      ∀ outs', outs' <+: outs → ∀ i < cfg.workerCount, ∀ j < cfg.workerCount,
        directedTo i outs' ≤ directedTo j outs' + 1 := by
  obtain ⟨n, hn, hoffers⟩ := offers_eq hrun
  refine ⟨⟨n, hn, hoffers⟩, fun outs' hpre i hi j hj ↦ ?_⟩
  obtain ⟨m, hm⟩ := offers_prefix hpre hoffers
  have hcount : 0 < cfg.workerCount := by
    rw [ForgeCfg.workerCount]
    omega
  rw [directedTo_eq hm hi, directedTo_eq hm hj]
  exact count_modEq_le hcount i j m

/-- Two connections in one batch: the first is closed because its worker has exited, then `accept4`
is interrupted, and the second goes to the next worker. -/
theorem round_robin_fair_two :
    ∃ outs s, (forgeMachine {} 10).run (.start {} [3, 4])
        [.exit 0, .master (.epollWait (.events 1)), .master (.accept4 (.client 9)),
          .master (.sendFd false), .master .close, .master (.accept4 .interrupted),
          .master (.accept4 (.client 9)), .master (.sendFd false), .master .close] =
          some (outs, s) ∧
      (∃ n, [SysInput.exit 0, .master (.epollWait (.events 1)), .master (.accept4 (.client 9)),
            .master (.sendFd false), .master .close, .master (.accept4 .interrupted),
            .master (.accept4 (.client 9)), .master (.sendFd false),
            .master .close].countP SysInput.accepts = n + s.pc.pending ∧
          offers outs = (List.range n).map fun k ↦ (k, k % ({} : ForgeCfg).workerCount)) ∧
      ∀ outs', outs' <+: outs → ∀ i < ({} : ForgeCfg).workerCount,
        ∀ j < ({} : ForgeCfg).workerCount, directedTo i outs' ≤ directedTo j outs' + 1 := by
  have hrun : ∃ outs s, (forgeMachine {} 10).run (.start {} [3, 4])
      [.exit 0, .master (.epollWait (.events 1)), .master (.accept4 (.client 9)),
        .master (.sendFd false), .master .close, .master (.accept4 .interrupted),
        .master (.accept4 (.client 9)), .master (.sendFd false), .master .close] =
        some (outs, s) := ⟨_, _, rfl⟩
  obtain ⟨outs, s, hrun⟩ := hrun
  exact ⟨outs, s, hrun, round_robin_fair {} 10 [3, 4] (by decide) hrun⟩

end ForgeServer
