import ForgeServer.Master.Fairness
import ForgeServer.Master.Lifecycle

/-!
# A worker that has exited

The master reaps a worker that has exited and does nothing else about it: no worker is forked in its
place, and its turns in the round robin come round as before. `exited_worker_share` says what that
costs, from the exit to the end of any run: the connections whose number has the worker as its
residue are offered to it and to no other, every offer fails, and of `k` connections that are
offered at least `k / workers` are lost this way.

It rests on `exited_step`, the step from a state in which the worker has exited, and on `offers_eq`
for the count.
-/

namespace ForgeServer

open Function Machine

variable {cfg : ForgeCfg} {cap : ℕ} {s s' : System} {n : ℕ} {i : SysInput} {out : SysOutput}

/-- **A step after the exit of worker `n`**: it stays away, nothing is done for a connection that is
due to it, and what is offered to it is refused. -/
theorem exited_step (hs : s.Inv cfg) (hn : (s.link n).loop = none)
    (h : SysStep cfg cap s i out s') :
    (s'.link n).loop = none ∧ (∀ id, id % cfg.workerCount = n → out.turn? id = none) ∧
      ∀ id rc, out = .offered id n rc → rc = -1 := by
  have hother : ∀ {m : ℕ} {l : Link}, m ≠ n → ((s.setLink m l).link n).loop = none :=
    fun {m l} hm ↦ by rw [setLink_link, update_of_ne (Ne.symm hm), hn]
  have hmoves : ∀ {m : ℕ} {st : LoopState}, (s.link m).loop = some st → m ≠ n := by
    rintro m st hloop rfl
    exact absurd (hn.symm.trans hloop) (by simp)
  have hturn : ∀ {m : ℕ}, i.on? = some m → m ≠ n →
      ∀ id, id % cfg.workerCount = n → out.turn? id = none := by
    rintro m hm hne id rfl
    exact (without_step hs h hm (without_other hs hne)).2.1
  cases h with
  | signal | idle | accepted | unopened | closed => exact ⟨hn, fun _ _ ↦ rfl, by simp⟩
  | rejected rest cfd target hpc id hcfd =>
    refine ⟨hn, fun _ _ ↦ rfl, fun id' rc heq ↦ ?_⟩
    exact (SysOutput.offered.inj heq).2.2.symm
  | queued rest cfd target hpc id hcfd htakes =>
    -- a worker that has exited takes nothing, so the target is another one
    have hne : target ≠ n := fun heq ↦ by
      have hloop := htakes.1
      rw [heq, hn] at hloop
      exact Bool.noConfusion hloop
    refine ⟨hother hne, fun _ _ ↦ rfl, fun id' rc heq ↦ ?_⟩
    exact absurd (SysOutput.offered.inj heq).2.1 hne
  | datagram m cmsg hill hloop =>
    obtain ⟨st, hloop⟩ := Option.isSome_iff_exists.1 hloop
    exact ⟨hother (hmoves hloop), fun _ _ ↦ rfl, by simp⟩
  | recv m r calloc added st st' hloop =>
    exact ⟨hother (hmoves hloop), hturn rfl (hmoves hloop), by simp⟩
  | worker m j hj st st' hloop =>
    exact ⟨hother (hmoves hloop), hturn rfl (hmoves hloop), by simp⟩
  | exit m =>
    refine ⟨?_, fun _ _ ↦ rfl, by simp⟩
    rcases eq_or_ne m n with rfl | hne
    · rw [setLink_link, update_self]
    · exact hother hne

/-! ### The share of a worker -/

/-- Of `k` numbers in a row each residue has at least `k / w`. -/
theorem div_le_count_modEq {w : ℕ} (hw : 0 < w) (r m k : ℕ) :
    m.count (· ≡ r [MOD w]) + k / w ≤ (m + k).count (· ≡ r [MOD w]) := by
  rw [Nat.count_modEq_card m hw, Nat.count_modEq_card (m + k) hw, Nat.add_div hw]
  by_cases hcarry : w ≤ m % w + k % w
  · rw [if_pos hcarry]
    split <;> split <;> omega
  · have hmod := Nat.add_mod_of_add_mod_lt (not_le.1 hcarry)
    rw [if_neg hcarry, hmod]
    split <;> split <;> omega

theorem offers_append_list (os os' : List SysOutput) :
    offers (os ++ os') = offers os ++ offers os' := List.filterMap_append

/-- What a worker is due in a part of a run: its share of what is offered there. -/
theorem share_le_directedTo {fds : List ℤ} {is js : List SysInput} {outs outs' : List SysOutput}
    (hrun : (forgeMachine cfg cap).run (.start cfg fds) is = some (outs, s))
    (hrun' : (forgeMachine cfg cap).run s js = some (outs', s')) (hn : n < cfg.workerCount) :
    (offers outs').length / cfg.workerCount ≤ directedTo n outs' := by
  obtain ⟨m, -, hm⟩ := offers_eq hrun
  obtain ⟨m', -, hm'⟩ := offers_eq ((run_append_eq_some _).2 ⟨outs, s, outs', hrun, hrun', rfl⟩)
  have hlen : m' = m + (offers outs').length := by
    have hall := congrArg List.length hm'
    rw [offers_append_list, List.length_append, hm] at hall
    simpa [turns] using hall.symm
  have hsum : directedTo n (outs ++ outs') = directedTo n outs + directedTo n outs' := by
    rw [directedTo, directedTo, directedTo, offers_append_list, List.map_append, List.count_append]
  rw [directedTo_eq hm' hn, directedTo_eq hm hn, hlen] at hsum
  have hshare := div_le_count_modEq (Nat.zero_lt_of_lt hn) n m (offers outs').length
  omega

/-! ### Every run -/

/-- **What the exit of a worker costs.** Once worker `n` has exited, whatever the others do, it does
not come back; nothing more is done for a connection that was due to it, whether it was accepted
before or after; every connection that is offered to it is refused; and these are at least one in
`workers` of those that are offered. -/
theorem exited_worker_share (cfg : ForgeCfg) (cap : ℕ) (fds : List ℤ) (is js : List SysInput)
    (outs outs' : List SysOutput) (s s' : System)
    (hrun : (forgeMachine cfg cap).run (.start cfg fds) is = some (outs, s)) (n : ℕ)
    (hn : n < cfg.workerCount) (hexited : (s.link n).loop = none)
    (hrun' : (forgeMachine cfg cap).run s js = some (outs', s')) :
    (s'.link n).loop = none ∧
      (∀ id, id % cfg.workerCount = n → servedTurns id outs' = []) ∧
      (∀ id rc, .offered id n rc ∈ outs' → rc = -1) ∧
      (offers outs').length / cfg.workerCount ≤ directedTo n outs' := by
  have hinv : s.Inv cfg := Reachable.invariant ⟨is, outs, hrun⟩ (.start cfg fds)
    fun _ _ _ _ hs hstep ↦ system_inv_step hs (sys_cases hstep)
  have hstep : ∀ s i o s', s.Inv cfg ∧ (s.link n).loop = none →
      (forgeMachine cfg cap).step s i = some (o, s') →
      (s'.Inv cfg ∧ (s'.link n).loop = none) ∧
        (∀ id, id % cfg.workerCount = n → o.turn? id = none) ∧
        ∀ id rc, o = .offered id n rc → rc = -1 := by
    rintro s i o s' ⟨hs, hn⟩ hstep
    have h := sys_cases hstep
    obtain ⟨hn', hout⟩ := exited_step hs hn h
    exact ⟨⟨system_inv_step hs h, hn'⟩, hout⟩
  have houts := run_output hstep ⟨hinv, hexited⟩ hrun'
  have hexited' := run_invariant (fun s i o s' hs h ↦ (hstep s i o s' hs h).1) ⟨hinv, hexited⟩ hrun'
  refine ⟨hexited'.2, fun id hid ↦ ?_, fun id rc hmem ↦ (houts _ hmem).2 id rc rfl,
    share_le_directedTo hrun hrun' hn⟩
  exact List.filterMap_eq_nil_iff.2 fun o ho ↦ (houts o ho).1 id hid

/-- Worker 0 of four exits, and then five connections are accepted. -/
theorem exited_worker_share_five :
    ∃ outs s outs' s', (forgeMachine {} 10).run (.start {} [3, 4]) [.exit 0] = some (outs, s) ∧
      (forgeMachine {} 10).run s (.master (.epollWait (.events 1)) ::
        (List.replicate 5 [SysInput.master (.accept4 (.client 9)), .master (.sendFd false),
          .master .close]).flatten) = some (outs', s') ∧
      (offers outs').length = 5 ∧ 1 ≤ directedTo 0 outs' ∧
      ∀ id rc, .offered id 0 rc ∈ outs' → rc = -1 := by
  have hrun : ∃ outs s outs' s',
      (forgeMachine {} 10).run (.start {} [3, 4]) [.exit 0] = some (outs, s) ∧
      (forgeMachine {} 10).run s (.master (.epollWait (.events 1)) ::
        (List.replicate 5 [SysInput.master (.accept4 (.client 9)), .master (.sendFd false),
          .master .close]).flatten) = some (outs', s') ∧
      (offers outs').length = 5 ∧ (s.link 0).loop = none := ⟨_, _, _, _, rfl, rfl, rfl, rfl⟩
  obtain ⟨outs, s, outs', s', hrun, hrun', hfive, hexited⟩ := hrun
  obtain ⟨-, -, hrefused, hshare⟩ := exited_worker_share {} 10 [3, 4] _ _ outs outs' s s' hrun 0
    (by decide) hexited hrun'
  rw [hfive] at hshare
  exact ⟨outs, s, outs', s', hrun, hrun', hfive, hshare, hrefused⟩

end ForgeServer
