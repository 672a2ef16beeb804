import ForgeServer.Master.RoundRobin
import ForgeServer.Master.Startup

/-!
# The end of the master

Behind its loop `forge_master_run` closes what it has opened: the ends `pipes[i][0]`, its epoll
instance and the listening socket, in this order. `master_releases` says that this is all of it, and
that nothing is closed twice: whatever happened during the start-up and in the loop, the descriptors
that are left open are those that `main` was started with.

The two halves are the start-up, which has to leave each of these descriptors open under a number of
its own (`Startup.Opened`, the counterpart of `HoldsEnds` for what is no end of a pair), and the
loop, which leaves no client's descriptor behind (`inHand_of_idle`).
-/

namespace ForgeServer

open Function Machine

variable {cfg : ForgeCfg}

/-! ### Closing -/

/-- `close`; `none` when the number is not open. -/
def FdTable.close (t : FdTable) (fd : ℤ) : Option FdTable := (t fd).map fun _ ↦ update t fd none

/-- `close` for each of some numbers. -/
def FdTable.closeAll : FdTable → List ℤ → Option FdTable
  | t, [] => some t
  | t, fd :: fds => (t.close fd).bind fun t ↦ t.closeAll fds

/-- Numbers that are open, each named once, can be closed one after the other. -/
theorem FdTable.closeAll_eq {t : FdTable} {fds : List ℤ} (hnodup : fds.Nodup)
    (hopen : ∀ fd ∈ fds, t fd ≠ none) :
    t.closeAll fds = some fun fd ↦ if fd ∈ fds then none else t fd := by
  induction fds generalizing t with
  | nil => simp [closeAll]
  | cons fd fds ih =>
    obtain ⟨hfd, hnodup⟩ := List.nodup_cons.1 hnodup
    obtain ⟨hfirst, hrest⟩ := List.forall_mem_cons.1 hopen
    obtain ⟨r, hr⟩ := Option.ne_none_iff_exists'.1 hfirst
    have hstill : ∀ fd' ∈ fds, update t fd none fd' ≠ none := fun fd' hfd' ↦ by
      rw [update_of_ne (ne_of_mem_of_not_mem hfd' hfd)]
      exact hrest fd' hfd'
    rw [closeAll, close, hr, Option.map_some, Option.bind_some, ih hnodup hstill]
    refine congrArg some (funext fun fd' ↦ ?_)
    by_cases heq : fd' = fd
    · rw [heq, update_self, ite_self, if_pos List.mem_cons_self]
    · simp only [List.mem_cons, heq, false_or, update_of_ne heq]

theorem FdTable.closeAll_append (t : FdTable) (fds fds' : List ℤ) :
    t.closeAll (fds ++ fds') = (t.closeAll fds).bind fun t ↦ t.closeAll fds' := by
  induction fds generalizing t with
  | nil => rfl
  | cons fd fds ih =>
    rw [List.cons_append, closeAll, closeAll, Option.bind_assoc]
    exact congrArg _ (funext ih)

/-- The end of `forge_master_run`, behind its loop. -/
def tearDown (cfg : ForgeCfg) (pipes : ℕ → ℤ × ℤ) (ep : ℤ) (t : FdTable) : Option FdTable := do
  let t ← t.closeAll ((List.range cfg.workers.toNat).map fun i ↦ (pipes i).1)
  let t ← t.close ep
  t.close cfg.listenFd

/-- The numbers it closes, in their order. -/
def closing (cfg : ForgeCfg) (pipes : ℕ → ℤ × ℤ) (ep : ℤ) : List ℤ :=
  (List.range cfg.workers.toNat).map (fun i ↦ (pipes i).1) ++ [ep, cfg.listenFd]

theorem mem_closing {pipes : ℕ → ℤ × ℤ} {ep fd : ℤ} : fd ∈ closing cfg pipes ep ↔
    (∃ i < cfg.workers.toNat, (pipes i).1 = fd) ∨ fd = ep ∨ fd = cfg.listenFd := by
  simp only [closing, List.mem_append, List.mem_map, List.mem_range, List.mem_cons,
    List.not_mem_nil, or_false]

theorem tearDown_eq_closeAll (cfg : ForgeCfg) (pipes : ℕ → ℤ × ℤ) (ep : ℤ) (t : FdTable) :
    tearDown cfg pipes ep t = t.closeAll (closing cfg pipes ep) := by
  rw [closing, FdTable.closeAll_append]
  simp only [tearDown, FdTable.closeAll, Option.bind_eq_bind, Option.bind_fun_some]

/-- The descriptor table of the master in its loop: what the start-up has left, and its clients. -/
def System.masterTable (s : System) (t : FdTable) : FdTable := fun fd ↦
  if (s.clients fd).isSome then some .other else t fd

/-! ### What the start-up opens besides the pairs -/

/-- The master's epoll instance is open. -/
def StartPc.Polled (pc : StartPc) : Prop := pc = .epollCtl ∨ pc = .serving

/-- The descriptors of the master that are no ends: the listening socket, those that `main` was
started with, and the epoll instance once it was created. -/
structure Startup.Opened (cfg : ForgeCfg) (fds : List ℤ) (is : List StartInput) (s : Startup) :
    Prop where
  listen : ∀ fd, s.table fd = some .listen ↔ fd = cfg.listenFd
  other : ∀ fd, s.table fd = some .other ↔
    (fd ∈ fds ∧ fd ≠ cfg.listenFd) ∨ .epollCreate (some fd) ∈ is
  new : ∀ ep, .epollCreate (some ep) ∈ is → ¬ (ep ∈ fds ∧ ep ≠ cfg.listenFd)
  polled : s.pc.Polled → ∃ ep, ∀ ep', .epollCreate (some ep') ∈ is ↔ ep' = ep
  unpolled : ¬ s.pc.Polled → ∀ ep, .epollCreate (some ep) ∉ is

variable {fds : List ℤ} {s s' : Startup} {is : List StartInput} {i : StartInput}
  {out : Option Caller}

theorem Startup.Opened.start (cfg : ForgeCfg) (fds : List ℤ) :
    (Startup.start cfg fds).Opened cfg fds [] where
  listen fd := by
    simp only [Startup.start]
    split_ifs <;> simp_all
  other fd := by
    simp only [Startup.start, List.not_mem_nil, or_false]
    split_ifs <;> simp_all
  new ep h := absurd h List.not_mem_nil
  polled h := absurd h (by simp [Startup.start, StartPc.Polled])
  unpolled _ ep := List.not_mem_nil

/-- What an input keeps that has nothing to do with the epoll instance. -/
theorem Startup.Opened.keep (h : s.Opened cfg fds is) (hi : ∀ ep, i ≠ .epollCreate (some ep))
    (htable : ∀ fd r, ¬ r.IsEnd → (s'.table fd = some r ↔ s.table fd = some r))
    (hpc : s'.pc.Polled ↔ s.pc.Polled) : s'.Opened cfg fds (is ++ [i]) := by
  have hmem : ∀ ep, .epollCreate (some ep) ∈ is ++ [i] ↔ .epollCreate (some ep) ∈ is := fun ep ↦ by
    rw [List.mem_append, List.mem_singleton, or_iff_left (Ne.symm (hi ep))]
  refine ⟨fun fd ↦ ?_, fun fd ↦ ?_, ?_, ?_, ?_⟩
  · rw [htable fd .listen id, h.listen]
  · rw [htable fd .other id, h.other, hmem]
  · simpa only [hmem] using h.new
  · simpa only [hmem, hpc] using h.polled
  · simpa only [hmem, hpc] using h.unpolled

/-- A number that is given to an end of a pair, or taken from one. -/
theorem eq_some_update_iff {t : FdTable} {fd : ℤ} {r' : Option FdRef}
    (ht : ∀ r, t fd = some r → r.IsEnd) (hr' : ∀ r, r' = some r → r.IsEnd) (fd' : ℤ) (r : FdRef)
    (hr : ¬ r.IsEnd) : update t fd r' fd' = some r ↔ t fd' = some r := by
  rw [update_apply]
  split
  · rename_i heq
    exact iff_of_false (fun h ↦ hr (hr' r h)) fun h ↦ hr (ht r (heq ▸ h))
  · exact Iff.rfl

theorem polled_loopAt (cfg : ForgeCfg) (n : ℕ) : ¬ (Startup.loopAt cfg n).Polled := by
  unfold Startup.loopAt
  split <;> simp [StartPc.Polled]

/-- **Every step keeps it**, until the master dies. -/
theorem opened_step (hinv : s.Inv cfg is) (hs : s.pc ≠ .died → s.Opened cfg fds is)
    (h : (startMachine cfg).step s i = some (out, s')) (hpc' : s'.pc ≠ .died) :
    s'.Opened cfg fds (is ++ [i]) := by
  have hsame : ∀ fd r, ¬ r.IsEnd → (s.table fd = some r ↔ s.table fd = some r) :=
    fun _ _ _ ↦ Iff.rfl
  cases start_cases h with
  | died => exact absurd rfl hpc'
  | allocated hpc =>
    refine (hs (by simp [hpc])).keep (by simp) hsame ?_
    exact iff_of_false (polled_loopAt cfg 0) (by simp [hpc, StartPc.Polled])
  | paired n hpc a b ha hb hab =>
    refine (hs (by simp [hpc])).keep (by simp) (fun fd r hr ↦ ?_) ?_
    · have hb' : update s.table a (some (.masterEnd n)) b = none := by
        rw [update_of_ne hab.symm, hb]
      -- both numbers were free, and are given to ends
      have hends : ∀ {fd' : ℤ} {t : FdTable} (e : FdRef), e.IsEnd → t fd' = none →
          (update t fd' (some e) fd = some r ↔ t fd = some r) := fun e he hfree ↦
        eq_some_update_iff (fun r h ↦ absurd (hfree.symm.trans h) (by simp))
          (fun r h ↦ Option.some.inj h ▸ he) fd r hr
      exact (hends (.workerEnd n) trivial hb').trans (hends (.masterEnd n) trivial ha)
    · exact iff_of_false (by simp [Startup.pair, StartPc.Polled]) (by simp [hpc, StartPc.Polled])
  | forked n hpc =>
    obtain ⟨rfl, -, hholds⟩ := (hpc ▸ hinv.pc).of_fork
    have hworker : s.table (s.pipes (forks is)).2 = some (.workerEnd (forks is)) :=
      (hholds.workerEnd _ _).2 ⟨rfl, rfl⟩
    refine (hs (by simp [hpc])).keep (by simp) (fun fd r hr ↦ ?_) ?_
    · exact eq_some_update_iff (fun r h ↦ Option.some.inj (hworker.symm.trans h) ▸ trivial)
        (fun r h ↦ absurd h (by simp)) fd r hr
    · exact iff_of_false (polled_loopAt cfg _) (by simp [hpc, StartPc.Polled])
  | polled hpc ep hep =>
    have hs := hs (by simp [hpc])
    have hnone := hs.unpolled (by simp [hpc, StartPc.Polled])
    have hmem : ∀ ep', .epollCreate (some ep') ∈ is ++ [.epollCreate (some ep)] ↔ ep' = ep := by
      intro ep'
      rw [List.mem_append, or_iff_right (hnone ep'), List.mem_singleton,
        StartInput.epollCreate.injEq, Option.some.injEq]
    -- the number was not open
    have hlisten : ep ≠ cfg.listenFd := fun heq ↦ by
      rw [(hs.listen ep).2 heq] at hep
      exact absurd hep (by simp)
    have hnew : ¬ (ep ∈ fds ∧ ep ≠ cfg.listenFd) := fun h ↦ by
      rw [(hs.other ep).2 (.inl h)] at hep
      exact absurd hep (by simp)
    refine ⟨fun fd ↦ ?_, fun fd ↦ ?_, fun ep' h ↦ (hmem ep').1 h ▸ hnew, fun _ ↦ ⟨ep, hmem⟩,
      fun h ↦ absurd (.inl rfl) h⟩
    · show update s.table ep (some .other) fd = some .listen ↔ _
      rw [update_apply]
      split
      · rename_i heq
        exact iff_of_false (by simp) (heq ▸ hlisten)
      · exact hs.listen fd
    · show update s.table ep (some .other) fd = some .other ↔ _
      rw [update_apply, hmem]
      split
      · rename_i heq
        exact iff_of_true rfl (.inr heq)
      · rename_i hne
        rw [hs.other, or_iff_left (hnone fd), or_iff_left hne]
  | serving hpc =>
    refine (hs (by simp [hpc])).keep (by simp) hsame ?_
    exact iff_of_true (.inr rfl) (.inl hpc)
  | setUp | setUpFailed | ended =>
    exact (hs hpc').keep (by simp) hsame Iff.rfl

/-- What is open in front of the accept loop. -/
theorem opened_run {outs : List (Option Caller)}
    (hrun : (startMachine cfg).run (.start cfg fds) is = some (outs, s)) (hpc : s.pc = .serving) :
    s.Inv cfg is ∧ s.Opened cfg fds is := by
  have hboth : s.Inv cfg is ∧ (s.pc ≠ .died → s.Opened cfg fds is) :=
    run_history (P := fun is _ s ↦ s.Inv cfg is ∧ (s.pc ≠ .died → s.Opened cfg fds is))
      ⟨.start cfg fds, fun _ ↦ .start cfg fds⟩
      (fun _ _ _ _ _ _ hs h ↦ ⟨inv_start_step hs.1 h, opened_step hs.1 hs.2 h⟩) hrun
  exact ⟨hboth.1, hboth.2 (by simp [hpc])⟩

/-! ### The end -/

/-- What the numbers refer to that are closed at the end. -/
theorem map_closing (hends : HoldsEnds s.table s.pipes cfg.workers.toNat none)
    (hopened : s.Opened cfg fds is) {ep : ℤ} (hep : .epollCreate (some ep) ∈ is) :
    (closing cfg s.pipes ep).map s.table =
      (List.range cfg.workers.toNat).map (fun i ↦ some (.masterEnd i)) ++
        [some .other, some .listen] := by
  rw [closing, List.map_append, List.map_map]
  refine congrArg₂ _ (List.map_congr_left fun i hi ↦ ?_) ?_
  · exact (hends.masterEnd _ i).2 ⟨List.mem_range.1 hi, rfl⟩
  · rw [List.map_cons, List.map_singleton, (hopened.other ep).2 (.inr hep),
      (hopened.listen _).2 rfl]

/-- Whatever is open in the loop is closed at the end, or is what `main` was started with. -/
theorem closing_or_main (hends : HoldsEnds s.table s.pipes cfg.workers.toNat none)
    (hopened : s.Opened cfg fds is) {ep : ℤ} (hep : ∀ ep', .epollCreate (some ep') ∈ is ↔ ep' = ep)
    {fd : ℤ} {r : FdRef} (hr : s.table fd = some r) :
    fd ∈ closing cfg s.pipes ep ∨ r = .other ∧ fd ∈ fds := by
  cases r with
  | listen =>
    rw [(hopened.listen fd).1 hr]
    exact .inl (List.mem_append_right _ (by simp))
  | masterEnd i =>
    obtain ⟨hi, rfl⟩ := (hends.masterEnd fd i).1 hr
    exact .inl (List.mem_append_left _ (List.mem_map_of_mem (List.mem_range.2 hi)))
  | workerEnd i => exact absurd ((hends.workerEnd fd i).1 hr).1 (by simp)
  | other =>
    rcases (hopened.other fd).1 hr with hfd | hfd
    · exact .inr ⟨rfl, hfd.1⟩
    · rw [(hep fd).1 hfd]
      exact .inl (List.mem_append_right _ List.mem_cons_self)

/-- **The tear-down closes what the start-up has opened**, and nothing twice. -/
theorem tearDown_eq (hs : s.Inv cfg is) (hopened : s.Opened cfg fds is) (hpc : s.pc = .serving) :
    ∃ ep, .epollCreate (some ep) ∈ is ∧ tearDown cfg s.pipes ep s.table =
      some (update (Startup.start cfg fds).table cfg.listenFd none) := by
  obtain ⟨hforks, hends⟩ := hs.pc.of_loopEnded (.inr (.inr hpc))
  rw [hforks] at hends
  obtain ⟨ep, hep⟩ := hopened.polled (.inr hpc)
  have hmap := map_closing hends hopened ((hep ep).2 rfl)
  have hend : ∀ i < cfg.workers.toNat, s.table (s.pipes i).1 = some (.masterEnd i) := fun i hi ↦
    (hends.masterEnd _ i).2 ⟨hi, rfl⟩
  have hnodup : (closing cfg s.pipes ep).Nodup := by
    refine List.Nodup.of_map s.table (hmap ▸ List.nodup_append'.2 ⟨?_, by simp, by simp⟩)
    exact List.nodup_range.map fun i j h ↦ FdRef.masterEnd.inj (Option.some.inj h)
  have hopen : ∀ fd ∈ closing cfg s.pipes ep, s.table fd ≠ none := by
    intro fd hfd
    rcases mem_closing.1 hfd with ⟨i, hi, rfl⟩ | rfl | rfl
    · simp [hend i hi]
    · simp [(hopened.other fd).2 (.inr ((hep fd).2 rfl))]
    · simp [hs.listen]
  refine ⟨ep, (hep ep).2 rfl, ?_⟩
  rw [tearDown_eq_closeAll, FdTable.closeAll_eq hnodup hopen]
  refine congrArg some (funext fun fd ↦ ?_)
  rcases eq_or_ne fd cfg.listenFd with rfl | hlisten
  · rw [update_self, if_pos (mem_closing.2 (.inr (.inr rfl)))]
  rw [update_of_ne hlisten, show (Startup.start cfg fds).table fd = _ from if_neg hlisten]
  by_cases hfd : fd ∈ closing cfg s.pipes ep
  · -- what is closed is none of the numbers of `main`
    rw [if_pos hfd, if_neg fun hmain ↦ ?_]
    rcases mem_closing.1 hfd with ⟨i, hi, rfl⟩ | rfl | h
    · have hother := (hopened.other _).2 (.inl ⟨hmain, hlisten⟩)
      rw [hend i hi] at hother
      exact absurd hother (by simp)
    · exact hopened.new fd ((hep fd).2 rfl) ⟨hmain, hlisten⟩
    · exact hlisten h
  · rw [if_neg hfd]
    rcases htable : s.table fd with - | r
    · rw [if_neg fun hmain ↦ ?_]
      rw [(hopened.other fd).2 (.inl ⟨hmain, hlisten⟩)] at htable
      exact absurd htable (by simp)
    · obtain ⟨rfl, hmain⟩ := (closing_or_main hends hopened hep htable).resolve_left hfd
      rw [if_pos hmain]

/-- **The master releases what it has opened.** In every run of the start-up that comes to the
accept loop, and every run of the server from there in which the master leaves its loop, whatever
made it leave, the closes at the end of `forge_master_run` all succeed, and the descriptors that
are open then are those that `main` was started with. -/
theorem master_releases (cfg : ForgeCfg) (fds : List ℤ) (is : List StartInput)
    (outs : List (Option Caller)) (s : Startup)
    (hrun : (startMachine cfg).run (.start cfg fds) is = some (outs, s)) (hpc : s.pc = .serving)
    (cap : ℕ) (fds' : List ℤ) (js : List SysInput) (outs' : List SysOutput) (sys : System)
    (hrun' : (forgeMachine cfg cap).run (.start cfg fds') js = some (outs', sys))
    (hstopped : sys.pc = .stopped) :
    ∃ ep, .epollCreate (some ep) ∈ is ∧ tearDown cfg s.pipes ep (sys.masterTable s.table) =
      some (update (Startup.start cfg fds).table cfg.listenFd none) := by
  obtain ⟨hs, hopened⟩ := opened_run hrun hpc
  have hclients : sys.clients = fun _ ↦ none :=
    (inHand_of_idle (by rw [hstopped]; trivial)).1 (reachable_masterInv ⟨js, outs', hrun'⟩).inHand
  have htable : sys.masterTable s.table = s.table := by
    funext fd
    rw [System.masterTable, hclients]
    rfl
  rw [htable]
  exact tearDown_eq hs hopened hpc

/-- Two workers, and a master that leaves its loop because `epoll_wait` fails. -/
theorem master_releases_two :
    ∃ outs s outs' sys, (startMachine (forgeCfg 2)).run (.start (forgeCfg 2) [0, 1, 2])
        [.calloc true, .socketpair (some (4, 5)), .fork true, .socketpair (some (5, 6)),
          .fork true, .epollCreate (some 6), .epollCtl true] = some (outs, s) ∧
      (forgeMachine (forgeCfg 2) 10).run (.start (forgeCfg 2) [3, 4])
        [.master (.epollWait .failed)] = some (outs', sys) ∧
      ∃ t, tearDown (forgeCfg 2) s.pipes 6 (sys.masterTable s.table) = some t ∧
        t 0 = some .other ∧ t (forgeCfg 2).listenFd = none ∧ t 4 = none ∧ t 5 = none ∧
          t 6 = none := by
  refine ⟨_, _, _, _, rfl, rfl, ?_⟩
  obtain ⟨ep, hep, hdown⟩ := master_releases (forgeCfg 2) [0, 1, 2]
    [.calloc true, .socketpair (some (4, 5)), .fork true, .socketpair (some (5, 6)), .fork true,
      .epollCreate (some 6), .epollCtl true] _ _ rfl rfl 10 [3, 4] [.master (.epollWait .failed)]
    _ _ rfl rfl
  obtain rfl : ep = 6 := by simpa using hep
  exact ⟨_, hdown, by decide, by decide, by decide, by decide, by decide⟩

end ForgeServer
