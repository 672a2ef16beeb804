import Mathlib.Algebra.BigOperators.Group.List.Basic
import Mathlib.Algebra.Ring.Nat
import ForgeServer.Http.Static

/-!
# Sending a file

Two things `http_send_static_file` is to guarantee of its own: that it comes to an end, and that it
leaves nothing behind.

* `loop_leaves_iff` — for which infinite sequences of `sendfile` results the loop is left. It is
  read off `sendfileLoop_eq_sending_iff`, which says when finitely many results leave the loop
  running: an iteration that moves nothing changes nothing, so neither a count of zero nor `EAGAIN`
  brings the end nearer.
* `released` — the clean-up of every exit: the file is closed, and the cork is off again or the
  function returns `-1`.

`setsockopt` is taken to do what it is asked.
-/

namespace ForgeServer

open CStr

/-! ### The loop and its end -/

/-- A result of `sendfile` at which the loop is left with `-1`. -/
def IoResult.fails : IoResult → Bool
  | .count _ => false
  | .error e => !e.wouldBlock

/-- **When a list of results leaves the loop running**: none of them is a failure, and together they
move less than what remains. -/
theorem sendfileLoop_eq_sending_iff (out : ℤ) (f : File) (rs : List IoResult) (off remain : ℕ) :
    (sendfileLoop out f rs off remain).2 = .sending ↔
      (∀ r ∈ rs, r.fails = false) ∧ (rs.map IoResult.done).sum < remain := by
  induction rs generalizing off remain with
  | nil =>
    rw [sendfileLoop, List.map_nil, List.sum_nil, Nat.pos_iff_ne_zero]
    split <;> simp [*]
  | cons r rs ih =>
    rw [sendfileLoop, List.forall_mem_cons, List.map_cons, List.sum_cons]
    by_cases hzero : remain = 0
    · rw [if_pos hzero, hzero]
      simp
    rw [if_neg hzero]
    cases r with
    | count n =>
      have hsum : (rs.map IoResult.done).sum < remain - min n remain ↔
          n + (rs.map IoResult.done).sum < remain := by omega
      show (sendfileLoop out f rs _ _).2 = _ ↔ _
      rw [ih, hsum]
      exact ⟨fun h ↦ ⟨⟨rfl, h.1⟩, h.2⟩, fun h ↦ ⟨h.1.2, h.2⟩⟩
    | error e =>
      rcases he : e.wouldBlock with - | -
      · simp [IoResult.upTo, IoResult.fails, he]
      · have hdone : (IoResult.error e).done + (rs.map IoResult.done).sum =
            (rs.map IoResult.done).sum := Nat.zero_add _
        have hfails : (IoResult.error e).fails = false := by rw [IoResult.fails, he]; rfl
        simp only [IoResult.upTo, he, if_true, ih, hdone, hfails, true_and]

/-- The loop is left after finitely many of the results `rs`, for a file of `size` bytes. -/
def LoopLeaves (out : ℤ) (f : File) (size : ℕ) (rs : ℕ → IoResult) : Prop :=
  ∃ n, (sendfileLoop out f ((List.range n).map rs) 0 size).2 ≠ .sending

/-- **Exactly when sending a file ends**: one of the results is a failure, or finitely many of them
move the size the file had at `fstat`. -/
theorem loop_leaves_iff (out : ℤ) (f : File) (size : ℕ) (rs : ℕ → IoResult) :
    LoopLeaves out f size rs ↔
      (∃ i, (rs i).fails = true) ∨
        ∃ n, size ≤ ((List.range n).map fun i ↦ (rs i).done).sum := by
  have hmap : ∀ n, ((List.range n).map rs).map IoResult.done =
      (List.range n).map fun i ↦ (rs i).done := fun n ↦ List.map_map
  constructor
  · rintro ⟨n, hn⟩
    rw [ne_eq, sendfileLoop_eq_sending_iff, hmap, not_and_or, not_forall] at hn
    rcases hn with ⟨r, hr⟩ | hn
    · obtain ⟨hmem, hfails⟩ := Classical.not_imp.1 hr
      obtain ⟨i, -, rfl⟩ := List.mem_map.1 hmem
      exact .inl ⟨i, Bool.not_eq_false _ ▸ hfails⟩
    · exact .inr ⟨n, not_lt.1 hn⟩
  · rintro (⟨i, hi⟩ | ⟨n, hn⟩)
    · refine ⟨i + 1, fun h ↦ ?_⟩
      have hall := ((sendfileLoop_eq_sending_iff ..).1 h).1 (rs i)
        (List.mem_map_of_mem (List.mem_range.2 (Nat.lt_succ_self i)))
      rw [hi] at hall
      exact absurd hall (by simp)
    · refine ⟨n, fun h ↦ ?_⟩
      have hlt := ((sendfileLoop_eq_sending_iff ..).1 h).2
      rw [hmap] at hlt
      omega

/-- A file that had one byte and was truncated before it was sent. -/
theorem truncated_file_never_leaves : ¬ LoopLeaves 5 emptyFile 1 fun _ ↦ .count 0 := by
  rw [loop_leaves_iff]
  rintro (⟨i, hi⟩ | ⟨n, hn⟩)
  · exact absurd hi (by decide)
  · have hsum : ((List.range n).map fun _ ↦ (IoResult.count 0).done).sum = 0 :=
      List.sum_eq_zero fun x hx ↦ by
        obtain ⟨-, -, rfl⟩ := List.mem_map.1 hx
        rfl
    omega

/-! ### Failures -/

/-- A `write` that came short, or a `sendfile` that failed. -/
def Sys.fails : Sys → Bool
  | .write _ _ n res => res.lt n
  | .sendfile _ _ _ _ res _ => res.fails
  | _ => false

/-- The loop is left with `-1` at a `sendfile` that failed. -/
theorem exists_fails_of_failed {out : ℤ} {f : File} {rs : List IoResult} {off remain : ℕ}
    (h : (sendfileLoop out f rs off remain).2 = .failed) :
    ∃ x ∈ (sendfileLoop out f rs off remain).1, x.fails = true := by
  induction rs generalizing off remain with
  | nil =>
    rw [sendfileLoop] at h
    split at h <;> exact absurd h (by simp)
  | cons r rs ih =>
    rw [sendfileLoop] at h ⊢
    split at h
    · exact absurd h (by simp)
    rw [if_neg ‹_›]
    cases r with
    | count n =>
      obtain ⟨x, hx, hfails⟩ := ih h
      exact ⟨x, List.mem_cons_of_mem _ hx, hfails⟩
    | error e =>
      simp only [IoResult.upTo] at h ⊢
      rcases he : e.wouldBlock with - | -
      · refine ⟨_, List.mem_singleton_self _, ?_⟩
        rw [Sys.fails, IoResult.fails, he]
        rfl
      · rw [he, if_pos rfl] at h
        obtain ⟨x, hx, hfails⟩ := ih h
        exact ⟨x, List.mem_cons_of_mem _ hx, hfails⟩

/-- **`-1` for an opened file has a cause**: a call that failed. -/
theorem exists_fails_sendOpened {k : Kernel} {fd : ℤ} {fs : List UInt8} {f : File} {st : Stat}
    {keepAlive : Bool} (h : (sendOpened k fd fs f st keepAlive).rc = some (-1)) :
    ∃ x ∈ (sendOpened k fd fs f st keepAlive).calls, x.fails = true := by
  unfold sendOpened at h ⊢
  dsimp only at h ⊢
  split at h
  · -- the header was written short
    rename_i hshort
    rw [if_pos hshort]
    exact ⟨_, List.mem_cons_of_mem _ List.mem_cons_self, hshort⟩
  · rw [if_neg ‹_›]
    rcases hloop : sendfileLoop fd f k.sendfile 0 st.size with ⟨body, exit⟩
    rw [hloop] at h
    cases exit with
    | failed =>
      have hex := exists_fails_of_failed (congrArg Prod.snd hloop)
      rw [hloop] at hex
      obtain ⟨x, hx, hfails⟩ := hex
      exact ⟨x, List.mem_append_left _ (List.mem_append_right _ hx), hfails⟩
    | done => exact absurd h (by simp)
    | sending => exact absurd h (by simp)

/-! ### The clean-up -/

/-- The descriptors a list of system calls closes. -/
def closedFds (calls : List Sys) : List ℤ :=
  calls.filterMap fun
    | .close fd => some fd
    | _ => none

@[simp] theorem closedFds_append (xs ys : List Sys) :
    closedFds (xs ++ ys) = closedFds xs ++ closedFds ys :=
  List.filterMap_append

/-- `TCP_CORK` of a socket after a system call. -/
def Sys.corks (sock : ℤ) (corked : Bool) : Sys → Bool
  | .cork fd v => if fd = sock then v else corked
  | _ => corked

/-- `TCP_CORK` of a socket after a list of system calls. -/
def corkAfter (sock : ℤ) (corked : Bool) (calls : List Sys) : Bool :=
  calls.foldl (Sys.corks sock) corked

@[simp] theorem corkAfter_append (sock : ℤ) (corked : Bool) (xs ys : List Sys) :
    corkAfter sock corked (xs ++ ys) = corkAfter sock (corkAfter sock corked xs) ys :=
  List.foldl_append

/-- **What is released when `http_send_static_file` returns**: the files that were opened, at most
one, are closed, and nothing else is; the cork is off after `0`, and on only after `-1`. -/
structure Released (fd : ℤ) (calls : List Sys) (rc : ℤ) : Prop where
  closed : closedFds calls = openedFds calls
  once : (openedFds calls).length ≤ 1
  uncorked : rc = 0 → ∀ corked, corkAfter fd corked calls = false
  corked : corkAfter fd false calls = true → rc = -1

/-- The calls of the loop leave descriptors and the cork alone. -/
theorem sendfileLoop_keeps (out : ℤ) (f : File) (rs : List IoResult) (off remain : ℕ) :
    closedFds (sendfileLoop out f rs off remain).1 = [] ∧
      openedFds (sendfileLoop out f rs off remain).1 = [] ∧
      ∀ sock corked, corkAfter sock corked (sendfileLoop out f rs off remain).1 = corked := by
  induction rs generalizing off remain with
  | nil => exact ⟨rfl, rfl, fun _ _ ↦ rfl⟩
  | cons r rs ih =>
    rw [sendfileLoop]
    split
    · exact ⟨rfl, rfl, fun _ _ ↦ rfl⟩
    cases r with
    | count n => exact ih _ _
    | error e =>
      simp only [IoResult.upTo]
      split
      · exact ih _ _
      · exact ⟨rfl, rfl, fun _ _ ↦ rfl⟩

/-- The calls that answer a path which is not servable. -/
theorem notFoundCalls_keeps (openFile : List UInt8 → Option File) (docRoot urlPath : List UInt8) :
    closedFds (notFoundCalls openFile docRoot urlPath) =
        openedFds (notFoundCalls openFile docRoot urlPath) ∧
      (openedFds (notFoundCalls openFile docRoot urlPath)).length ≤ 1 ∧
      ∀ sock corked,
        corkAfter sock corked (notFoundCalls openFile docRoot urlPath) = corked := by
  unfold notFoundCalls
  split
  · exact ⟨rfl, Nat.zero_le 1, fun _ _ ↦ rfl⟩
  · split
    · exact ⟨rfl, Nat.zero_le 1, fun _ _ ↦ rfl⟩
    · exact ⟨rfl, le_rfl, fun _ _ ↦ rfl⟩

variable {k : Kernel} {fd : ℤ} {docRoot urlPath : List UInt8} {keepAlive : Bool} {rc : ℤ}

/-- The exits behind `open` and `fstat`. -/
theorem released_sendOpened {fs : List UInt8} {f : File} {st : Stat}
    (h : (sendOpened k fd fs f st keepAlive).rc = some rc) :
    Released fd ([.openFile fs (some f.fd), .fstat f.fd f.stat] ++
      (sendOpened k fd fs f st keepAlive).calls) rc := by
  obtain ⟨hclosed, hopened, hcork⟩ := sendfileLoop_keeps fd f k.sendfile 0 st.size
  unfold sendOpened at h ⊢
  dsimp only at h ⊢
  split at h
  · -- the header is cut
    obtain rfl := Option.some.inj h
    rw [if_pos ‹_›]
    exact ⟨rfl, le_rfl, fun h ↦ absurd h (by decide), fun _ ↦ rfl⟩
  · rw [if_neg ‹_›]
    rcases hloop : sendfileLoop fd f k.sendfile 0 st.size with ⟨body, exit⟩
    rw [hloop] at h hclosed hopened hcork
    cases exit with
    | done =>
      -- the only exit that takes the cork out
      obtain rfl := Option.some.inj h
      refine ⟨?_, ?_, fun _ corked ↦ ?_, fun hon ↦ ?_⟩
      · simp only [closedFds_append, openedFds_append, hclosed, hopened]
        rfl
      · simp only [openedFds_append, hopened]
        exact le_rfl
      · simp only [corkAfter_append, hcork]
        exact if_pos rfl
      · simp only [corkAfter_append, hcork] at hon
        exact absurd ((if_pos rfl : (if fd = fd then false else _) = false).symm.trans hon)
          (by simp)
    | failed =>
      obtain rfl := Option.some.inj h
      refine ⟨?_, ?_, fun h ↦ absurd h (by decide), fun _ ↦ rfl⟩
      · simp only [closedFds_append, openedFds_append, hclosed, hopened]
        rfl
      · simp only [openedFds_append, hopened]
        exact le_rfl
    | sending => exact absurd h (by simp)

/-- **`http_send_static_file` releases what it takes on every exit.** -/
theorem released (h : (httpSendStaticFile k fd docRoot urlPath keepAlive).rc = some rc) :
    Released fd (httpSendStaticFile k fd docRoot urlPath keepAlive).calls rc := by
  rcases hs : servable k.openFile docRoot urlPath with - | ⟨f, st⟩
  · obtain ⟨hclosed, honce, hcork⟩ := notFoundCalls_keeps k.openFile docRoot urlPath
    rw [httpSendStaticFile_of_not_servable fd keepAlive hs] at h ⊢
    obtain rfl := Option.some.inj h
    refine ⟨?_, ?_, fun h ↦ absurd h (by decide), fun _ ↦ rfl⟩
    · simp only [closedFds_append, openedFds_append, hclosed]
      rfl
    · simp only [openedFds_append]
      exact (List.append_nil _).symm ▸ honce
  · rw [httpSendStaticFile_of_servable hs] at h ⊢
    exact released_sendOpened h

end ForgeServer
