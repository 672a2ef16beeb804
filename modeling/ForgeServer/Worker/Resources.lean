import Mathlib.Logic.Function.Basic
import ForgeServer.Server.Connection

/-!
# What a worker holds

The resources of a worker process: the `forge_conn_t` objects on its heap, its epoll interest list,
and its descriptor table. A system call of the connection at address `a` acts on them through
`Worker.sys`, and faults (`none`) when it touches what is not its own: a descriptor that is closed
or that is the number of another connection by now, an entry that is not registered for `a`, an
object that is not allocated.

A socket that was received is given an identity, a `ConnId`, that does not change when its
descriptor number or the address of its object is used again. The code does not have it: it is what
makes "the same connection" a statement.

`exec_clientEvent` says what the calls of one `handle_read` or `conn_close` do to the resources.
-/

namespace ForgeServer

/-- Addresses of `forge_conn_t` objects. -/
abbrev Addr := ℕ

/-- The identity of an accepted connection. -/
abbrev ConnId := ℕ

/-- What a descriptor is open for: a client socket, or anything else. -/
inductive Use
  | conn (id : ConnId)
  | other
deriving DecidableEq

/-- An allocated connection. -/
structure Obj where
  id : ConnId
  conn : ForgeConn
deriving DecidableEq

/-- A registered descriptor: the pointer in `epoll_data`, and the socket it was registered for. -/
structure Entry where
  ptr : Addr
  id : ConnId
deriving DecidableEq

/-- The resources of a worker, with the connections it got from `forge_recv_fd` and those it closed,
in order. -/
structure Worker where
  heap : Addr → Option Obj
  interest : ℤ → Option Entry
  table : ℤ → Option Use
  got : List ConnId
  shut : List ConnId

open Function

/-- What is left of a map when an entry is taken out. -/
theorem update_none_eq_some {α β : Type*} [DecidableEq α] {f : α → Option β} {x y : α} {b : β} :
    update f x none y = some b ↔ y ≠ x ∧ f y = some b := by
  rw [update_apply]
  split <;> simp [*]

namespace Worker

/-- A worker in front of its event loop, with the descriptors `fds` open. -/
def start (fds : List ℤ) : Worker where
  heap _ := none
  interest _ := none
  table fd := if fd ∈ fds then some .other else none
  got := []
  shut := []

/-- `close`, by the connection `id`. -/
def closeFd (w : Worker) (id : ConnId) (fd : ℤ) : Option Worker :=
  match w.table fd with
  | none => none
  | some .other => some { w with table := update w.table fd none }
  | some (.conn id') =>
    if id' = id then some { w with table := update w.table fd none, shut := w.shut ++ [id] }
    else none

/-- `free`. -/
def free (w : Worker) (a : Addr) : Option Worker :=
  match w.heap a with
  | none => none
  | some _ => some { w with heap := update w.heap a none }

/-- The effect of a system call made for the connection `id` at address `a`; `none` is a fault. -/
def sys (a : Addr) (id : ConnId) (w : Worker) : Sys → Option Worker
  | .read fd _ _ _ => if w.table fd = some (.conn id) then some w else none
  | .write fd _ _ _ => if w.table fd = some (.conn id) then some w else none
  | .cork fd _ => if w.table fd = some (.conn id) then some w else none
  | .sendfile out file _ _ _ _ =>
    if w.table out = some (.conn id) ∧ w.table file = some .other then some w else none
  | .openFile _ none => some w
  | .openFile _ (some fd) => some { w with table := update w.table fd (some .other) }
  | .fstat fd _ => if w.table fd = some .other then some w else none
  | .close fd => w.closeFd id fd
  | .epollDel fd =>
    if w.interest fd = some ⟨a, id⟩ then some { w with interest := update w.interest fd none }
    else none
  | .free => w.free a

/-- The effect of a list of system calls. -/
def exec (a : Addr) (id : ConnId) : Worker → List Sys → Option Worker
  | w, [] => some w
  | w, x :: xs => (w.sys a id x).bind fun w' ↦ exec a id w' xs

variable {a : Addr} {id : ConnId} {w : Worker} {c : ForgeConn} {k : Kernel}

@[simp] theorem exec_nil : exec a id w [] = some w := rfl

theorem exec_append (xs ys : List Sys) :
    exec a id w (xs ++ ys) = (exec a id w xs).bind fun w' ↦ exec a id w' ys := by
  induction xs generalizing w with
  | nil => rfl
  | cons x xs ih =>
    simp only [List.cons_append, exec, Option.bind_assoc, ih]

theorem exec_append_of_exec {w' : Worker} {xs : List Sys} (h : exec a id w xs = some w')
    (ys : List Sys) : exec a id w (xs ++ ys) = exec a id w' ys := by
  rw [exec_append, h, Option.bind_some]

/-- A connection in the resources: allocated, registered and open. -/
structure Holds (w : Worker) (a : Addr) (o : Obj) : Prop where
  heap : w.heap a = some o
  interest : w.interest o.conn.fd = some ⟨a, o.id⟩
  table : w.table o.conn.fd = some (.conn o.id)
  fd_nonneg : 0 ≤ o.conn.fd

/-- The resources once the connection `o` at `a` is closed and freed. -/
def release (w : Worker) (a : Addr) (o : Obj) : Worker where
  heap := update w.heap a none
  interest := update w.interest o.conn.fd none
  table := update w.table o.conn.fd none
  got := w.got
  shut := w.shut ++ [o.id]

section Release

variable (w) (o : Obj)

@[simp] theorem release_heap : (w.release a o).heap = update w.heap a none := rfl

@[simp] theorem release_interest :
    (w.release a o).interest = update w.interest o.conn.fd none := rfl

@[simp] theorem release_table : (w.release a o).table = update w.table o.conn.fd none := rfl

@[simp] theorem release_got : (w.release a o).got = w.got := rfl

@[simp] theorem release_shut : (w.release a o).shut = w.shut ++ [o.id] := rfl

end Release

/-- `conn_close` releases the connection. -/
theorem exec_connClose {o : Obj} (h : w.Holds a o) :
    exec a o.id w (connClose o.conn) = some (w.release a o) := by
  unfold connClose
  rw [if_pos h.fd_nonneg]
  simp only [List.cons_append, List.nil_append, exec, sys, h.interest, if_true, Option.bind_some,
    closeFd, h.table, free, h.heap]
  rfl

/-! ### Calls that leave the resources as they are -/

theorem exec_read (htable : w.table c.fd = some (.conn id)) (off n : ℕ) (res : ReadResult) :
    exec a id w [.read c.fd off n res] = some w := by
  simp [exec, sys, htable]

theorem exec_write {fd : ℤ} (htable : w.table fd = some (.conn id)) (buf : List UInt8) (n : ℕ)
    (res : IoResult) : exec a id w [.write fd buf n res] = some w := by
  simp [exec, sys, htable]

theorem exec_httpSend404 {fd : ℤ} (htable : w.table fd = some (.conn id)) (keepAlive : Bool) :
    exec a id w (httpSend404 k fd keepAlive) = some w :=
  exec_write htable _ _ _

theorem exec_httpSend400 {fd : ℤ} (htable : w.table fd = some (.conn id)) :
    exec a id w (httpSend400 k fd) = some w :=
  exec_write htable _ _ _

/-- The resources while a file is open. -/
def withFile (w : Worker) (fd : ℤ) : Worker := { w with table := update w.table fd (some .other) }

/-- Closing the file gives the resources back. -/
theorem closeFd_withFile {fd : ℤ} (hfree : w.table fd = none) :
    (w.withFile fd).closeFd id fd = some w := by
  have htable : update (update w.table fd (some .other)) fd none = w.table := by
    rw [update_idem, ← hfree, update_eq_self]
  simp only [closeFd, withFile, update_self, htable]

theorem exec_notFoundCalls {openFile : List UInt8 → Option File} {docRoot path : List UInt8}
    (hfree : ∀ fd ∈ openedFds (notFoundCalls openFile docRoot path), w.table fd = none) :
    exec a id w (notFoundCalls openFile docRoot path) = some w := by
  unfold notFoundCalls at hfree ⊢
  split at hfree
  · rename_i h
    rw [if_pos h]
    rfl
  · rename_i h
    rw [if_neg h]
    rcases hopen : openFile (fsName docRoot path) with - | f
    · rfl
    · rw [hopen] at hfree
      have hf : w.table f.fd = none := hfree f.fd (List.mem_singleton_self _)
      have hclose : (w.withFile f.fd).closeFd id f.fd = some w := closeFd_withFile hf
      have hother : (w.withFile f.fd).table f.fd = some .other := update_self ..
      show ((some (w.withFile f.fd)).bind _) = _
      simp only [Option.bind_some, exec, sys, hother, if_true, hclose]

theorem exec_sendfileLoop {fd : ℤ} {f : File} (htable : w.table fd = some (.conn id))
    (hfile : w.table f.fd = some .other) (rs : List IoResult) (off remain : ℕ) :
    exec a id w (sendfileLoop fd f rs off remain).1 = some w := by
  have hone : ∀ off n res moved, w.sys a id (.sendfile fd f.fd off n res moved) = some w := by
    intro off n res moved
    rw [sys, if_pos ⟨htable, hfile⟩]
  induction rs generalizing off remain with
  | nil => rfl
  | cons r rs ih =>
    unfold sendfileLoop
    split
    · rfl
    · rcases r with n | e
      · dsimp only [IoResult.upTo]
        rw [exec, hone, Option.bind_some, ih]
      · -- the loop is tried again after `EAGAIN`, and left after any other error
        dsimp only [IoResult.upTo]
        split
        · rw [exec, hone, Option.bind_some, ih]
        · rw [exec, hone, Option.bind_some, exec_nil]

/-- **Sending a file** leaves the resources as they are once it has returned, and holds the file
open until then. -/
theorem exec_fileCalls {fd : ℤ} {fs : List UInt8} {f : File} {st : Stat} {keepAlive : Bool}
    (htable : w.table fd = some (.conn id)) (hfree : w.table f.fd = none) :
    exec a id w (fileCalls k fd fs f st keepAlive) =
      some (if (sendOpened k fd fs f st keepAlive).rc = none then w.withFile f.fd else w) := by
  have hne : fd ≠ f.fd := fun h ↦ by
    rw [← h, htable] at hfree
    exact absurd hfree (by simp)
  have hfd : (w.withFile f.fd).table fd = some (.conn id) := by
    show update w.table f.fd (some .other) fd = some (.conn id)
    rw [update_of_ne hne, htable]
  have hother : (w.withFile f.fd).table f.fd = some .other := update_self ..
  have hopen : exec a id w (openCalls fs f) = some (w.withFile f.fd) := by
    show ((some (w.withFile f.fd)).bind _) = _
    simp only [Option.bind_some, exec, sys, hother, if_true]
  have hloop := exec_sendfileLoop (a := a) hfd hother k.sendfile 0 st.size
  have hclose : exec a id (w.withFile f.fd) [.close f.fd] = some w := by
    simp only [exec, sys, closeFd_withFile hfree, Option.bind_some]
  have hcork : ∀ b, (w.withFile f.fd).sys a id (.cork fd b) = some (w.withFile f.fd) := by
    intro b
    rw [sys, if_pos hfd]
  have hhead : ∀ buf n res, exec a id (w.withFile f.fd) [.cork fd true, .write fd buf n res] =
      some (w.withFile f.fd) := by
    intro buf n res
    rw [exec, hcork, Option.bind_some]
    exact exec_write hfd buf n res
  rw [fileCalls, exec_append_of_exec hopen]
  unfold sendOpened
  dsimp only
  split
  · -- the header does not go out whole: the file is closed
    rw [exec_append_of_exec (hhead _ _ _), hclose, if_neg (by simp)]
  · rcases hbody : sendfileLoop fd f k.sendfile 0 st.size with ⟨body, exit⟩
    rw [hbody] at hloop
    cases exit with
    | done =>
      -- the cork is taken out before the file is closed
      dsimp only
      rw [List.append_assoc, exec_append_of_exec (hhead _ _ _), exec_append_of_exec hloop,
        if_neg (by simp)]
      rw [exec, hcork, Option.bind_some, hclose]
    | failed =>
      dsimp only
      rw [List.append_assoc, exec_append_of_exec (hhead _ _ _), exec_append_of_exec hloop, hclose,
        if_neg (by simp)]
    | sending =>
      -- the call has not returned, so the file is still open
      dsimp only
      rw [exec_append_of_exec (hhead _ _ _), hloop, if_pos rfl]

/-! ### A whole event -/

/-- The resources after an event of the connection `o` at `a`, by where it leaves the connection. -/
inductive After (w : Worker) (a : Addr) (o : Obj) : ConnState → Worker → Prop
  /-- Registered: nothing has changed, and the buffer invariant holds. -/
  | kept (c : ForgeConn) (hc : ConnInv c) (hfd : c.fd = o.conn.fd) : After w a o (.registered c) w
  /-- Closed: the connection is released. -/
  | closed : After w a o .closed (w.release a o)
  /-- In a call that has not returned, with a file open. -/
  | sending (fd : ℤ) (hfree : w.table fd = none) : After w a o .sending (w.withFile fd)

section Event

variable {o : Obj} {cfg : ForgeCfg}

/-- Calls that change nothing, then `conn_close`. -/
theorem after_closeTurn (hw : w.Holds a o) {calls : List Sys} {d : ForgeConn}
    (hd : d.fd = o.conn.fd) (hcalls : exec a o.id w calls = some w) (r : Option Request) :
    ∃ w', exec a o.id w (closeTurn d calls r).calls = some w' ∧
      After w a o (closeTurn d calls r).next w' := by
  refine ⟨w.release a o, ?_, .closed⟩
  rw [closeTurn, connClose_congr hd]
  rw [exec_append_of_exec hcalls, exec_connClose hw]

theorem after_answered (hw : w.Holds a o) {d : ForgeConn} (hd : ConnInv d) (hfd : d.fd = o.conn.fd)
    {calls : List Sys} (hcalls : exec a o.id w calls = some w) {r : Request} {t : Turn}
    (h : Answered cfg k d calls r t) (hfree : ∀ fd ∈ openedFds t.calls, w.table fd = none) :
    ∃ w', exec a o.id w t.calls = some w' ∧ After w a o t.next w' := by
  have htable : w.table d.fd = some (.conn o.id) := by rw [hfd]; exact hw.table
  cases h with
  | bad =>
    refine after_closeTurn hw hfd ?_ _
    rw [exec_append_of_exec hcalls, exec_httpSend400 htable]
  | missing =>
    have hfile : exec a o.id w (notFoundCalls k.openFile cfg.docRoot r.path) = some w :=
      exec_notFoundCalls fun fd hmem ↦ hfree fd (by simp [closeTurn, hmem])
    refine after_closeTurn hw hfd ?_ _
    rw [exec_append_of_exec hcalls, exec_append_of_exec hfile, exec_httpSend404 htable]
  | kept _ f st _ hrc =>
    have hf : w.table f.fd = none := hfree f.fd (by simp [fileCalls, openCalls, openedFds])
    refine ⟨w, ?_, .kept _ (hd.reset _) hfd⟩
    dsimp only
    rw [exec_append_of_exec hcalls, exec_fileCalls htable hf, if_neg (by simp [hrc])]
  | closed _ f st _ hrc =>
    have hf : w.table f.fd = none :=
      hfree f.fd (by simp [closeTurn, fileCalls, openCalls, openedFds])
    refine after_closeTurn hw hfd ?_ _
    rw [exec_append_of_exec hcalls, exec_fileCalls htable hf, if_neg hrc]
  | sending _ f st _ hrc =>
    have hf : w.table f.fd = none := hfree f.fd (by simp [fileCalls, openCalls, openedFds])
    refine ⟨w.withFile f.fd, ?_, .sending f.fd hf⟩
    dsimp only
    rw [exec_append_of_exec hcalls, exec_fileCalls htable hf, if_pos hrc]

/-- **An event of a connection that the worker holds does not fault**: every call acts on the
connection's own descriptor, entry and object; and it leaves all other resources as they are. -/
theorem exec_clientEvent (hw : w.Holds a o) (hc : ConnInv o.conn) (e : ConnEvent)
    (hfree : ∀ fd ∈ openedFds (clientEvent cfg e o.conn).calls, w.table fd = none) :
    ∃ w', exec a o.id w (clientEvent cfg e o.conn).calls = some w' ∧
      After w a o (clientEvent cfg e o.conn).next w' := by
  rcases clientEvent_cases cfg e o.conn with h | h | h <;> rw [h] at hfree ⊢
  · exact after_closeTurn hw rfl rfl none
  · exact ⟨w, rfl, .kept _ hc rfl⟩
  · have ho := outcome_handleRead cfg e.kernel hc
    generalize handleRead cfg e.kernel o.conn = t at ho hfree ⊢
    have hread : ∀ got, exec a o.id w (readCall o.conn got) = some w :=
      fun _ ↦ exec_read hw.table _ _ _
    cases ho with
    | waits => exact ⟨w, exec_read hw.table _ _ _, .kept _ hc rfl⟩
    | ended => exact after_closeTurn hw rfl (exec_read hw.table _ _ _) none
    | full => exact after_closeTurn hw rfl (hread _) none
    | more bs _ _ hfit => exact ⟨w, hread _, .kept _ (hc.receive hfit) rfl⟩
    | request bs _ _ hfit r _ t ht =>
      exact after_answered hw (hc.receive hfit) rfl (hread _) ht hfree

end Event

end Worker

end ForgeServer
