import ForgeServer.Http.Response
import ForgeServer.Server.HandleRead

/-!
# The outcomes of a call

Everything one call of `handle_read` can do, guards included, as one inductive predicate: an
invariant of connections is proved by cases on `Outcome`, never by unfolding the code.
`outcome_turnOf` is the inversion; `Answered` is the part about an accepted request.
-/

namespace ForgeServer

open CStr

variable (cfg : ForgeCfg) (k : Kernel)

/-- The calls that open a file and ask for its status. -/
def openCalls (fs : List UInt8) (f : File) : List Sys :=
  [.openFile fs (some f.fd), .fstat f.fd f.stat]

/-- The calls that send an opened file. -/
def fileCalls (fd : ℤ) (fs : List UInt8) (f : File) (st : Stat) (keepAlive : Bool) : List Sys :=
  openCalls fs f ++ (sendOpened k fd fs f st keepAlive).calls

/-- **The outcomes of an accepted request** `r`, in the buffer of `c`, after the calls `calls`. -/
inductive Answered (c : ForgeConn) (calls : List Sys) (r : Request) : Turn → Prop
  /-- Not a GET: the 400, and the connection is closed. -/
  | bad (hget : r.method ≠ ascii "GET") :
      Answered c calls r (closeTurn c (calls ++ httpSend400 k c.fd) (some r))
  /-- No file to serve: the 404, and the connection is closed. -/
  | missing (hget : r.method = ascii "GET")
      (hs : servable k.openFile cfg.docRoot r.path = none) :
      Answered c calls r (closeTurn c (calls ++
        (notFoundCalls k.openFile cfg.docRoot r.path ++ httpSend404 k c.fd r.keepAlive)) (some r))
  /-- The file was sent and the connection is kept. -/
  | kept (hget : r.method = ascii "GET") (f : File) (st : Stat)
      (hs : servable k.openFile cfg.docRoot r.path = some (f, st))
      (hrc : (sendOpened k c.fd (fsName cfg.docRoot r.path) f st r.keepAlive).rc = some 0)
      (hka : r.keepAlive = true) :
      Answered c calls r
        ⟨calls ++ fileCalls k c.fd (fsName cfg.docRoot r.path) f st r.keepAlive, some r,
          .registered (c.reset r.headerBytes)⟩
  /-- The file was sent, or sending it failed, and the connection is closed. -/
  | closed (hget : r.method = ascii "GET") (f : File) (st : Stat)
      (hs : servable k.openFile cfg.docRoot r.path = some (f, st))
      (hrc : (sendOpened k c.fd (fsName cfg.docRoot r.path) f st r.keepAlive).rc ≠ none)
      (hka : (sendOpened k c.fd (fsName cfg.docRoot r.path) f st r.keepAlive).rc = some 0 →
        r.keepAlive = false) :
      Answered c calls r
        (closeTurn c (calls ++ fileCalls k c.fd (fsName cfg.docRoot r.path) f st r.keepAlive)
          (some r))
  /-- The call is still sending. -/
  | sending (hget : r.method = ascii "GET") (f : File) (st : Stat)
      (hs : servable k.openFile cfg.docRoot r.path = some (f, st))
      (hrc : (sendOpened k c.fd (fsName cfg.docRoot r.path) f st r.keepAlive).rc = none) :
      Answered c calls r
        ⟨calls ++ fileCalls k c.fd (fsName cfg.docRoot r.path) f st r.keepAlive, some r, .sending⟩

theorem answered_answer (c : ForgeConn) (calls : List Sys) (r : Request) :
    Answered cfg k c calls r (answer cfg k c calls r) := by
  unfold answer
  by_cases hget : r.method = ascii "GET"
  · simp only [hget, ne_eq, not_true_eq_false, if_false]
    rcases hs : servable k.openFile cfg.docRoot r.path with - | ⟨f, st⟩
    · rw [httpSendStaticFile_of_not_servable c.fd r.keepAlive hs]
      dsimp only
      rw [if_neg (by omega)]
      exact .missing hget hs
    · rw [httpSendStaticFile_of_servable hs]
      dsimp only
      rcases hrc : (sendOpened k c.fd (fsName cfg.docRoot r.path) f st r.keepAlive).rc with - | rc
      · exact .sending hget f st hs hrc
      · dsimp only
        split
        · rename_i h
          have hrc0 : (sendOpened k c.fd (fsName cfg.docRoot r.path) f st r.keepAlive).rc =
              some 0 := by
            rcases rc_sendOpened k c.fd (fsName cfg.docRoot r.path) f st r.keepAlive with
              h' | h' | h'
            · rw [hrc] at h'; exact absurd h' (by simp)
            · exact h'
            · rw [hrc, Option.some.injEq] at h'
              omega
          exact .kept hget f st hs hrc0 h.1
        · rename_i h
          refine .closed hget f st hs (by rw [hrc]; simp) fun h' ↦ ?_
          rw [hrc, Option.some.injEq] at h'
          rw [← Bool.not_eq_true]
          exact fun hka ↦ h ⟨hka, by omega⟩
  · simp only [ne_eq, hget, not_false_eq_true, if_true]
    exact .bad hget

/-- **The outcomes of a call** on a connection. -/
inductive Outcome (c : ForgeConn) : Turn → Prop
  /-- Nothing to read. -/
  | waits (e : Errno) (hread : k.read = .error e) (he : e.wouldBlock = true) :
      Outcome c ⟨[.read c.fd c.rlen (readCount c) (.error e)], none, .registered c⟩
  /-- The end of the stream or an error. -/
  | ended (res : ReadResult) (hread : ∀ bs, k.read = .bytes bs → readBytes c bs = []) :
      Outcome c (closeTurn c [.read c.fd c.rlen (readCount c) res] none)
  /-- The buffer is full. -/
  | full (bs : List UInt8) (hread : k.read = .bytes bs) (hne : readBytes c bs ≠ [])
      (hfull : recvBuf - 1 ≤ (c.receive (readBytes c bs)).rlen) :
      Outcome c (closeTurn (c.receive (readBytes c bs)) (readCall c (readBytes c bs)) none)
  /-- No request in the buffer. -/
  | more (bs : List UInt8) (hread : k.read = .bytes bs) (hne : readBytes c bs ≠ [])
      (hfit : (c.receive (readBytes c bs)).rlen < recvBuf - 1)
      (hreq : requestOf (c.receive (readBytes c bs)).rbuf.bytes
        (c.receive (readBytes c bs)).rlen = none) :
      Outcome c ⟨readCall c (readBytes c bs), none, .registered (c.receive (readBytes c bs))⟩
  /-- A request. -/
  | request (bs : List UInt8) (hread : k.read = .bytes bs) (hne : readBytes c bs ≠ [])
      (hfit : (c.receive (readBytes c bs)).rlen < recvBuf - 1) (r : Request)
      (hreq : requestOf (c.receive (readBytes c bs)).rbuf.bytes
        (c.receive (readBytes c bs)).rlen = some r) (t : Turn)
      (ht : Answered cfg k (c.receive (readBytes c bs)) (readCall c (readBytes c bs)) r t) :
      Outcome c t

/-- **Every call has one of the outcomes.** -/
theorem outcome_turnOf (c : ForgeConn) : Outcome cfg k c (turnOf cfg k c) := by
  unfold turnOf
  rcases hread : k.read with bs | e
  · dsimp only
    split
    · rename_i hnil
      refine .ended _ fun bs' h ↦ ?_
      rw [hread, ReadResult.bytes.injEq] at h
      rw [← h, hnil]
    · rename_i hne
      unfold consider
      split
      · rename_i hfull
        exact .full bs hread hne hfull
      · rename_i hfit
        rcases hreq : requestOf (c.receive (readBytes c bs)).rbuf.bytes
          (c.receive (readBytes c bs)).rlen with - | r
        · exact .more bs hread hne (by omega) hreq
        · exact .request bs hread hne (by omega) r hreq _ (answered_answer cfg k _ _ r)
  · dsimp only
    split
    · rename_i he
      exact .waits e hread he
    · refine .ended _ fun bs' h ↦ ?_
      rw [hread] at h
      exact absurd h (by simp)

theorem outcome_handleRead {c : ForgeConn} (hc : ConnInv c) :
    Outcome cfg k c (handleRead cfg k c) := by
  rw [handleRead_eq hc]
  exact outcome_turnOf cfg k c

end ForgeServer
