import ForgeServer.Server.Pieces

/-!
# A client that half-closes

A connection together with its socket: bytes of the peer arrive, at some point its FIN does, the
kernel reports readiness, and the worker handles what was reported. The four are inputs of
`sockMachine`, in any order; a report may be handled long after it was made, with more bytes on the
socket or the FIN behind them. The peer can still receive, so no report has `EPOLLHUP` or
`EPOLLERR`.

The event loop tests `EPOLLRDHUP` before `EPOLLIN`. A request that reached the socket before the FIN
is therefore lost when one event reports both (`closed_unread`). What holds is `half_close`: the
request is read and answered before the connection is closed when every event handled until it is
read was reported without the FIN, and no read overruns the buffer with what the peer sent behind
the request; else the connection is closed with nothing written. It rests on `open_step`, which says
what one input does while the request is not read.
-/

namespace ForgeServer

open CStr Machine

/-! ### The connection and its socket -/

/-- The flags of an event, besides `EPOLLHUP` and `EPOLLERR`. -/
structure Report where
  inp : Bool
  rdhup : Bool
deriving DecidableEq

/-- The event the worker handles, with what the kernel answers meanwhile. -/
def Report.event (f : Report) (k : Kernel) : ConnEvent := ⟨f.inp, f.rdhup, false, false, k⟩

instance (e : ConnEvent) : Decidable e.Reads :=
  inferInstanceAs (Decidable ((e.hup || e.err || e.rdhup) = false ∧ e.inp = true))

/-- A connection with its socket. -/
structure Sock where
  conn : ConnState
  /-- The bytes that reached the socket and were not read. -/
  unread : List UInt8
  /-- The peer's FIN has arrived. -/
  fin : Bool
  /-- The event that was reported and is not handled yet. -/
  pending : Option Report
  /-- The bytes that were read. -/
  taken : List UInt8

/-- What the peer has sent, as far as it reached the socket. -/
def Sock.stream (s : Sock) : List UInt8 := s.taken ++ s.unread

/-- What happens to a connection. -/
inductive SockInput
  /-- Bytes of the peer arrive. -/
  | arrive (bs : List UInt8)
  /-- The peer's FIN arrives. -/
  | fin
  /-- `epoll_wait` reports an event. -/
  | report (f : Report)
  /-- The worker handles the event. -/
  | handle (k : Kernel)

/-- What `read` may return: bytes from the front of those that were not read, none of them only at
the end of the stream, or `EAGAIN`. -/
def Sock.MayRead (s : Sock) (c : ForgeConn) : ReadResult → Prop
  | .bytes bs =>
    bs <+: s.unread ∧ bs.length ≤ readCount c ∧ (bs = [] → s.unread = [] ∧ s.fin = true)
  | .error e => e.wouldBlock = true

instance (s : Sock) (c : ForgeConn) : DecidablePred (s.MayRead c)
  | .bytes bs => inferInstanceAs (Decidable (bs <+: s.unread ∧ bs.length ≤ readCount c ∧
      (bs = [] → s.unread = [] ∧ s.fin = true)))
  | .error e => inferInstanceAs (Decidable (e.wouldBlock = true))

/-- What the kernel may report: what is the case. -/
def Sock.MayReport (s : Sock) (f : Report) : Prop :=
  (f.inp = true → s.unread ≠ [] ∨ s.fin = true) ∧ (f.rdhup = true → s.fin = true)

instance (s : Sock) (f : Report) : Decidable (s.MayReport f) :=
  inferInstanceAs (Decidable ((f.inp = true → s.unread ≠ [] ∨ s.fin = true) ∧
    (f.rdhup = true → s.fin = true)))

/-- The bytes taken off the socket while an event is handled. -/
def gotBytes (e : ConnEvent) : List UInt8 := if e.Reads then e.kernel.piece else []

/-- The event of a connection is handled. -/
def Sock.handled (cfg : ForgeCfg) (s : Sock) (c : ForgeConn) (e : ConnEvent) : Sock where
  conn := (clientEvent cfg e c).next
  unread := s.unread.drop (gotBytes e).length
  fin := s.fin
  pending := none
  taken := s.taken ++ gotBytes e

/-- The machine of a connection and its socket. It puts out what the handling of an event did. -/
def sockMachine (cfg : ForgeCfg) : Machine Sock SockInput (Option (Kernel × Turn)) where
  step s
    | .arrive bs => if s.fin then none else some (none, { s with unread := s.unread ++ bs })
    | .fin => if s.fin then none else some (none, { s with fin := true })
    | .report f =>
      match s.conn, s.pending with
      | .registered _, none =>
        if s.MayReport f then some (none, { s with pending := some f }) else none
      | _, _ => none
    | .handle k =>
      match s.conn, s.pending with
      | .registered c, some f =>
        if (f.event k).Reads → s.MayRead c k.read then
          some (some (k, clientEvent cfg (f.event k) c), s.handled cfg c (f.event k))
        else none
      | _, _ => none

variable {cfg : ForgeCfg} {s s' : Sock} {i : SockInput} {o : Option (Kernel × Turn)}

/-- **What an input does**: it leaves the connection and what was read alone, or the worker handles
an event. -/
theorem sockMachine_step (h : (sockMachine cfg).step s i = some (o, s')) :
    (o = none ∧ (∀ k, i ≠ .handle k) ∧ s'.conn = s.conn ∧ s'.taken = s.taken ∧
      s.unread <+: s'.unread ∧ (s.fin = true → s'.fin = true ∧ s'.unread = s.unread)) ∨
    ∃ c f k, i = .handle k ∧ s.conn = .registered c ∧ s.pending = some f ∧
      ((f.event k).Reads → s.MayRead c k.read) ∧
      o = some (k, clientEvent cfg (f.event k) c) ∧ s' = s.handled cfg c (f.event k) := by
  obtain ⟨conn, unread, fin, pending, taken⟩ := s
  cases i with
  | arrive bs =>
    cases fin with
    | true => exact absurd h (by simp [sockMachine])
    | false =>
      obtain ⟨rfl, rfl⟩ := Prod.mk.inj (Option.some.inj h)
      exact .inl ⟨rfl, fun _ ↦ nofun, rfl, rfl, List.prefix_append _ _, nofun⟩
  | fin =>
    cases fin with
    | true => exact absurd h (by simp [sockMachine])
    | false =>
      obtain ⟨rfl, rfl⟩ := Prod.mk.inj (Option.some.inj h)
      exact .inl ⟨rfl, fun _ ↦ nofun, rfl, rfl, List.prefix_rfl, nofun⟩
  | report f =>
    cases conn with
    | registered c =>
      cases pending with
      | none =>
        simp only [sockMachine, Option.ite_none_right_eq_some, Option.some.injEq,
          Prod.mk.injEq] at h
        obtain ⟨-, rfl, rfl⟩ := h
        exact .inl ⟨rfl, fun _ ↦ nofun, rfl, rfl, List.prefix_rfl, fun hfin ↦ ⟨hfin, rfl⟩⟩
      | some g => exact absurd h (by simp [sockMachine])
    | closed => exact absurd h (by simp [sockMachine])
    | sending => exact absurd h (by simp [sockMachine])
    | fault => exact absurd h (by simp [sockMachine])
  | handle k =>
    cases conn with
    | registered c =>
      cases pending with
      | none => exact absurd h (by simp [sockMachine])
      | some f =>
        simp only [sockMachine, Option.ite_none_right_eq_some, Option.some.injEq,
          Prod.mk.injEq] at h
        obtain ⟨hread, rfl, rfl⟩ := h
        exact .inr ⟨c, f, k, rfl, rfl, rfl, hread, rfl, rfl⟩
    | closed => exact absurd h (by simp [sockMachine])
    | sending => exact absurd h (by simp [sockMachine])
    | fault => exact absurd h (by simp [sockMachine])

/-! ### The stream -/

theorem Kernel.piece_of_bytes {k : Kernel} {bs : List UInt8} (h : k.read = .bytes bs) :
    k.piece = bs := by
  rw [Kernel.piece, h]

theorem Kernel.piece_of_error {k : Kernel} {e : Errno} (h : k.read = .error e) : k.piece = [] := by
  rw [Kernel.piece, h]

/-- What a call takes comes from the front of the socket. -/
theorem gotBytes_prefix {c : ForgeConn} {f : Report} {k : Kernel}
    (h : (f.event k).Reads → s.MayRead c k.read) : gotBytes (f.event k) <+: s.unread := by
  rw [gotBytes]
  split
  · rename_i hreads
    have hmay := h hreads
    show k.piece <+: s.unread
    rcases hread : k.read with bs | e
    · rw [hread] at hmay
      rw [Kernel.piece_of_bytes hread]
      exact hmay.1
    · rw [Kernel.piece_of_error hread]
      exact List.nil_prefix
  · exact List.nil_prefix

/-- Before the end of the stream a `read` brings something, or blocks. -/
theorem brings_of_mayRead {c : ForgeConn} {k : Kernel} (h : s.MayRead c k.read)
    (hend : s.unread = [] → s.fin = true → False) :
    k.Blocks ∨ k.Brings ∧ k.piece.length ≤ readCount c := by
  rcases hread : k.read with bs | e
  · rw [hread] at h
    obtain ⟨-, hcount, hnil⟩ := h
    refine .inr ⟨?_, by rwa [Kernel.piece_of_bytes hread]⟩
    rw [Kernel.Brings, Kernel.piece_of_bytes hread]
    exact ⟨hread, fun hbs ↦ hend (hnil hbs).1 (hnil hbs).2⟩
  · rw [hread] at h
    exact .inl (hread.trans (congrArg _ (of_decide_eq_true h)))

/-- **The stream only grows**, and not at all behind the FIN. -/
theorem stream_step (h : (sockMachine cfg).step s i = some (o, s')) :
    s.stream <+: s'.stream ∧ (s.fin = true → s'.fin = true ∧ s'.stream = s.stream) := by
  rcases sockMachine_step h with
    ⟨-, -, -, htaken, hunread, hfin⟩ | ⟨c, f, k, -, -, -, hread, -, rfl⟩
  · rw [Sock.stream, Sock.stream, htaken]
    exact ⟨(List.prefix_append_right_inj _).2 hunread, fun h ↦ ⟨(hfin h).1, by rw [(hfin h).2]⟩⟩
  · obtain ⟨rest, hrest⟩ := gotBytes_prefix hread
    have hstream : (s.handled cfg c (f.event k)).stream = s.stream := by
      rw [Sock.stream, Sock.stream, Sock.handled]
      dsimp only
      rw [← hrest, List.drop_left, List.append_assoc]
    rw [hstream]
    exact ⟨List.prefix_rfl, fun h ↦ ⟨h, rfl⟩⟩

theorem stream_run {is : List SockInput} {os : List (Option (Kernel × Turn))}
    (h : (sockMachine cfg).run s is = some (os, s')) :
    s.stream <+: s'.stream ∧ (s.fin = true → s'.stream = s.stream) := by
  refine ⟨?_, fun hfin ↦ ?_⟩
  · exact run_invariant (P := fun u ↦ s.stream <+: u.stream)
      (fun _ _ _ _ hu hstep ↦ hu.trans (stream_step hstep).1) List.prefix_rfl h
  · refine (run_invariant (P := fun u ↦ u.fin = true ∧ u.stream = s.stream)
      (fun u _ _ _ hu hstep ↦ ?_) ⟨hfin, rfl⟩ h).2
    obtain ⟨hfin', heq⟩ := (stream_step hstep).2 hu.1
    exact ⟨hfin', heq.trans hu.2⟩

/-! ### While the request is not read -/

/-- What the handling of an event put on the socket. -/
def outWritten (fd : ℤ) : Option (Kernel × Turn) → List UInt8
  | none => []
  | some (_, t) => written fd t.calls

/-- The request `b` is being read: a part of it is in the buffer. -/
structure Reading (c : ForgeConn) (b : List UInt8) (s : Sock) : Prop where
  conn : s.conn = .registered (c.receive s.taken)
  taken_lt : s.taken.length < b.length

/-- **The condition on an event** that is handled before `b` is read: it was reported without the
FIN, and the read leaves room in the buffer. -/
def InTime (b : List UInt8) (s : Sock) : SockInput → Prop
  | .handle k => s.taken.length < b.length → ∀ f, s.pending = some f →
      f.rdhup = false ∧ (f.inp = true → s.taken.length + k.piece.length ≤ recvBuf - 2)
  | _ => True

theorem inTime_of_not_handle {b : List UInt8} (h : ∀ k, i ≠ .handle k) : InTime b s i := by
  cases i with
  | handle k => exact absurd rfl (h k)
  | _ => trivial

section Open

variable {c d : ForgeConn} {b : List UInt8} {k : Kernel} {f : Report} {r : Request}

/-- The FIN is looked at first. -/
theorem clientEvent_of_rdhup (hf : f.rdhup = true) (cfg : ForgeCfg) (k : Kernel) (d : ForgeConn) :
    clientEvent cfg (f.event k) d = closeTurn d [] none := by
  rw [clientEvent, if_pos (by rw [Report.event, hf]; rfl)]
  rfl

/-- The read that completes the request is the one that answers it. -/
theorem read_answers (hd : ConnInv d) (hb : IsBlock b)
    (hreq : requestOf (b ++ [0]) b.length = some r) (hk : k.Brings) {rest : List UInt8}
    (hq : d.received ++ k.piece = b ++ rest) (hfit : d.rlen + k.piece.length < recvBuf - 1) :
    AnswersWith d.fd (responseFor cfg k.openFile r) (handleRead cfg k d) := by
  obtain ⟨hhere, -⟩ := requestOf_receive_block hd hb hreq hq hfit
  have hanswer := answered_answer cfg k (d.receive k.piece) (readCall d k.piece) r
  rw [handleRead_request hd hk.1 hk.2 hfit hhere]
  exact answersWith_of_answered (c := d.receive k.piece) rfl hanswer

/-- **One call while the request is not read**: its piece leaves the request open, completes it, or
fills the buffer. -/
theorem read_cases (hc : ConnInv c) (hrlen : c.rlen = 0) (hb : IsBlock b)
    (hle : b.length ≤ recvBuf - 2) (hreq : requestOf (b ++ [0]) b.length = some r)
    {taken : List UInt8} (hlt : taken.length < b.length)
    (hk : k.Blocks ∨ k.Brings ∧ k.piece.length ≤ readCount (c.receive taken))
    (hq : taken ++ k.piece <+: b ∨ b <+: taken ++ k.piece) :
    ((taken ++ k.piece).length < b.length ∧
      (handleRead cfg k (c.receive taken)).next = .registered (c.receive (taken ++ k.piece)) ∧
      written c.fd (handleRead cfg k (c.receive taken)).calls = []) ∨
    (b.length ≤ (taken ++ k.piece).length ∧ taken.length + k.piece.length ≤ recvBuf - 2 ∧
      AnswersWith c.fd (responseFor cfg k.openFile r) (handleRead cfg k (c.receive taken))) ∨
    (recvBuf - 1 ≤ taken.length + k.piece.length ∧
      (handleRead cfg k (c.receive taken)).next = .closed ∧
      written c.fd (handleRead cfg k (c.receive taken)).calls = []) := by
  have hR := recvBuf_eq
  have hd : ConnInv (c.receive taken) := hc.receive (by rw [receive_rlen, hrlen]; omega)
  have hdlen : (c.receive taken).rlen = taken.length := by rw [receive_rlen, hrlen, Nat.zero_add]
  have hrecv : (c.receive taken).received = taken := by
    rw [received_receive (by omega), ForgeConn.received, hrlen]
    rfl
  rcases Nat.lt_or_ge (taken ++ k.piece).length b.length with hopen | hdone
  · have hpre : taken ++ k.piece <+: b := hq.elim id fun h ↦ by
      have := h.length_le
      omega
    have hlen := hopen
    rw [List.length_append] at hlen
    obtain ⟨hnext, hw⟩ := step_leaves_open cfg hd (hk.imp_right And.left) hb
      (by rwa [hrecv]) (by rwa [hrecv]) (by rw [hdlen]; omega)
    rw [receive_receive (by rw [List.length_append, hrlen]; omega)] at hnext
    exact .inl ⟨hopen, hnext, hw⟩
  · have hlen := hdone
    rw [List.length_append] at hlen
    have hpos : 0 < k.piece.length := by omega
    obtain ⟨hk, hcount⟩ := hk.resolve_left fun h ↦ by
      rw [h.piece_eq] at hpos
      exact absurd hpos (by simp)
    rw [readCount_eq (by omega), hdlen] at hcount
    rcases Nat.lt_or_ge (taken.length + k.piece.length) (recvBuf - 1) with hfit | hfull
    · obtain ⟨rest, hrest⟩ : b <+: taken ++ k.piece := hq.elim
        (fun h ↦ h.eq_of_length (by have := h.length_le; omega) ▸ List.prefix_rfl) id
      exact .inr (.inl ⟨hdone, by omega, read_answers hd hb hreq hk
        (by rw [hrecv]; exact hrest.symm) (by rw [hdlen]; exact hfit)⟩)
    · exact .inr (.inr ⟨hfull,
        (step_full hd hk (by rw [hdlen]; omega) (by rw [hdlen]; exact hfull)).symm⟩)

/-- **One input while the request is not read**: it stays so; or the request is read and answered;
or the condition is not met, and the connection is closed with nothing written. -/
theorem open_step (hc : ConnInv c) (hrlen : c.rlen = 0) (hb : IsBlock b)
    (hle : b.length ≤ recvBuf - 2) (hreq : requestOf (b ++ [0]) b.length = some r)
    {stream : List UInt8} (hstream : s.stream <+: stream)
    (hfin : s.fin = true → s.stream = stream) (hbs : b <+: stream) (hs : Reading c b s)
    (hstep : (sockMachine cfg).step s i = some (o, s')) :
    (InTime b s i ∧ Reading c b s' ∧ outWritten c.fd o = []) ∨
    (InTime b s i ∧ b.length ≤ s'.taken.length ∧ ∃ k t, o = some (k, t) ∧
      AnswersWith c.fd (responseFor cfg k.openFile r) t) ∨
    (¬ InTime b s i ∧ s'.conn = .closed ∧ outWritten c.fd o = []) := by
  have hR := recvBuf_eq
  have hlt := hs.taken_lt
  rcases sockMachine_step hstep with
    ⟨rfl, hnot, hconn, htaken, -, -⟩ | ⟨d, f, k, rfl, hconn, hpending, hread, rfl, rfl⟩
  · exact .inl ⟨inTime_of_not_handle hnot, ⟨by rw [hconn, htaken, hs.conn], by rwa [htaken]⟩, rfl⟩
  obtain rfl := ConnState.registered.inj (hs.conn.symm.trans hconn)
  have hintime : InTime b s (.handle k) ↔
      f.rdhup = false ∧ (f.inp = true → s.taken.length + k.piece.length ≤ recvBuf - 2) :=
    ⟨fun h ↦ h hlt f hpending, fun h _ g hg ↦ Option.some.inj (hpending.symm.trans hg) ▸ h⟩
  rw [hintime]
  by_cases hrdhup : f.rdhup = true
  · -- the FIN was reported
    refine .inr (.inr ⟨fun h ↦ absurd (hrdhup.symm.trans h.1) (by simp), ?_, ?_⟩)
    · rw [Sock.handled, clientEvent_of_rdhup hrdhup]
      rfl
    · rw [clientEvent_of_rdhup hrdhup]
      exact written_closeTurn ..
  rw [Bool.not_eq_true] at hrdhup
  by_cases hinp : f.inp = true
  · -- `handle_read` is called, on the start of the stream that was read before
    have hreads : (f.event k).Reads := ⟨by rw [Report.event, hrdhup]; rfl, hinp⟩
    have hgot : gotBytes (f.event k) = k.piece := by
      rw [gotBytes, if_pos hreads]
      rfl
    have hpre := gotBytes_prefix hread
    rw [hgot] at hpre
    have htotal : s.taken ++ k.piece <+: stream :=
      ((List.prefix_append_right_inj _).2 hpre).trans hstream
    -- the end of the stream is not reached: `b` is in front of it
    have hk := brings_of_mayRead (hread hreads) fun hnil hend ↦ by
      have hall := (hfin hend).symm ▸ hbs.length_le
      rw [Sock.stream, hnil, List.append_nil] at hall
      omega
    have hevent : clientEvent cfg (f.event k) (c.receive s.taken) =
        handleRead cfg k (c.receive s.taken) := clientEvent_of_reads hreads cfg _
    rw [Sock.handled, hevent, hgot]
    rcases read_cases hc hrlen hb hle hreq hlt hk (List.prefix_or_prefix_of_prefix htotal hbs) with
      ⟨hopen, hnext, hw⟩ | ⟨hdone, hfit, hans⟩ | ⟨hfull, hnext, hw⟩
    · rw [List.length_append] at hopen
      exact .inl ⟨⟨hrdhup, fun _ ↦ by omega⟩, ⟨hnext, by rwa [List.length_append]⟩, hw⟩
    · exact .inr (.inl ⟨⟨hrdhup, fun _ ↦ hfit⟩, hdone, k, _, rfl, hans⟩)
    · exact .inr (.inr ⟨fun h ↦ by have := h.2 hinp; omega, hnext, hw⟩)
  · -- neither flag is set
    have hreads : ¬ (f.event k).Reads := fun h ↦ hinp h.2
    have hevent : clientEvent cfg (f.event k) (c.receive s.taken) =
        ⟨[], none, .registered (c.receive s.taken)⟩ := by
      rw [clientEvent, if_neg (by rw [Report.event, hrdhup]; simp)]
      exact if_neg hinp
    rw [Sock.handled, hevent, gotBytes, if_neg hreads, List.append_nil]
    exact .inl ⟨⟨hrdhup, fun h ↦ absurd h hinp⟩, ⟨rfl, hlt⟩, rfl⟩

end Open

/-! ### Every run -/

section Run

variable {is : List SockInput} {os : List (Option (Kernel × Turn))} {c : ForgeConn}
  {b : List UInt8} {r : Request}

/-- A closed connection handles nothing. -/
theorem closed_run (hs : s.conn = .closed) (h : (sockMachine cfg).run s is = some (os, s')) :
    s'.conn = .closed ∧ ∀ fd, ∀ o ∈ os, outWritten fd o = [] := by
  have hstep : ∀ u i o u', Sock.conn u = .closed → (sockMachine cfg).step u i = some (o, u') →
      u'.conn = .closed ∧ ∀ fd, outWritten fd o = [] := by
    intro u i o u' hu hstep
    rcases sockMachine_step hstep with ⟨rfl, -, hconn, -⟩ | ⟨d, f, k, -, hconn, -⟩
    · exact ⟨hconn.trans hu, fun _ ↦ rfl⟩
    · exact absurd (hu.symm.trans hconn) (by simp)
  exact ⟨run_invariant (fun u i o u' hu h ↦ (hstep u i o u' hu h).1) hs h,
    fun fd o ho ↦ run_output hstep hs h o ho fd⟩

/-- Once the request is read the condition asks for nothing. -/
theorem meets_of_taken (hs : b.length ≤ s.taken.length) (is : List SockInput) :
    (sockMachine cfg).Meets (InTime b) s is := by
  induction is generalizing s with
  | nil => trivial
  | cons i is ih =>
    refine ⟨?_, fun o u hstep ↦ ih ?_⟩
    · cases i with
      | handle k => exact fun hlt ↦ absurd hlt (by omega)
      | _ => trivial
    · rcases sockMachine_step hstep with ⟨-, -, -, htaken, -⟩ | ⟨d, f, k, -, -, -, -, -, rfl⟩
      · rwa [htaken]
      · rw [Sock.handled, List.length_append]
        omega

/-- The first thing the connection writes is the response to the request, in one call. -/
def AnsweredFirst (cfg : ForgeCfg) (fd : ℤ) (r : Request) (os : List (Option (Kernel × Turn))) :
    Prop :=
  ∃ os₁ k t os₂, os = os₁ ++ some (k, t) :: os₂ ∧ (∀ o ∈ os₁, outWritten fd o = []) ∧
    AnswersWith fd (responseFor cfg k.openFile r) t

theorem AnsweredFirst.cons (h : AnsweredFirst cfg c.fd r os) (ho : outWritten c.fd o = []) :
    AnsweredFirst cfg c.fd r (o :: os) := by
  obtain ⟨os₁, k, t, os₂, rfl, hw, hans⟩ := h
  exact ⟨o :: os₁, k, t, os₂, rfl, List.forall_mem_cons.2 ⟨ho, hw⟩, hans⟩

/-- **From any point on at which the request is not read.** -/
theorem half_close_from (hc : ConnInv c) (hrlen : c.rlen = 0) (hb : IsBlock b)
    (hle : b.length ≤ recvBuf - 2) (hreq : requestOf (b ++ [0]) b.length = some r)
    (hs : Reading c b s) (hrun : (sockMachine cfg).run s is = some (os, s'))
    (hbs : b <+: s'.stream) :
    ((sockMachine cfg).Meets (InTime b) s is →
      Reading c b s' ∧ (∀ o ∈ os, outWritten c.fd o = []) ∨ AnsweredFirst cfg c.fd r os) ∧
    (¬ (sockMachine cfg).Meets (InTime b) s is →
      s'.conn = .closed ∧ ∀ o ∈ os, outWritten c.fd o = []) := by
  induction is generalizing s os with
  | nil =>
    obtain ⟨rfl, rfl⟩ := Prod.mk.inj (Option.some.inj hrun)
    exact ⟨fun _ ↦ .inl ⟨hs, List.forall_mem_nil _⟩, fun h ↦ absurd trivial h⟩
  | cons i is ih =>
    obtain ⟨hstream, hfin⟩ := stream_run hrun
    obtain ⟨o, u, os, hstep, hrest, rfl⟩ := (run_cons_eq_some _).1 hrun
    rw [meets_cons hstep]
    rcases open_step hc hrlen hb hle hreq hstream (fun h ↦ (hfin h).symm) hbs hs hstep with
      ⟨hin, hu, hw⟩ | ⟨hin, htaken, k, t, rfl, hans⟩ | ⟨hnot, hclosed, hw⟩
    · -- it is still not read
      obtain ⟨hmet, hunmet⟩ := ih hu hrest
      refine ⟨fun h ↦ ?_, fun h ↦ ?_⟩
      · rcases hmet h.2 with ⟨hr, hws⟩ | hans
        · exact .inl ⟨hr, List.forall_mem_cons.2 ⟨hw, hws⟩⟩
        · exact .inr (hans.cons hw)
      · obtain ⟨hclosed, hws⟩ := hunmet fun h' ↦ h ⟨hin, h'⟩
        exact ⟨hclosed, List.forall_mem_cons.2 ⟨hw, hws⟩⟩
    · -- it is answered
      exact ⟨fun _ ↦ .inr ⟨[], k, t, os, rfl, List.forall_mem_nil _, hans⟩,
        fun h ↦ absurd ⟨hin, meets_of_taken htaken is⟩ h⟩
    · -- it is lost
      obtain ⟨hclosed', hws⟩ := closed_run hclosed hrest
      exact ⟨fun h ↦ absurd h.1 hnot, fun _ ↦ ⟨hclosed', List.forall_mem_cons.2 ⟨hw, hws c.fd⟩⟩⟩

end Run

/-- **What a client that half-closes gets.** A registered connection with nothing received, in any
run of it and its socket by the end of which the accepted request `b` has reached the socket, in
front of the FIN and of whatever else the peer sends. If every event handled until `b` is read meets
the condition, `b` is answered by the first thing the connection writes, or is not read yet, the
connection being open and the socket readable. If one does not, the connection is closed and nothing
is written. -/
theorem half_close (cfg : ForgeCfg) (c : ForgeConn) (hc : ConnInv c) (hrlen : c.rlen = 0)
    (b : List UInt8) (hb : IsBlock b) (hle : b.length ≤ recvBuf - 2) (r : Request)
    (hacc : AcceptedAs b r) (s s' : Sock) (hconn : s.conn = .registered c) (htaken : s.taken = [])
    (is : List SockInput) (os : List (Option (Kernel × Turn)))
    (hrun : (sockMachine cfg).run s is = some (os, s')) (harrived : b <+: s'.stream) :
    ((sockMachine cfg).Meets (InTime b) s is →
      (∃ d, s'.conn = .registered d) ∧ s'.unread ≠ [] ∧ (∀ o ∈ os, outWritten c.fd o = []) ∨
        AnsweredFirst cfg c.fd r os) ∧
    (¬ (sockMachine cfg).Meets (InTime b) s is →
      s'.conn = .closed ∧ ∀ o ∈ os, outWritten c.fd o = []) := by
  have hR := recvBuf_eq
  have hs : Reading c b s := by
    refine ⟨?_, ?_⟩
    · rw [hconn, htaken, receive_nil (by omega)]
    · rw [htaken]
      exact lt_of_lt_of_le (by decide) hb.four_le_length
  obtain ⟨hmet, hunmet⟩ := half_close_from hc hrlen hb hle hacc.requestOf_eq hs hrun harrived
  refine ⟨fun h ↦ (hmet h).imp_left fun ⟨hr, hws⟩ ↦ ⟨⟨_, hr.conn⟩, fun hnil ↦ ?_, hws⟩, hunmet⟩
  have hlen := harrived.length_le
  have hlt := hr.taken_lt
  rw [Sock.stream, hnil, List.append_nil] at hlen
  omega

/-! ### Three clients -/

/-- A connection with nothing on its socket. -/
def Sock.quiet (c : ForgeConn) : Sock := ⟨.registered c, [], false, none, []⟩

/-- A request is reported, and the FIN arrives before the worker handles the report: the request is
answered. -/
theorem half_close_get :
    ∃ os s', (sockMachine {}).run (.quiet (.fresh 5))
        [.arrive (ascii "GET /a HTTP/1.1\r\n\r\n"), .report ⟨true, false⟩, .fin,
          .handle (.serving (ascii "GET /a HTTP/1.1\r\n\r\n"))] = some (os, s') ∧
      s'.taken = ascii "GET /a HTTP/1.1\r\n\r\n" ∧
      AnsweredFirst {} 5 ⟨ascii "GET", ascii "/a", ascii "HTTP/1.1", true, 19⟩ os := by
  obtain ⟨hb, hle, -⟩ := fileRequest_a
  have hacc : AcceptedAs (ascii "GET /a HTTP/1.1\r\n\r\n")
      ⟨ascii "GET", ascii "/a", ascii "HTTP/1.1", true, 19⟩ :=
    acceptedAs_of_requestOf (by decide +kernel)
  generalize hx : ascii "GET /a HTTP/1.1\r\n\r\n" = x at hb hle hacc ⊢
  have hne : x ≠ [] := by
    rw [← hx]
    decide
  have harrive : (sockMachine {}).step (.quiet (.fresh 5)) (.arrive x) =
      some (none, ⟨.registered (.fresh 5), x, false, none, []⟩) := rfl
  have hreport : (sockMachine {}).step ⟨.registered (.fresh 5), x, false, none, []⟩
      (.report ⟨true, false⟩) =
        some (none, ⟨.registered (.fresh 5), x, false, some ⟨true, false⟩, []⟩) :=
    if_pos ⟨fun _ ↦ .inl hne, nofun⟩
  have hfin : (sockMachine {}).step ⟨.registered (.fresh 5), x, false, some ⟨true, false⟩, []⟩
      .fin = some (none, ⟨.registered (.fresh 5), x, true, some ⟨true, false⟩, []⟩) := rfl
  have hhandle : (sockMachine {}).step ⟨.registered (.fresh 5), x, true, some ⟨true, false⟩, []⟩
      (.handle (.serving x)) = some (_, _) :=
    if_pos fun _ ↦ ⟨List.prefix_rfl, hle.trans (by decide), fun h ↦ absurd h hne⟩
  have hgot : gotBytes (Report.event ⟨true, false⟩ (.serving x)) = x := rfl
  -- the four steps in a row, none of which meets a report of the FIN
  have hrun := (run_cons_eq_some _).2 ⟨_, _, _, harrive, (run_cons_eq_some _).2 ⟨_, _, _, hreport,
    (run_cons_eq_some _).2 ⟨_, _, _, hfin, (run_cons_eq_some _).2 ⟨_, _, _, hhandle, run_nil _ _,
      rfl⟩, rfl⟩, rfl⟩, rfl⟩
  have hintime : InTime x ⟨.registered (.fresh 5), x, true, some ⟨true, false⟩, []⟩
      (.handle (.serving x)) := by
    rintro - f hf
    obtain rfl := Option.some.inj hf
    exact ⟨rfl, fun _ ↦ (Nat.zero_add x.length).trans_le hle⟩
  have hmeets : (sockMachine {}).Meets (InTime x) (.quiet (.fresh 5))
      [.arrive x, .report ⟨true, false⟩, .fin, .handle (.serving x)] :=
    (meets_cons harrive).2 ⟨trivial, (meets_cons hreport).2 ⟨trivial, (meets_cons hfin).2 ⟨trivial,
      (meets_cons hhandle).2 ⟨hintime, trivial⟩⟩⟩⟩
  refine ⟨_, _, hrun, hgot, ?_⟩
  have harrived : x <+: x ++ x.drop x.length := List.prefix_append _ _
  refine ((half_close {} (.fresh 5) (ConnInv.fresh 5) rfl x hb hle _ hacc _ _ rfl rfl _ _ hrun
    harrived).1 hmeets).resolve_left fun h ↦ h.2.1 ?_
  exact List.drop_length

/-- A request that reached the socket before the FIN is lost when one event reports both, and when
the read that completes it fills the buffer with what follows it. -/
theorem closed_unread :
    AcceptedAs (ascii "GET /a HTTP/1.1\r\n\r\n")
        ⟨ascii "GET", ascii "/a", ascii "HTTP/1.1", true, 19⟩ ∧
      (∃ os s', (sockMachine {}).run (.quiet (.fresh 5))
          [.arrive (ascii "GET /a HTTP/1.1\r\n\r\n"), .fin, .report ⟨true, true⟩,
            .handle (.serving (ascii "GET /a HTTP/1.1\r\n\r\n"))] = some (os, s') ∧
        s'.conn = .closed ∧ s'.unread = ascii "GET /a HTTP/1.1\r\n\r\n" ∧
        ∀ o ∈ os, outWritten 5 o = []) ∧
      ∃ os s', (sockMachine {}).run (.quiet (.fresh 5))
          [.arrive (ascii "GET /a HTTP/1.1\r\n\r\n" ++ List.replicate 8172 10),
            .report ⟨true, false⟩,
            .handle (.serving (ascii "GET /a HTTP/1.1\r\n\r\n" ++ List.replicate 8172 10)), .fin] =
              some (os, s') ∧
        s'.conn = .closed ∧ ∀ o ∈ os, outWritten 5 o = [] := by
  refine ⟨acceptedAs_of_requestOf (by decide +kernel), ⟨_, _, rfl, rfl, rfl, ?_⟩, ?_⟩
  · simp only [List.forall_mem_cons]
    exact ⟨rfl, rfl, rfl, rfl, List.forall_mem_nil _⟩
  -- the request with 8172 bytes behind it is one byte more than the buffer has room for
  have hlen : (ascii "GET /a HTTP/1.1\r\n\r\n" ++ List.replicate 8172 10).length = recvBuf - 1 := by
    have hx : (ascii "GET /a HTTP/1.1\r\n\r\n").length = 19 := by decide
    rw [List.length_append, List.length_replicate, hx, recvBuf_eq]
  generalize ascii "GET /a HTTP/1.1\r\n\r\n" ++ List.replicate 8172 10 = y at hlen ⊢
  have hne : y ≠ [] := List.ne_nil_of_length_pos (by rw [hlen]; decide)
  have hreport : (sockMachine {}).step ⟨.registered (.fresh 5), y, false, none, []⟩
      (.report ⟨true, false⟩) =
        some (none, ⟨.registered (.fresh 5), y, false, some ⟨true, false⟩, []⟩) :=
    if_pos ⟨fun _ ↦ .inl hne, nofun⟩
  have hhandle : (sockMachine {}).step ⟨.registered (.fresh 5), y, false, some ⟨true, false⟩, []⟩
      (.handle (.serving y)) = some (_, _) :=
    if_pos fun _ ↦ ⟨List.prefix_rfl, hlen.trans_le (by decide), fun h ↦ absurd h hne⟩
  have hfull : written 5 (handleRead {} (.serving y) (.fresh 5)).calls = [] ∧
      (handleRead {} (.serving y) (.fresh 5)).next = .closed :=
    step_full (ConnInv.fresh 5) ⟨rfl, hne⟩ ((Nat.zero_add y.length).trans_le hlen.le)
      (hlen.ge.trans (Nat.zero_add y.length).ge)
  have hevent : clientEvent {} (Report.event ⟨true, false⟩ (.serving y)) (.fresh 5) =
      handleRead {} (.serving y) (.fresh 5) := clientEvent_of_reads ⟨rfl, rfl⟩ {} _
  rw [← hevent] at hfull
  refine ⟨_, _, (run_cons_eq_some _).2 ⟨_, _, _, rfl, (run_cons_eq_some _).2 ⟨_, _, _, hreport,
    (run_cons_eq_some _).2 ⟨_, _, _, hhandle, rfl, rfl⟩, rfl⟩, rfl⟩, hfull.2, ?_⟩
  simp only [List.forall_mem_cons]
  exact ⟨rfl, rfl, hfull.1, rfl, List.forall_mem_nil _⟩

end ForgeServer
