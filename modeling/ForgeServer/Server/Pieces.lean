import ForgeServer.Server.Pipelining

/-!
# One request in pieces

`read` returns a request in pieces of the kernel's choosing, with `EAGAIN` between them. How it is
cut does not matter (`pieces_agree`): the calls in front of the last one write nothing and leave the
pieces in the buffer one behind the other, and the last call does what one call does that reads them
all.

Both halves rest on the buffer alone. `receive_receive` says that it does not remember the cuts;
`run_leaves_open` says that no call is tempted to answer early, since the start of a block has no
terminator. What the last call does then depends on the kernel through what it answers to `open`,
`write` and `sendfile` only (`consider_congr`).

So an accepted request gets, whatever the cuts, the one response that `responseFor` says
(`AnswersWith`).
-/

namespace ForgeServer

open CStr Machine

variable {cfg : ForgeCfg} {c : ForgeConn} {k k' : Kernel} {b : List UInt8}

/-! ### Receiving in pieces -/

theorem ForgeConn.eq_of_bytes {c d : ForgeConn} (hfd : c.fd = d.fd)
    (hbytes : c.rbuf.bytes = d.rbuf.bytes) (hrlen : c.rlen = d.rlen)
    (hka : c.keepAlive = d.keepAlive) : c = d := by
  obtain ⟨fd, rbuf, rlen, ka⟩ := c
  obtain ⟨fd', rbuf', rlen', ka'⟩ := d
  rw [ForgeConn.mk.injEq]
  exact ⟨hfd, Buf.ext hbytes, hrlen, hka⟩

theorem receive_nil (h : c.rlen ≤ recvBuf) : c.receive [] = c := by
  refine ForgeConn.eq_of_bytes rfl ?_ rfl rfl
  rw [bytes_receive (by simpa using h), List.append_nil]
  exact List.take_append_drop _ _

/-- **The buffer does not remember the cuts.** -/
theorem receive_receive {x y : List UInt8} (h : c.rlen + (x ++ y).length ≤ recvBuf) :
    (c.receive x).receive y = c.receive (x ++ y) := by
  rw [List.length_append] at h
  have hlen : (c.received ++ x).length = c.rlen + x.length := by
    rw [List.length_append, length_received (by omega)]
  refine ForgeConn.eq_of_bytes rfl ?_ ?_ rfl
  · rw [bytes_receive (by rw [receive_rlen]; omega), received_receive (by omega),
      bytes_receive (by omega), bytes_receive (by rw [List.length_append]; omega), receive_rlen,
      List.length_append, ← hlen, List.drop_length_add_append, List.drop_drop, hlen,
      List.append_assoc c.received x y, Nat.add_assoc]
  · rw [receive_rlen, receive_rlen, receive_rlen, List.length_append, Nat.add_assoc]

/-! ### The calls in front of the last one -/

/-- The call has nothing to read yet. -/
def Kernel.Blocks (k : Kernel) : Prop := k.read = .error .eagain

theorem Kernel.Blocks.piece_eq (h : k.Blocks) : k.piece = [] := by
  rw [Kernel.piece, show k.read = _ from h]

/-- One call that leaves a block open. -/
theorem step_leaves_open (cfg : ForgeCfg) (hc : ConnInv c) (hk : k.Blocks ∨ k.Brings)
    (hb : IsBlock b)
    (hq : c.received ++ k.piece <+: b) (hlt : (c.received ++ k.piece).length < b.length)
    (hfit : c.rlen + k.piece.length < recvBuf - 1) :
    (handleRead cfg k c).next = .registered (c.receive k.piece) ∧
      written c.fd (handleRead cfg k c).calls = [] := by
  rcases hk with hk | hk
  · have hcall : handleRead cfg k c =
        ⟨[.read c.fd c.rlen (readCount c) (.error .eagain)], none, .registered c⟩ := by
      rw [handleRead_eq hc, turnOf, show k.read = _ from hk]
      rfl
    rw [hcall, hk.piece_eq, receive_nil (by have := recvBuf_eq; have := hc.rlen_le; omega)]
    exact ⟨rfl, rfl⟩
  · rw [handleRead_open hc hk hb hq hlt hfit]
    exact ⟨rfl, rfl⟩

/-- **Nothing is written before the block is complete**: the calls keep the connection and leave
their pieces in the buffer, one behind the other. -/
theorem run_leaves_open (cfg : ForgeCfg) (hb : IsBlock b) {ks : List Kernel} (hc : ConnInv c)
    (hks : ∀ j ∈ ks, j.Blocks ∨ j.Brings)
    (hq : c.received ++ (ks.map Kernel.piece).flatten <+: b)
    (hlt : (c.received ++ (ks.map Kernel.piece).flatten).length < b.length)
    (hfit : c.rlen + (ks.map Kernel.piece).flatten.length < recvBuf - 1) :
    ∃ ts, (connMachine cfg).run (.registered c) (reads ks) =
        some (ts, .registered (c.receive (ks.map Kernel.piece).flatten)) ∧
      written c.fd (ts.flatMap Turn.calls) = [] := by
  induction ks generalizing c with
  | nil =>
    rw [List.map_nil, List.flatten_nil, receive_nil (by have := hc.rlen_le; omega)]
    exact ⟨[], rfl, rfl⟩
  | cons k ks ih =>
    obtain ⟨hk, hks⟩ := List.forall_mem_cons.1 hks
    rw [List.map_cons, List.flatten_cons] at hq hlt hfit ⊢
    rw [List.length_append] at hfit
    rw [← List.append_assoc] at hq hlt
    have hlt' := hlt
    rw [List.length_append] at hlt'
    -- the first call leaves its piece in the buffer, and the others go on from there
    obtain ⟨hnext, hw⟩ := step_leaves_open cfg hc hk hb
      ((List.prefix_append _ _).trans hq) (by omega) (by omega)
    have hrecv : (c.receive k.piece).received = c.received ++ k.piece :=
      received_receive (by omega)
    have hinv : ConnInv (c.receive k.piece) := hc.receive (by rw [receive_rlen]; omega)
    obtain ⟨ts, hrun, hws⟩ := ih hinv hks (by rwa [hrecv]) (by rwa [hrecv])
      (by rw [receive_rlen]; omega)
    rw [receive_receive (by rw [List.length_append]; omega)] at hrun
    refine ⟨handleRead cfg k c :: ts, ?_, ?_⟩
    · rw [reads, List.map_cons, run_cons_of_step _ (step_readable hnext)]
      exact Option.map_eq_some_iff.2 ⟨_, hrun, rfl⟩
    · rw [List.flatMap_cons, written_append, hw, List.nil_append]
      exact hws

/-! ### The last call -/

/-- The same document tree, and the same results of `write` and `sendfile`. -/
structure Kernel.AnswersAlike (k k' : Kernel) : Prop where
  openFile : k.openFile = k'.openFile
  write : k.write = k'.write
  sendfile : k.sendfile = k'.sendfile

/-- The same outcome of two calls: the same bytes on the socket, the same request, and the same
state of the connection, its buffer included. -/
structure Turn.SameOutcome (fd : ℤ) (t u : Turn) : Prop where
  written : written fd t.calls = written fd u.calls
  request : t.request = u.request
  next : t.next = u.next

theorem sameOutcome_closeTurn (fd : ℤ) (c : ForgeConn) {calls calls' : List Sys}
    (h : written fd calls = written fd calls') (r : Option Request) :
    (closeTurn c calls r).SameOutcome fd (closeTurn c calls' r) :=
  ⟨by rw [written_closeTurn, written_closeTurn, h], rfl, rfl⟩

/-- **What an answer depends on**: the calls in front of it do not matter, nor what the kernel
answered to `read`. -/
theorem answer_congr (h : k.AnswersAlike k') (cfg : ForgeCfg) (c : ForgeConn)
    {calls calls' : List Sys} (hw : written c.fd calls = written c.fd calls') (r : Request) :
    (answer cfg k c calls r).SameOutcome c.fd (answer cfg k' c calls' r) := by
  have h400 : httpSend400 k c.fd = httpSend400 k' c.fd := by
    rw [httpSend400, httpSend400, h.write]
  have hsent : httpSendStaticFile k c.fd cfg.docRoot r.path r.keepAlive =
      httpSendStaticFile k' c.fd cfg.docRoot r.path r.keepAlive := by
    unfold httpSendStaticFile sendOpened httpSend404
    rw [h.openFile, h.write, h.sendfile]
  unfold answer
  dsimp only
  rw [h400, hsent]
  have happ : ∀ more, written c.fd (calls ++ more) = written c.fd (calls' ++ more) := fun more ↦ by
    rw [written_append, written_append, hw]
  split
  · exact sameOutcome_closeTurn _ _ (happ _) _
  · split
    · exact ⟨happ _, rfl, rfl⟩
    · split
      · exact ⟨happ _, rfl, rfl⟩
      · exact sameOutcome_closeTurn _ _ (happ _) _

theorem consider_congr (h : k.AnswersAlike k') (cfg : ForgeCfg) (c : ForgeConn)
    {calls calls' : List Sys} (hw : written c.fd calls = written c.fd calls') :
    (consider cfg k c calls).SameOutcome c.fd (consider cfg k' c calls') := by
  unfold consider
  split
  · exact sameOutcome_closeTurn _ _ hw _
  · split
    · exact ⟨hw, rfl, rfl⟩
    · exact answer_congr h cfg c hw _

/-! ### The block -/

/-- The block, received into the buffer of `c`, is accepted as `r`. -/
def AcceptedOn (c : ForgeConn) (b : List UInt8) (r : Request) : Prop :=
  ∀ out, ∃ req, httpTryParseRequest (c.receive b).rbuf.bytes b.length out = some (true, req) ∧
    req.request = some r

theorem requestOf_of_acceptedOn {r : Request} (hc : ConnInv c)
    (hfit : c.rlen + b.length ≤ recvBuf - 1) (h : AcceptedOn c b r) :
    requestOf (c.receive b).rbuf.bytes b.length = some r := by
  have h0 := zero_mem_of_last (last_receive hfit hc.last)
  exact requestOf_of_accepts (by rw [Buf.length_bytes]; omega) h0 h

/-- **The way one request is cut into pieces does not matter.** A block is read on a registered
connection with nothing received, in any pieces that fill the buffer or make up the block, the last
of them by the call with `k`, and in one piece by the call with `k'`. -/
theorem pieces_agree (cfg : ForgeCfg) (c : ForgeConn) (hc : ConnInv c) (hrlen : c.rlen = 0)
    (b : List UInt8) (hb : IsBlock b) (ks : List Kernel) (k k' : Kernel)
    (hks : ∀ j ∈ ks, j.Blocks ∨ j.Brings) (hk : k.Brings)
    (hcut : ((ks ++ [k]).map Kernel.piece).flatten = b.take (recvBuf - 1))
    (hk' : k'.read = .bytes b) (halike : k.AnswersAlike k') :
    ∃ ts d, (connMachine cfg).run (.registered c) (reads ks) = some (ts, .registered d) ∧
      written c.fd (ts.flatMap Turn.calls) = [] ∧
      (handleRead cfg k d).SameOutcome c.fd (handleRead cfg k' c) ∧
      (recvBuf - 1 ≤ b.length →
        (handleRead cfg k d).next = .closed ∧ written c.fd (handleRead cfg k d).calls = []) ∧
      (b.length ≤ recvBuf - 2 → ∀ r, AcceptedOn c b r →
        AnswersWith c.fd (responseFor cfg k.openFile r) (handleRead cfg k d)) := by
  have hR := recvBuf_eq
  have hfour := hb.four_le_length
  rw [List.map_append, List.map_singleton, List.flatten_append, List.flatten_singleton] at hcut
  have hempty : c.received = [] := by
    rw [ForgeConn.received, hrlen]
    rfl
  have hrun := run_leaves_open cfg hb hc hks
  generalize (ks.map Kernel.piece).flatten = front at hcut hrun
  have hlen := congrArg List.length hcut
  rw [List.length_append, List.length_take] at hlen
  have hpos := List.length_pos_of_ne_nil hk.2
  -- the calls in front of the last one
  rw [hempty, List.nil_append, hrlen, Nat.zero_add] at hrun
  obtain ⟨ts, hrun, hws⟩ := hrun
    ((List.prefix_append front k.piece).trans (hcut ▸ List.take_prefix _ _)) (by omega) (by omega)
  have hinv : ConnInv (c.receive front) := hc.receive (by rw [receive_rlen, hrlen]; omega)
  -- the last one, and the one that reads it all
  have hlast : handleRead cfg k (c.receive front) =
      consider cfg k (c.receive (b.take (recvBuf - 1))) (readCall (c.receive front) k.piece) := by
    rw [handleRead_bytes hinv hk.1 hk.2 (by rw [receive_rlen, hrlen]; omega),
      receive_receive (by rw [List.length_append, hrlen]; omega), hcut]
  have hall : handleRead cfg k' c =
      consider cfg k' (c.receive (b.take (recvBuf - 1))) (readCall c (b.take (recvBuf - 1))) := by
    have hread : readBytes c b = b.take (recvBuf - 1) := by rw [readBytes, hrlen, Nat.sub_zero]
    rw [handleRead_eq hc, turnOf, hk']
    dsimp only
    rw [hread, if_neg]
    -- the last piece is not empty, so neither is the whole
    intro hnil
    rw [hnil] at hcut
    exact hk.2 (List.append_eq_nil_iff.1 hcut).2
  refine ⟨ts, c.receive front, hrun, hws, ?_, fun hfull ↦ ?_, fun hfit r hr ↦ ?_⟩
  · rw [hlast, hall]
    exact consider_congr halike cfg (c.receive (b.take (recvBuf - 1))) rfl
  · rw [hlast, consider, if_pos (by rw [receive_rlen, hrlen, List.length_take]; omega)]
    exact ⟨rfl, written_closeTurn ..⟩
  · have htake : b.take (recvBuf - 1) = b := List.take_of_length_le (by omega)
    have hreq := requestOf_of_acceptedOn hc (by omega) hr
    rw [hlast, htake, consider, if_neg (by rw [receive_rlen, hrlen]; omega), receive_rlen, hrlen,
      Nat.zero_add, hreq]
    have hw : written (c.receive b).fd (readCall (c.receive front) k.piece) = [] := rfl
    have hanswer := answered_answer cfg k (c.receive b) (readCall (c.receive front) k.piece) r
    exact answersWith_of_answered (c := c.receive b) hw hanswer

/-- A request in two pieces, with an `EAGAIN` between them, and in one. -/
theorem pieces_agree_get :
    ∃ ts d, (connMachine {}).run (.registered (.fresh 5))
        (reads [.serving (ascii "GET /a HTT"), { Kernel.serving [] with read := .error .eagain }]) =
          some (ts, .registered d) ∧
      written 5 (ts.flatMap Turn.calls) = [] ∧
      (handleRead {} (.serving (ascii "P/1.1\r\n\r\n")) d).SameOutcome 5
        (handleRead {} (.serving (ascii "GET /a HTTP/1.1\r\n\r\n")) (.fresh 5)) := by
  obtain ⟨ts, d, hrun, hw, hsame, -⟩ := pieces_agree {} (.fresh 5) (ConnInv.fresh 5) rfl
    (ascii "GET /a HTTP/1.1\r\n\r\n") (by decide)
    [.serving (ascii "GET /a HTT"), { Kernel.serving [] with read := .error .eagain }]
    (.serving (ascii "P/1.1\r\n\r\n")) (.serving (ascii "GET /a HTTP/1.1\r\n\r\n"))
    (List.forall_mem_cons.2 ⟨.inr ⟨rfl, by decide⟩, List.forall_mem_cons.2 ⟨.inl rfl, by simp⟩⟩)
    ⟨rfl, by decide⟩ (by decide) rfl ⟨rfl, rfl, rfl⟩
  exact ⟨ts, d, hrun, hw, hsame⟩

end ForgeServer
