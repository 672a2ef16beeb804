import ForgeServer.Bytes.Cuts
import ForgeServer.Server.ResponseStream

/-!
# Streams of requests

A client sends a stream of complete requests, each for a file and each to be kept alive, and `read`
returns it in pieces. After a response, `handle_read` moves the bytes behind the request to the
front of the buffer and then sets `rlen` to zero: they are lost. `pipelining_iff` says when none
are: the requests are all answered, one response each and in their order, and every byte behind a
request is kept, exactly when every request ends where a `read` ends.

The three cases of one `read` are `lossless_open`, `lossless_end` and `not_lossless_past`; the
induction is over the pieces, with the open part of the first request in the buffer.
-/

namespace ForgeServer

open CStr Machine

variable (cfg : ForgeCfg) (tree : List UInt8 → Option File)

/-! ### The client's side -/

/-- A block the parser accepts on its own, as the request `r`. -/
def AcceptedAs (b : List UInt8) (r : Request) : Prop :=
  ∀ out, ∃ req, httpTryParseRequest (b ++ [0]) b.length out = some (true, req) ∧
    req.request = some r

/-- A complete request for a file, to be kept alive: a block that fits in the buffer, accepted on
its own as a GET with the flag set, whose path is servable. -/
def FileRequest (b : List UInt8) : Prop :=
  IsBlock b ∧ b.length ≤ recvBuf - 2 ∧
    ∃ r f st, AcceptedAs b r ∧ r.method = ascii "GET" ∧ r.keepAlive = true ∧
      servable tree cfg.docRoot r.path = some (f, st)

/-- The response to a block that is a request for a file. -/
def responseTo (b : List UInt8) : List UInt8 :=
  match requestOf (b ++ [0]) b.length with
  | none => []
  | some r =>
    match servable tree cfg.docRoot r.path with
    | none => []
    | some (f, st) => response200 (fsName cfg.docRoot r.path) f st true

/-- The bytes a call reads. -/
def Kernel.piece (k : Kernel) : List UInt8 :=
  match k.read with
  | .bytes bs => bs
  | .error _ => []

/-- The call reads a piece of the stream. -/
def Kernel.Brings (k : Kernel) : Prop := k.read = .bytes k.piece ∧ k.piece ≠ []

/-- A kernel that delivers a piece of the stream and takes whole responses; files are those of
`tree`. -/
structure Delivers (k : Kernel) : Prop where
  read : k.read = .bytes k.piece
  piece_ne_nil : k.piece ≠ []
  openFile : k.openFile = tree
  write : hdrBuf - 1 ≤ k.write.done
  sendfile : ∀ path f st, servable tree cfg.docRoot path = some (f, st) →
    Completes k.sendfile st.size

/-- The piece is what the call reads: it asks for at least as many bytes. -/
def PieceFits (s : ConnState) (e : ConnEvent) : Prop :=
  ∀ c, s = .registered c → c.rlen + e.kernel.piece.length ≤ recvBuf - 1

/-- Every byte received behind an accepted request is kept as the start of the next one. -/
def KeepsRest (s : ConnState) (e : ConnEvent) : Prop :=
  ∀ c r, s = .registered c → accepted e.kernel c = some r →
    ∃ d, (handleRead cfg e.kernel c).next = .registered d ∧
      d.received = (c.received ++ e.kernel.piece).drop r.headerBytes

variable {cfg tree}

theorem Delivers.brings {k : Kernel} (h : Delivers cfg tree k) : k.Brings :=
  ⟨h.read, h.piece_ne_nil⟩

/-! ### One request in a buffer -/

theorem AcceptedAs.requestOf_eq {b : List UInt8} {r : Request} (h : AcceptedAs b r) :
    requestOf (b ++ [0]) b.length = some r :=
  requestOf_of_accepts (by simp) (by simp) h

theorem acceptedAs_of_requestOf {b : List UInt8} {r : Request}
    (h : requestOf (b ++ [0]) b.length = some r) : AcceptedAs b r := by
  intro out
  obtain ⟨req, hparse, hreq, -⟩ :=
    httpTryParseRequest_spec (show b.length ≤ (b ++ [0]).length by simp) (by simp) out
  rw [h] at hparse
  exact ⟨req, hparse, hreq r h⟩

/-- The start of a block has no terminator. -/
theorem IsBlock.not_infix_of_lt {b q : List UInt8} (hb : IsBlock b) (hq : q <+: b)
    (hlt : q.length < b.length) : ¬ crlfcrlf <:+: q := by
  intro h
  obtain ⟨i, hi⟩ := Option.isSome_iff_exists.1 (List.isSome_firstOcc_iff.2 h)
  obtain ⟨t, rfl⟩ := hq
  have hfit := List.firstOcc_add_length_le hi
  rw [length_crlfcrlf] at hfit
  have := List.firstOcc_append hi t
  rw [show crlfcrlf.firstOcc (q ++ t) = _ from hb, Option.some.injEq] at this
  omega

theorem responseTo_ne_nil {b : List UInt8} (hb : FileRequest cfg tree b) :
    responseTo cfg tree b ≠ [] := by
  obtain ⟨-, -, r, f, st, hacc, -, -, hs⟩ := hb
  rw [responseTo, hacc.requestOf_eq]
  dsimp only
  rw [hs]
  dsimp only
  rw [response200]
  simp [text200, ascii]

section Step

variable {c : ForgeConn} {k : Kernel} {b : List UInt8}

/-- A piece that leaves a block open waits for more. -/
theorem handleRead_open (hc : ConnInv c) (hk : k.Brings) (hb : IsBlock b)
    (hq : c.received ++ k.piece <+: b)
    (hlt : (c.received ++ k.piece).length < b.length)
    (hfit : c.rlen + k.piece.length < recvBuf - 1) :
    handleRead cfg k c = ⟨readCall c k.piece, none, .registered (c.receive k.piece)⟩ := by
  have hend : ¬ crlfcrlf <:+: (c.receive k.piece).received := by
    rw [received_receive (by omega)]
    exact hb.not_infix_of_lt hq hlt
  exact handleRead_more hc hk.1 hk.2 hfit (requestOf_of_not_mem hend)

/-- The piece leaves the request open. -/
theorem step_open (hc : ConnInv c) (hk : Delivers cfg tree k) (hb : FileRequest cfg tree b)
    (hq : c.received ++ k.piece <+: b) (hlt : (c.received ++ k.piece).length < b.length) :
    handleRead cfg k c = ⟨readCall c k.piece, none, .registered (c.receive k.piece)⟩ := by
  have hR := recvBuf_eq
  have hrlen := hc.rlen_le
  have hmax := hb.2.1
  refine handleRead_open hc hk.brings hb.1 hq hlt ?_
  rw [List.length_append, length_received (by omega)] at hlt
  omega

/-- A block accepted on its own is the request in the buffer, once its last byte is received. -/
theorem requestOf_receive_block (hc : ConnInv c) (hb : IsBlock b) {r : Request}
    (hreq : requestOf (b ++ [0]) b.length = some r) {x rest : List UInt8}
    (hq : c.received ++ x = b ++ rest) (hfit : c.rlen + x.length < recvBuf - 1) :
    requestOf (c.receive x).rbuf.bytes (c.receive x).rlen = some r ∧
      r.headerBytes = b.length := by
  have hR := recvBuf_eq
  have hbytes : (c.receive x).rbuf.bytes =
      b ++ (rest ++ c.rbuf.bytes.drop (c.rlen + x.length)) := by
    rw [bytes_receive (by omega), hq, List.append_assoc]
  have h0 : 0 ∈ b ++ (rest ++ c.rbuf.bytes.drop (c.rlen + x.length)) := by
    rw [← hbytes]
    exact zero_mem_of_last (last_receive (by omega) hc.last)
  have hble : b.length ≤ c.rlen + x.length := by
    have hlen := congrArg List.length hq
    rw [List.length_append, List.length_append, length_received (by have := hc.rlen_le; omega)]
      at hlen
    omega
  rw [hbytes, receive_rlen]
  have hhere := requestOf_append hb hreq h0 hble
  exact ⟨hhere, headerBytes_of_block hb h0 hble hhere⟩

/-- **The piece completes the request**, and may go on: it is answered, and the buffer is empty. -/
theorem step_answer (hc : ConnInv c) (hk : Delivers cfg tree k) (hb : FileRequest cfg tree b)
    {rest : List UInt8} (hq : c.received ++ k.piece = b ++ rest)
    (hfit : c.rlen + k.piece.length < recvBuf - 1) :
    ∃ r, accepted k c = some r ∧ r.headerBytes = b.length ∧
      written c.fd (handleRead cfg k c).calls = responseTo cfg tree b ∧
      (handleRead cfg k c).next = .registered ((c.receive k.piece).reset r.headerBytes) := by
  have hR := recvBuf_eq
  obtain ⟨hblock, -, r, f, st, hacc, hget, hka, hs⟩ := hb
  have hreq := hacc.requestOf_eq
  obtain ⟨hhere, hhdr⟩ := requestOf_receive_block hc hblock hreq hq hfit
  rw [← hk.openFile] at hs
  have hrc : (sendOpened k c.fd (fsName cfg.docRoot r.path) f st r.keepAlive).rc = some 0 :=
    rc_sendOpened_of_completes k c.fd hk.write (hk.sendfile _ f st (hk.openFile ▸ hs))
  have hcall : handleRead cfg k c = ⟨readCall c k.piece ++
      fileCalls k c.fd (fsName cfg.docRoot r.path) f st r.keepAlive, some r,
        .registered ((c.receive k.piece).reset r.headerBytes)⟩ := by
    rw [handleRead_request hc hk.read hk.piece_ne_nil hfit hhere, answer,
      if_neg (not_not.2 hget), receive_fd, httpSendStaticFile_of_servable hs]
    dsimp only
    rw [hrc]
    dsimp only
    rw [if_pos ⟨hka, Int.le_refl 0⟩]
    rfl
  refine ⟨r, ?_, hhdr, ?_, by rw [hcall]⟩
  · rw [← request_handleRead hc cfg k, hcall]
  · have hread : written c.fd (readCall c k.piece) = [] := rfl
    rw [hcall]
    dsimp only
    rw [written_append, hread, List.nil_append, written_fileCalls,
      (written_sendOpened k c.fd _ f st r.keepAlive).2.1 hrc, responseTo, hreq]
    dsimp only
    rw [← hk.openFile, hs, hka]

/-- The piece fills the buffer. -/
theorem step_full (hc : ConnInv c) (hk : k.Brings)
    (hfit : c.rlen + k.piece.length ≤ recvBuf - 1)
    (hfull : recvBuf - 1 ≤ c.rlen + k.piece.length) :
    written c.fd (handleRead cfg k c).calls = [] ∧ (handleRead cfg k c).next = .closed := by
  rw [handleRead_bytes hc hk.1 hk.2 hfit, consider, if_pos (by exact hfull)]
  exact ⟨written_closeTurn .., rfl⟩

end Step

/-! ### The whole stream -/

variable (cfg tree)

/-- The events of a list of deliveries. -/
def reads (ks : List Kernel) : List ConnEvent := ks.map .readable

/-- **No request is lost**: the run on the deliveries goes through, it puts one response for each
request on the socket, in the order of the requests, and every byte behind a request is kept. -/
def Lossless (c : ForgeConn) (ks : List Kernel) (reqs : List (List UInt8)) : Prop :=
  (∃ ts s, (connMachine cfg).run (.registered c) (reads ks) = some (ts, s) ∧
    written c.fd (ts.flatMap Turn.calls) = reqs.flatMap (responseTo cfg tree)) ∧
  (connMachine cfg).Meets (KeepsRest cfg) (.registered c) (reads ks)

variable {cfg tree}

section Deliveries

variable {c d : ForgeConn} {k : Kernel} {ks : List Kernel} {b : List UInt8}
  {reqs reqs' : List (List UInt8)}

theorem meets_reads_cons {C : ConnState → ConnEvent → Prop}
    (hnext : (handleRead cfg k c).next = .registered d) :
    (connMachine cfg).Meets C (.registered c) (reads (k :: ks)) ↔
      C (.registered c) (.readable k) ∧ (connMachine cfg).Meets C (.registered d) (reads ks) :=
  meets_cons (step_readable hnext)

/-- A delivery that loses nothing, and those that follow it. -/
theorem lossless_cons (hnext : (handleRead cfg k c).next = .registered d) (hfd : d.fd = c.fd)
    (hw : written c.fd (handleRead cfg k c).calls ++ reqs'.flatMap (responseTo cfg tree) =
      reqs.flatMap (responseTo cfg tree))
    (hkeeps : KeepsRest cfg (.registered c) (.readable k)) :
    Lossless cfg tree c (k :: ks) reqs ↔ Lossless cfg tree d ks reqs' := by
  refine and_congr ?_ ((meets_reads_cons hnext).trans (and_iff_right hkeeps))
  constructor
  · rintro ⟨ts, s, hrun, hout⟩
    rw [reads, List.map_cons, run_cons_of_step _ (step_readable hnext),
      Option.map_eq_some_iff] at hrun
    obtain ⟨⟨us, s'⟩, hrun, heq⟩ := hrun
    simp only [Prod.mk.injEq] at heq
    obtain ⟨rfl, rfl⟩ := heq
    refine ⟨us, s', hrun, ?_⟩
    rw [List.flatMap_cons, written_append, ← hw, List.append_cancel_left_eq] at hout
    rw [hfd, hout]
  · rintro ⟨us, s, hrun, hout⟩
    refine ⟨handleRead cfg k c :: us, s, ?_, ?_⟩
    · rw [reads, List.map_cons, run_cons_of_step _ (step_readable hnext)]
      exact Option.map_eq_some_iff.2 ⟨_, hrun, rfl⟩
    · rw [List.flatMap_cons, written_append, ← hw, ← hout, hfd]

variable (ks reqs) in
/-- The piece leaves the request open. -/
theorem lossless_open (hc : ConnInv c) (hk : Delivers cfg tree k) (hb : FileRequest cfg tree b)
    (hq : c.received ++ k.piece <+: b) (hlt : (c.received ++ k.piece).length < b.length) :
    (handleRead cfg k c).next = .registered (c.receive k.piece) ∧
      (Lossless cfg tree c (k :: ks) reqs ↔ Lossless cfg tree (c.receive k.piece) ks reqs) := by
  have hcall := step_open hc hk hb hq hlt
  have hnext : (handleRead cfg k c).next = .registered (c.receive k.piece) := by rw [hcall]
  refine ⟨hnext, lossless_cons hnext rfl (by rw [hcall]; rfl) ?_⟩
  rintro d r hd hr
  rw [← ConnState.registered.inj hd, show (ConnEvent.readable k).kernel = k from rfl,
    ← request_handleRead hc cfg k, hcall] at hr
  exact absurd hr (by simp)

variable (ks reqs) in
/-- The request ends with the piece. -/
theorem lossless_end (hc : ConnInv c) (hk : Delivers cfg tree k) (hb : FileRequest cfg tree b)
    (hq : c.received ++ k.piece = b) (hfit : c.rlen + k.piece.length < recvBuf - 1) :
    (handleRead cfg k c).next = .registered ((c.receive k.piece).reset b.length) ∧
      (Lossless cfg tree c (k :: ks) (b :: reqs) ↔
        Lossless cfg tree ((c.receive k.piece).reset b.length) ks reqs) := by
  obtain ⟨r, hacc, hhdr, hw, hnext⟩ := step_answer hc hk hb
    (show c.received ++ k.piece = b ++ [] by rw [hq, List.append_nil]) hfit
  rw [hhdr] at hnext
  refine ⟨hnext, lossless_cons hnext rfl (by rw [hw, List.flatMap_cons]) ?_⟩
  rintro d r' hd hr
  rw [← ConnState.registered.inj hd] at hr ⊢
  obtain rfl := Option.some.inj (hacc.symm.trans hr)
  refine ⟨_, hnext, ?_⟩
  rw [received_reset, show (ConnEvent.readable k).kernel = k from rfl, hq, hhdr, List.drop_length]

/-- **The piece goes past the end of the request**: its rest is lost, or the buffer is full and the
request is. -/
theorem not_lossless_past (hc : ConnInv c) (hk : Delivers cfg tree k) (hb : FileRequest cfg tree b)
    (hq : b <+: c.received ++ k.piece) (hlt : b.length < (c.received ++ k.piece).length)
    (hfit : c.rlen + k.piece.length ≤ recvBuf - 1) :
    ¬ Lossless cfg tree c (k :: ks) (b :: reqs) := by
  rintro ⟨⟨ts, s, hrun, hout⟩, hkeeps⟩
  obtain ⟨rest, hq⟩ := hq
  rcases Nat.lt_or_ge (c.rlen + k.piece.length) (recvBuf - 1) with hroom | hfull
  · -- what is left in the buffer is nothing, so the rest was nothing
    obtain ⟨r, hacc, hhdr, -, hnext⟩ := step_answer hc hk hb hq.symm hroom
    obtain ⟨d, hd, hrecv⟩ := hkeeps.1 c r rfl hacc
    rw [show (ConnEvent.readable k).kernel = k from rfl, hnext] at hd
    rw [← ConnState.registered.inj hd, received_reset, hhdr,
      show (ConnEvent.readable k).kernel = k from rfl, ← hq, List.drop_left] at hrecv
    rw [← hq, ← hrecv, List.append_nil] at hlt
    omega
  · -- the connection is closed, and no later event writes a response
    obtain ⟨hw, hnext⟩ := step_full hc hk.brings hfit hfull
    obtain ⟨t, s₁, ts', hstep, hrun', rfl⟩ := ((connMachine cfg).run_cons_eq_some).1 hrun
    obtain ⟨c', hc', rfl, rfl⟩ := connMachine_step.1 hstep
    obtain rfl := ConnState.registered.inj hc'
    rw [clientEvent_readable, hnext] at hrun'
    obtain ⟨-, rfl, -⟩ := eq_of_run_of_stopped (fun _ ↦ rfl) hrun'
    rw [List.flatMap_cons, List.flatMap_nil, List.append_nil, clientEvent_readable, hw] at hout
    exact responseTo_ne_nil hb (List.append_eq_nil_iff.1 hout.symm).1

/-- **The stream from any point on**, with the open part of the first request in the buffer. -/
theorem lossless_iff_endsAtCuts (hc : ConnInv c) (hks : ∀ k ∈ ks, Delivers cfg tree k)
    (hreqs : ∀ b ∈ reqs, FileRequest cfg tree b)
    (hstream : c.received ++ (ks.map Kernel.piece).flatten = reqs.flatten)
    (hopen : ∀ b ∈ reqs.head?, c.received.length < b.length)
    (hfit : (connMachine cfg).Meets PieceFits (.registered c) (reads ks)) :
    Lossless cfg tree c ks reqs ↔ List.EndsAtCuts c.received (ks.map Kernel.piece) reqs := by
  have hR := recvBuf_eq
  induction ks generalizing c reqs with
  | nil =>
    have hreqs : reqs = [] := by
      rcases reqs with - | ⟨b, reqs⟩
      · rfl
      · have hlen := congrArg List.length hstream
        have hlt := hopen b rfl
        simp only [List.map_nil, List.flatten_nil, List.append_nil, List.flatten_cons,
          List.length_append] at hlen
        omega
    subst hreqs
    exact iff_of_true ⟨⟨[], _, rfl, rfl⟩, trivial⟩ List.endsAtCuts_no_message
  | cons k ks ih =>
    obtain ⟨hk, hks⟩ := List.forall_mem_cons.1 hks
    have hrlen := hc.rlen_le
    have hlen := length_received (show c.rlen ≤ recvBuf by omega)
    have hpiece : c.rlen + k.piece.length ≤ recvBuf - 1 := hfit.1 c rfl
    have hlen' : (c.received ++ k.piece).length = c.rlen + k.piece.length := by
      rw [List.length_append, hlen]
    rw [List.map_cons, List.flatten_cons, ← List.append_assoc] at hstream
    rcases reqs with - | ⟨b, reqs⟩
    · have := (List.append_eq_nil_iff.1 (List.append_eq_nil_iff.1 hstream).1).2
      exact absurd this hk.piece_ne_nil
    obtain ⟨hb, hreqs'⟩ := List.forall_mem_cons.1 hreqs
    have hmax := hb.2.1
    rw [List.map_cons, List.endsAtCuts_cons (hopen b rfl)]
    rw [List.flatten_cons] at hstream
    rcases Nat.lt_trichotomy (c.received ++ k.piece).length b.length with hcase | hcase | hcase
    · -- the request is still open behind the piece
      have hq : c.received ++ k.piece <+: b :=
        List.prefix_of_prefix_length_le ⟨_, hstream⟩ (List.prefix_append _ _) hcase.le
      obtain ⟨hnext, hstep⟩ := lossless_open ks (b :: reqs) hc hk hb hq hcase
      have hrecv := received_receive (show c.rlen + k.piece.length ≤ recvBuf by omega)
      have hinv : ConnInv (c.receive k.piece) := hc.receive (by rw [receive_rlen]; omega)
      rw [hstep, ← hrecv]
      refine ih hinv hks hreqs (by rw [hrecv]; exact hstream) (fun b' hb' ↦ ?_)
        ((meets_reads_cons hnext).1 hfit).2
      rw [hrecv, ← Option.some.inj hb']
      exact hcase
    · -- it ends where the piece ends
      obtain ⟨hq, hrest⟩ := List.append_inj hstream hcase
      obtain ⟨hnext, hstep⟩ := lossless_end ks reqs hc hk hb hq (by omega)
      have hinv : ConnInv (c.receive k.piece) := hc.receive (by rw [receive_rlen]; omega)
      rw [hstep, hq, List.endsAtCuts_self]
      refine ih (hinv.reset b.length) hks hreqs' hrest (fun b' hb' ↦ ?_)
        ((meets_reads_cons hnext).1 hfit).2
      have := (hreqs' b' (List.mem_of_mem_head? hb')).1.four_le_length
      rw [received_reset, List.length_nil]
      omega
    · -- the piece goes past its end
      have hq : b <+: c.received ++ k.piece :=
        List.prefix_of_prefix_length_le ⟨_, hstream.symm⟩ (List.prefix_append _ _) hcase.le
      exact iff_of_false (not_lossless_past hc hk hb hq hcase hpiece) (List.not_endsAtCuts hcase)

end Deliveries

/-- **When no request on a keep-alive connection is lost.** A stream of requests for files, cut into
the pieces that `read` returns, is answered one response for each request, in order, with every byte
behind a request kept, exactly when every request ends where a piece ends. -/
theorem pipelining_iff (cfg : ForgeCfg) (fd : ℤ) (c : ForgeConn)
    (hc : (ConnState.registered c).Reachable cfg fd) (hrlen : c.rlen = 0)
    (tree : List UInt8 → Option File) (reqs : List (List UInt8))
    (hreqs : ∀ b ∈ reqs, FileRequest cfg tree b) (ks : List Kernel)
    (hks : ∀ k ∈ ks, Delivers cfg tree k)
    (hstream : (ks.map Kernel.piece).flatten = reqs.flatten)
    (hfit : (connMachine cfg).Meets PieceFits (.registered c) (reads ks)) :
    Lossless cfg tree c ks reqs ↔ List.EndsAtCuts [] (ks.map Kernel.piece) reqs := by
  have hempty : c.received = [] := by
    rw [ForgeConn.received, hrlen]
    rfl
  rw [← hempty]
  refine lossless_iff_endsAtCuts (reachable_registered hc).1 hks hreqs
    (by rw [hempty]; exact hstream) (fun b hb ↦ ?_) hfit
  have := (hreqs b (List.mem_of_mem_head? hb)).1.four_le_length
  rw [hempty, List.length_nil]
  omega

/-- A kernel with one file, whatever its name, that moves it as a whole. -/
theorem delivers_one (cfg : ForgeCfg) {k : Kernel} {f : File} {st : Stat} (hk : k.Brings)
    (hopen : k.openFile = fun _ ↦ some f) (hwrite : hdrBuf - 1 ≤ k.write.done)
    (hstat : f.stat = some st) (hsend : Completes k.sendfile st.size) :
    Delivers cfg (fun _ ↦ some f) k where
  read := hk.1
  piece_ne_nil := hk.2
  openFile := hopen
  write := hwrite
  sendfile := by
    intro path f' st' hs
    obtain ⟨-, hf, hst⟩ := servable_eq_some.1 hs
    obtain rfl := Option.some.inj hf
    obtain rfl := Option.some.inj (hstat.symm.trans (Option.filter_eq_some_iff.1 hst).1)
    exact hsend

theorem delivers_serving (cfg : ForgeCfg) {bs : List UInt8} (hbs : bs ≠ []) :
    Delivers cfg (fun _ ↦ some emptyFile) (.serving bs) :=
  delivers_one cfg ⟨rfl, hbs⟩ rfl (Nat.sub_le hdrBuf 1) rfl
    ⟨[], List.nil_prefix, by simp, Nat.le_refl 0⟩

theorem fileRequest_a : FileRequest {} (fun _ ↦ some emptyFile) (ascii "GET /a HTTP/1.1\r\n\r\n") :=
  ⟨by decide, by decide, ⟨ascii "GET", ascii "/a", ascii "HTTP/1.1", true, 19⟩, emptyFile, _,
    acceptedAs_of_requestOf (by decide +kernel), rfl, rfl,
    servable_eq_some.2 ⟨by decide, rfl, rfl⟩⟩

theorem fileRequest_b : FileRequest {} (fun _ ↦ some emptyFile) (ascii "GET /b HTTP/1.1\r\n\r\n") :=
  ⟨by decide, by decide, ⟨ascii "GET", ascii "/b", ascii "HTTP/1.1", true, 19⟩, emptyFile, _,
    acceptedAs_of_requestOf (by decide +kernel), rfl, rfl,
    servable_eq_some.2 ⟨by decide, rfl, rfl⟩⟩

/-- Two requests, each in a `read` of its own. -/
theorem pipelining_two :
    Lossless {} (fun _ ↦ some emptyFile) (.fresh 5)
      [.serving (ascii "GET /a HTTP/1.1\r\n\r\n"), .serving (ascii "GET /b HTTP/1.1\r\n\r\n")]
      [ascii "GET /a HTTP/1.1\r\n\r\n", ascii "GET /b HTTP/1.1\r\n\r\n"] := by
  have hka := delivers_serving {} (show ascii "GET /a HTTP/1.1\r\n\r\n" ≠ [] by decide)
  have hkb := delivers_serving {} (show ascii "GET /b HTTP/1.1\r\n\r\n" ≠ [] by decide)
  obtain ⟨hnext, -⟩ := lossless_end [] [] (ConnInv.fresh 5) hka fileRequest_a rfl (by decide)
  refine (pipelining_iff {} 5 (.fresh 5) (Machine.Reachable.refl _ _) rfl _ _
    (List.forall_mem_cons.2 ⟨fileRequest_a, List.forall_mem_cons.2 ⟨fileRequest_b, by simp⟩⟩) _
    (List.forall_mem_cons.2 ⟨hka, List.forall_mem_cons.2 ⟨hkb, by simp⟩⟩) rfl ?_).2
    fun i _ _ ↦ ⟨i, List.nil_append _⟩
  refine (meets_reads_cons hnext).2 ⟨fun c hc ↦ ?_, fun c hc ↦ ?_, fun _ _ _ ↦ trivial⟩
  · rw [← ConnState.registered.inj hc]
    decide
  · rw [← ConnState.registered.inj hc, reset_rlen]
    decide

/-- Two requests in one `read`: the second is lost. -/
theorem pipelining_lost :
    (∀ b ∈ [ascii "GET /a HTTP/1.1\r\n\r\n", ascii "GET /b HTTP/1.1\r\n\r\n"],
        FileRequest {} (fun _ ↦ some emptyFile) b) ∧
      Delivers {} (fun _ ↦ some emptyFile)
        (.serving (ascii "GET /a HTTP/1.1\r\n\r\nGET /b HTTP/1.1\r\n\r\n")) ∧
      (connMachine {}).Meets PieceFits (.registered (.fresh 5))
        (reads [.serving (ascii "GET /a HTTP/1.1\r\n\r\nGET /b HTTP/1.1\r\n\r\n")]) ∧
      ¬ Lossless {} (fun _ ↦ some emptyFile) (.fresh 5)
        [.serving (ascii "GET /a HTTP/1.1\r\n\r\nGET /b HTTP/1.1\r\n\r\n")]
        [ascii "GET /a HTTP/1.1\r\n\r\n", ascii "GET /b HTTP/1.1\r\n\r\n"] := by
  have hk := delivers_serving {}
    (show ascii "GET /a HTTP/1.1\r\n\r\nGET /b HTTP/1.1\r\n\r\n" ≠ [] by decide)
  refine ⟨List.forall_mem_cons.2 ⟨fileRequest_a, List.forall_mem_cons.2 ⟨fileRequest_b, by simp⟩⟩,
    hk, ⟨fun c hc ↦ ?_, fun _ _ _ ↦ trivial⟩,
    not_lossless_past (ConnInv.fresh 5) hk fileRequest_a (by decide) (by decide) (by decide)⟩
  rw [← ConnState.registered.inj hc]
  decide

end ForgeServer
