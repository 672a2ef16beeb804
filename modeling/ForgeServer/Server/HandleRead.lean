import ForgeServer.Http.Request
import ForgeServer.Http.Static

/-!
# `handle_read`

One call of `handle_read` of `worker.c`, with `conn_close` at its end. The `for (;;)` of the source
leaves by `break` on every path of its first iteration, so a call is one pass.

`handleRead` is the code, with its checked accesses: `ConnState.fault` is an access outside an
object. `turnOf` says what a call does on a connection that satisfies the buffer invariant
`ConnInv`, in terms of the request the buffer holds; `handleRead_eq` is the refinement, and from
there on nothing unfolds the code. The invariant is what makes the two agree: the last byte of
`rbuf` is never written, so every scan meets a NUL.
-/

namespace ForgeServer

open CStr

/-- Where a connection is after a call. -/
inductive ConnState
  /-- Registered with the event loop. -/
  | registered (c : ForgeConn)
  /-- Closed and freed. -/
  | closed
  /-- Inside the `sendfile` loop of a call that has not returned. -/
  | sending
  /-- An access left its object. -/
  | fault
deriving DecidableEq

/-- One call: its system calls, the request it accepted, and where it leaves the connection. -/
structure Turn where
  calls : List Sys
  request : Option Request
  next : ConnState
deriving DecidableEq

/-! ### The code -/

/-- `conn_close`. -/
def connClose (c : ForgeConn) : List Sys :=
  (if 0 ≤ c.fd then [.epollDel c.fd, .close c.fd] else []) ++ [.free]

/-- `if (!c->keep_alive) conn_close(c, ep);` -/
def finishRead (c : ForgeConn) (calls : List Sys) (request : Option Request) : Turn :=
  if !c.keepAlive then ⟨calls ++ connClose c, request, .closed⟩
  else ⟨calls, request, .registered c⟩

/-- From `// serve` on: the response to a GET, then the reset of the buffer. -/
def serveGet (cfg : ForgeCfg) (k : Kernel) (c : ForgeConn) (req : HttpReq) (calls : List Sys) :
    Turn :=
  match cstr req.path.bytes with
  | none => ⟨calls, none, .fault⟩
  | some path =>
    let sent := httpSendStaticFile k c.fd cfg.docRoot path c.keepAlive
    match sent.rc with
    | none => ⟨calls ++ sent.calls, req.request, .sending⟩
    | some rc =>
      let c := if rc < 0 then { c with keepAlive := false } else c
      let remain := sizeSub c.rlen req.headerBytes
      match (if 0 < remain then c.rbuf.memmove 0 req.headerBytes remain else some c.rbuf) with
      | none => ⟨calls ++ sent.calls, req.request, .fault⟩
      | some rbuf => finishRead { c with rbuf := rbuf, rlen := 0 } (calls ++ sent.calls) req.request

/-- What follows a successful read: the check for a full buffer, the parse, the method. -/
def afterRead (cfg : ForgeCfg) (k : Kernel) (c : ForgeConn) (calls : List Sys) : Turn :=
  if recvBuf - 1 ≤ c.rlen then finishRead { c with keepAlive := false } calls none
  else
    match httpTryParseRequest c.rbuf.bytes c.rlen k.stack with
    | none => ⟨calls, none, .fault⟩
    | some (false, _) => finishRead c calls none  -- need more bytes
    | some (true, req) =>
      match cstr req.method.bytes with
      | none => ⟨calls, none, .fault⟩
      | some method =>
        if method ≠ ascii "GET" then
          finishRead { c with keepAlive := false } (calls ++ httpSend400 k c.fd) req.request
        else serveGet cfg k { c with keepAlive := req.keepAlive } req calls

/-- The length passed to `read`. -/
def readCount (c : ForgeConn) : ℕ := sizeSub (sizeSub recvBuf c.rlen) 1

/-- `handle_read`. -/
def handleRead (cfg : ForgeCfg) (k : Kernel) (c : ForgeConn) : Turn :=
  match k.read with
  | .error e =>
    let calls := [.read c.fd c.rlen (readCount c) (.error e)]
    if e.wouldBlock then finishRead c calls none
    else finishRead { c with keepAlive := false } calls none
  | .bytes bs =>
    let got := bs.take (readCount c)
    let calls := [.read c.fd c.rlen (readCount c) (.bytes got)]
    if got = [] then finishRead { c with keepAlive := false } calls none
    else
      match c.rbuf.store c.rlen got with
      | none => ⟨calls, none, .fault⟩
      | some rbuf => afterRead cfg k { c with rbuf := rbuf, rlen := c.rlen + got.length } calls

/-! ### The buffer invariant -/

/-- **The invariant of a registered connection**: it is kept alive, the buffer has room for one more
byte, and its last byte is NUL. -/
structure ConnInv (c : ForgeConn) : Prop where
  keepAlive : c.keepAlive = true
  rlen_le : c.rlen ≤ recvBuf - 2
  last : c.rbuf.bytes[recvBuf - 1]? = some 0

theorem ConnInv.fresh (fd : ℤ) : ConnInv (ForgeConn.fresh fd) where
  keepAlive := rfl
  rlen_le := Nat.zero_le _
  last := by
    show (List.replicate recvBuf (0 : UInt8))[recvBuf - 1]? = some 0
    rw [List.getElem?_replicate, recvBuf_eq, if_pos (by omega)]

/-- A buffer whose last byte is NUL holds a NUL. -/
theorem zero_mem_of_last {a : Buf recvBuf} (h : a.bytes[recvBuf - 1]? = some 0) : 0 ∈ a.bytes :=
  List.mem_of_getElem? h

theorem readCount_eq {c : ForgeConn} (hc : c.rlen ≤ recvBuf - 1) :
    readCount c = recvBuf - 1 - c.rlen := by
  have hR := recvBuf_eq
  have h₁ : sizeSub recvBuf c.rlen = recvBuf - c.rlen := sizeSub_eq (by omega)
  rw [readCount, h₁, sizeSub_eq (by omega)]
  omega

/-! ### Receiving and resetting -/

/-- A connection after bytes have been read behind those it holds. -/
def ForgeConn.receive (c : ForgeConn) (got : List UInt8) : ForgeConn :=
  { c with rbuf := (c.rbuf.store c.rlen got).getD c.rbuf, rlen := c.rlen + got.length }

/-- A connection after a request with a header of `n` bytes has been served: what was left is moved
to the front and forgotten. -/
def ForgeConn.reset (c : ForgeConn) (n : ℕ) : ForgeConn :=
  { c with
    rbuf := if 0 < c.rlen - n then (c.rbuf.memmove 0 n (c.rlen - n)).getD c.rbuf else c.rbuf
    rlen := 0
    keepAlive := true }

section Receive

variable {c : ForgeConn} {got : List UInt8}

@[simp] theorem receive_fd : (c.receive got).fd = c.fd := rfl

@[simp] theorem receive_rlen : (c.receive got).rlen = c.rlen + got.length := rfl

@[simp] theorem receive_keepAlive : (c.receive got).keepAlive = c.keepAlive := rfl

/-- The bytes of the buffer after a read that fits. -/
theorem bytes_receive (h : c.rlen + got.length ≤ recvBuf) :
    (c.receive got).rbuf.bytes =
      c.received ++ got ++ c.rbuf.bytes.drop (c.rlen + got.length) := by
  obtain ⟨b, hb, hbytes⟩ := c.rbuf.store_eq_some c.rlen got h
  rw [ForgeConn.receive, hb]
  exact hbytes

theorem length_received (h : c.rlen ≤ recvBuf) : c.received.length = c.rlen := by
  rw [ForgeConn.received, List.length_take, c.rbuf.length_bytes]
  omega

@[simp] theorem rlen_fresh (fd : ℤ) : (ForgeConn.fresh fd).rlen = 0 := rfl

@[simp] theorem received_fresh (fd : ℤ) : (ForgeConn.fresh fd).received = [] := rfl

/-- **What is received is what was read**: the new bytes follow the old ones. -/
theorem received_receive (h : c.rlen + got.length ≤ recvBuf) :
    (c.receive got).received = c.received ++ got := by
  have hlen : c.received.length = c.rlen := length_received (by omega)
  rw [ForgeConn.received, bytes_receive h, receive_rlen]
  exact List.take_left' (by rw [List.length_append, hlen])

/-- A read leaves what is behind the new bytes as it was. -/
theorem getElem?_receive {i : ℕ} (h : c.rlen + got.length ≤ i) (hi : i < recvBuf) :
    (c.receive got).rbuf.bytes[i]? = c.rbuf.bytes[i]? := by
  have hlen : (c.received ++ got).length = c.rlen + got.length := by
    rw [List.length_append, length_received (by omega)]
  rw [bytes_receive (by omega), List.getElem?_append_right (by rw [hlen]; exact h), hlen,
    List.getElem?_drop, Nat.add_sub_cancel' h]

theorem last_receive (h : c.rlen + got.length ≤ recvBuf - 1)
    (hlast : c.rbuf.bytes[recvBuf - 1]? = some 0) :
    (c.receive got).rbuf.bytes[recvBuf - 1]? = some 0 := by
  rw [getElem?_receive h (by rw [recvBuf_eq]; omega), hlast]

@[simp] theorem reset_fd (n : ℕ) : (c.reset n).fd = c.fd := rfl

@[simp] theorem reset_rlen (n : ℕ) : (c.reset n).rlen = 0 := rfl

@[simp] theorem received_reset (n : ℕ) : (c.reset n).received = [] := rfl

@[simp] theorem reset_keepAlive (n : ℕ) : (c.reset n).keepAlive = true := rfl

/-- The bytes of the buffer after a reset: what was left is at the front, and behind it nothing has
changed. -/
theorem bytes_reset (h : c.rlen ≤ recvBuf) (n : ℕ) :
    (c.reset n).rbuf.bytes = c.received.drop n ++ c.rbuf.bytes.drop (c.rlen - n) := by
  unfold ForgeConn.reset ForgeConn.received
  dsimp only
  rw [List.drop_take]
  split
  · obtain ⟨b, hb, hbytes⟩ := c.rbuf.memmove_eq_some 0 n (c.rlen - n) (by omega) (by omega)
    rw [hb, Option.getD_some, hbytes, List.take_zero, List.nil_append, Nat.zero_add]
  · rename_i hle
    rw [Nat.eq_zero_of_not_pos hle, List.take_zero, List.nil_append, List.drop_zero]

theorem getElem?_reset {n i : ℕ} (h : c.rlen ≤ i) (hi : i < recvBuf) :
    (c.reset n).rbuf.bytes[i]? = c.rbuf.bytes[i]? := by
  have hlen : (c.received.drop n).length = c.rlen - n := by
    rw [List.length_drop, length_received (by omega)]
  rw [bytes_reset (by omega), List.getElem?_append_right (by omega), hlen, List.getElem?_drop,
    Nat.add_sub_cancel' (by omega)]

theorem last_reset {n : ℕ} (h : c.rlen ≤ recvBuf - 2)
    (hlast : c.rbuf.bytes[recvBuf - 1]? = some 0) :
    (c.reset n).rbuf.bytes[recvBuf - 1]? = some 0 := by
  have hR := recvBuf_eq
  rw [getElem?_reset (by omega) (by omega), hlast]

end Receive

/-! ### What a call does -/

/-- A turn that ends in `conn_close`. -/
def closeTurn (c : ForgeConn) (calls : List Sys) (request : Option Request) : Turn :=
  ⟨calls ++ connClose c, request, .closed⟩

/-- The answer to an accepted request, the bytes being in the buffer of `c`. -/
def answer (cfg : ForgeCfg) (k : Kernel) (c : ForgeConn) (calls : List Sys) (r : Request) : Turn :=
  if r.method ≠ ascii "GET" then closeTurn c (calls ++ httpSend400 k c.fd) (some r)
  else
    let sent := httpSendStaticFile k c.fd cfg.docRoot r.path r.keepAlive
    match sent.rc with
    | none => ⟨calls ++ sent.calls, some r, .sending⟩
    | some rc =>
      if r.keepAlive ∧ 0 ≤ rc then
        ⟨calls ++ sent.calls, some r, .registered (c.reset r.headerBytes)⟩
      else closeTurn c (calls ++ sent.calls) (some r)

/-- What follows a successful read, `c` having received the bytes. -/
def consider (cfg : ForgeCfg) (k : Kernel) (c : ForgeConn) (calls : List Sys) : Turn :=
  if recvBuf - 1 ≤ c.rlen then closeTurn c calls none
  else
    match requestOf c.rbuf.bytes c.rlen with
    | none => ⟨calls, none, .registered c⟩
    | some r => answer cfg k c calls r

/-- The bytes a call reads. -/
def readBytes (c : ForgeConn) (bs : List UInt8) : List UInt8 := bs.take (recvBuf - 1 - c.rlen)

/-- The `read` of a call that got bytes. -/
def readCall (c : ForgeConn) (got : List UInt8) : List Sys :=
  [.read c.fd c.rlen (readCount c) (.bytes got)]

/-- **What a call of `handle_read` does** on a connection that satisfies the invariant. -/
def turnOf (cfg : ForgeCfg) (k : Kernel) (c : ForgeConn) : Turn :=
  match k.read with
  | .error e =>
    let calls := [.read c.fd c.rlen (readCount c) (.error e)]
    if e.wouldBlock then ⟨calls, none, .registered c⟩ else closeTurn c calls none
  | .bytes bs =>
    let got := readBytes c bs
    if got = [] then closeTurn c (readCall c got) none
    else consider cfg k (c.receive got) (readCall c got)

/-- `conn_close` looks at the descriptor only. -/
theorem connClose_congr {c d : ForgeConn} (h : c.fd = d.fd) : connClose c = connClose d := by
  rw [connClose, connClose, h]

/-- A connection no longer kept alive is closed. -/
theorem finishRead_of_not_keepAlive {c d : ForgeConn} (h : d.keepAlive = false) (hfd : d.fd = c.fd)
    (calls : List Sys) (request : Option Request) :
    finishRead d calls request = closeTurn c calls request := by
  rw [finishRead, h, closeTurn, connClose_congr hfd]
  rfl

theorem finishRead_of_keepAlive {c : ForgeConn} (h : c.keepAlive = true) (calls : List Sys)
    (request : Option Request) :
    finishRead c calls request = ⟨calls, request, .registered c⟩ := by
  rw [finishRead, h]
  rfl

/-- The bytes read fit in front of the last byte of the buffer. -/
theorem rlen_add_length_readBytes_le {c : ForgeConn} (hc : ConnInv c) (bs : List UInt8) :
    c.rlen + (readBytes c bs).length ≤ recvBuf - 1 := by
  have hR := recvBuf_eq
  have := hc.rlen_le
  rw [readBytes, List.length_take]
  omega

/-- The move of the leftover bytes succeeds; what it leaves is the buffer of `reset`. -/
theorem memmove_eq_reset {c : ForgeConn} {n : ℕ} (hlen : c.rlen ≤ recvBuf) (hn : n ≤ c.rlen) :
    (if 0 < c.rlen - n then c.rbuf.memmove 0 n (c.rlen - n) else some c.rbuf) =
      some (c.reset n).rbuf := by
  unfold ForgeConn.reset
  dsimp only
  split
  · obtain ⟨b, hb, -⟩ := c.rbuf.memmove_eq_some 0 n (c.rlen - n) (by omega) (by omega)
    rw [hb, Option.getD_some]
  · rfl

theorem serveGet_eq {cfg : ForgeCfg} {k : Kernel} {c : ForgeConn} {req : HttpReq} {r : Request}
    {calls : List Sys} (hreq : req.request = some r) (hlen : c.rlen ≤ recvBuf - 2)
    (hhdr : r.headerBytes ≤ c.rlen) (hget : r.method = ascii "GET") :
    serveGet cfg k { c with keepAlive := req.keepAlive } req calls = answer cfg k c calls r := by
  have hR := recvBuf_eq
  obtain ⟨-, hpath, -, hka, hhb⟩ := HttpReq.request_eq_some.1 hreq
  have hremain : sizeSub c.rlen r.headerBytes = c.rlen - r.headerBytes := sizeSub_eq hhdr
  have hmove := memmove_eq_reset (show c.rlen ≤ recvBuf by omega) hhdr
  unfold serveGet answer
  simp only [hpath, hget, hka, hhb, hreq, ne_eq, not_true_eq_false, if_false]
  rcases (httpSendStaticFile k c.fd cfg.docRoot r.path r.keepAlive).rc with - | rc
  · rfl
  · dsimp only
    -- the leftover is moved whether or not the connection is kept
    by_cases hrc : rc < 0
    · simp only [hrc, if_true, hremain, hmove]
      rw [if_neg (by omega)]
      exact finishRead_of_not_keepAlive rfl rfl _ _
    · simp only [hrc, if_false, hremain, hmove]
      rcases hk : r.keepAlive with - | -
      · rw [if_neg (by simp)]
        exact finishRead_of_not_keepAlive rfl rfl _ _
      · rw [if_pos ⟨rfl, by omega⟩, finishRead_of_keepAlive rfl]
        rfl

theorem afterRead_eq {cfg : ForgeCfg} {k : Kernel} {c : ForgeConn} {calls : List Sys}
    (hka : c.keepAlive = true)
    (hlast : c.rbuf.bytes[recvBuf - 1]? = some 0) :
    afterRead cfg k c calls = consider cfg k c calls := by
  have hR := recvBuf_eq
  unfold afterRead consider
  by_cases hfull : recvBuf - 1 ≤ c.rlen
  · simp only [hfull, if_true]
    exact finishRead_of_not_keepAlive rfl rfl _ _
  · -- the NUL in the last byte is what stops `sscanf` and `strstr` in the buffer
    have h0 := zero_mem_of_last hlast
    have hbuf : c.rlen ≤ c.rbuf.bytes.length := by rw [c.rbuf.length_bytes]; omega
    obtain ⟨req, hparse, hreq, -⟩ := httpTryParseRequest_spec hbuf h0 k.stack
    simp only [hfull, if_false, hparse]
    rcases hr : requestOf c.rbuf.bytes c.rlen with - | r
    · exact finishRead_of_keepAlive hka _ _
    · have hreq' := hreq r hr
      obtain ⟨hm, -, -, -, -⟩ := HttpReq.request_eq_some.1 hreq'
      simp only [Option.isSome_some, hm, hreq']
      by_cases hget : r.method = ascii "GET"
      · simp only [hget, ne_eq, not_true_eq_false, if_false]
        exact serveGet_eq hreq' (by omega) (requestOf_spec hr).2.1 hget
      · simp only [ne_eq, hget, not_false_eq_true, if_true, answer]
        exact finishRead_of_not_keepAlive rfl rfl _ _

/-- **The code does what `turnOf` says**, with no access outside an object, on every connection that
satisfies the invariant. -/
theorem handleRead_eq {c : ForgeConn} (hc : ConnInv c) (cfg : ForgeCfg) (k : Kernel) :
    handleRead cfg k c = turnOf cfg k c := by
  have hR := recvBuf_eq
  have hrlen := hc.rlen_le
  unfold handleRead turnOf
  rcases k.read with bs | e
  · -- `RECV_BUF - c->rlen - 1` does not wrap
    have hcount : bs.take (readCount c) = readBytes c bs := by
      rw [readCount_eq (by omega), readBytes]
    have hfit := rlen_add_length_readBytes_le hc bs
    dsimp only
    rw [hcount]
    split
    · exact finishRead_of_not_keepAlive rfl rfl _ _
    · obtain ⟨b, hb, -⟩ := c.rbuf.store_eq_some c.rlen (readBytes c bs) (by omega)
      have hrecv : ({ c with rbuf := b, rlen := c.rlen + (readBytes c bs).length } : ForgeConn) =
          c.receive (readBytes c bs) := by
        rw [ForgeConn.receive, hb, Option.getD_some]
      rw [hb]
      dsimp only
      rw [hrecv]
      exact afterRead_eq hc.keepAlive (last_receive hfit hc.last)
  · dsimp only
    split
    · exact finishRead_of_keepAlive hc.keepAlive _ _
    · exact finishRead_of_not_keepAlive rfl rfl _ _

/-! ### The request of a call -/

/-- The request a call accepts: decided by the buffer and the bytes read alone. -/
def accepted (k : Kernel) (c : ForgeConn) : Option Request :=
  match k.read with
  | .error _ => none
  | .bytes bs =>
    if readBytes c bs = [] ∨ recvBuf - 1 ≤ c.rlen + (readBytes c bs).length then none
    else requestOf (c.receive (readBytes c bs)).rbuf.bytes (c.rlen + (readBytes c bs).length)

theorem request_answer (cfg : ForgeCfg) (k : Kernel) (c : ForgeConn) (calls : List Sys)
    (r : Request) : (answer cfg k c calls r).request = some r := by
  unfold answer
  dsimp only
  split
  · rfl
  · split
    · rfl
    · split <;> rfl

/-- **The request of a call is the one it accepts.** -/
theorem request_handleRead {c : ForgeConn} (hc : ConnInv c) (cfg : ForgeCfg) (k : Kernel) :
    (handleRead cfg k c).request = accepted k c := by
  rw [handleRead_eq hc]
  unfold turnOf accepted
  rcases k.read with bs | e
  · dsimp only
    by_cases hne : readBytes c bs = []
    · rw [if_pos hne, if_pos (Or.inl hne)]
      rfl
    · rw [if_neg hne, consider, receive_rlen]
      by_cases hfull : recvBuf - 1 ≤ c.rlen + (readBytes c bs).length
      · rw [if_pos hfull, if_pos (Or.inr hfull)]
        rfl
      · rw [if_neg hfull, if_neg (not_or.2 ⟨hne, hfull⟩)]
        rcases requestOf (c.receive (readBytes c bs)).rbuf.bytes _ with - | r
        · rfl
        · exact request_answer cfg k _ _ r
  · dsimp only
    split <;> rfl

section Reads

variable {cfg : ForgeCfg} {k : Kernel} {c : ForgeConn} {bs : List UInt8}

/-- What fits is read whole. -/
theorem readBytes_of_le (h : c.rlen + bs.length ≤ recvBuf - 1) : readBytes c bs = bs :=
  List.take_of_length_le (by omega)

theorem handleRead_bytes (hc : ConnInv c) (hread : k.read = .bytes bs) (hne : bs ≠ [])
    (hfit : c.rlen + bs.length ≤ recvBuf - 1) :
    handleRead cfg k c = consider cfg k (c.receive bs) (readCall c bs) := by
  rw [handleRead_eq hc, turnOf, hread]
  dsimp only
  rw [readBytes_of_le hfit, if_neg hne]

/-- Bytes that leave the buffer without a request wait for more. -/
theorem handleRead_more (hc : ConnInv c) (hread : k.read = .bytes bs) (hne : bs ≠ [])
    (hfit : c.rlen + bs.length < recvBuf - 1)
    (hreq : requestOf (c.receive bs).rbuf.bytes (c.receive bs).rlen = none) :
    handleRead cfg k c = ⟨readCall c bs, none, .registered (c.receive bs)⟩ := by
  rw [handleRead_bytes hc hread hne hfit.le, consider, hreq, if_neg (by rw [receive_rlen]; omega)]

/-- Bytes that complete a request are answered. -/
theorem handleRead_request (hc : ConnInv c) (hread : k.read = .bytes bs) (hne : bs ≠ [])
    (hfit : c.rlen + bs.length < recvBuf - 1) {r : Request}
    (hreq : requestOf (c.receive bs).rbuf.bytes (c.receive bs).rlen = some r) :
    handleRead cfg k c = answer cfg k (c.receive bs) (readCall c bs) r := by
  rw [handleRead_bytes hc hread hne hfit.le, consider, hreq, if_neg (by rw [receive_rlen]; omega)]

end Reads

end ForgeServer
