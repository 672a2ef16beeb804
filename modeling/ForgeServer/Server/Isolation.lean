import ForgeServer.Server.Pipelining

/-!
# Requests on one connection

What a request leaves in the buffer is not cleared, so `sscanf` can meet it in a later request: it
reads up to a NUL, not up to `len`. `ScanInside` is the condition under which it does not: by the
time a call sees the end of a block, the received bytes hold a NUL or all three words of the request
line and the end of the last one (`WordsDecided`), or they reach the NUL in front of the last byte
of the buffer, which no request overwrites (`TailInv`). Runs whose events meet it do the same
whatever an earlier request left behind (`stale_bytes_ignored`). `stale_bytes_read` is a run that
does not, and `stale_bytes_matter` gives one for any received bytes that do not decide the words, up
to a few bytes from the end of the buffer.
-/

namespace ForgeServer

open CStr Machine

/-! ### The end of the buffer -/

/-- The buffer invariant, and the byte in front of the last one is NUL as well: a read that reaches
it closes the connection. -/
structure TailInv (c : ForgeConn) : Prop extends ConnInv c where
  tail : c.rbuf.bytes[recvBuf - 2]? = some 0

/-- The invariant of a state. -/
def ConnState.TailInv : ConnState → Prop
  | .registered c => ForgeServer.TailInv c
  | _ => True

theorem TailInv.fresh (fd : ℤ) : TailInv (.fresh fd) where
  toConnInv := ConnInv.fresh fd
  tail := by
    show (List.replicate recvBuf (0 : UInt8))[recvBuf - 2]? = some 0
    rw [List.getElem?_replicate, recvBuf_eq, if_pos (by omega)]

theorem TailInv.receive {c : ForgeConn} (hc : TailInv c) {got : List UInt8}
    (hfit : (c.receive got).rlen < recvBuf - 1) : TailInv (c.receive got) where
  toConnInv := hc.toConnInv.receive hfit
  tail := by
    have hR := recvBuf_eq
    rw [receive_rlen] at hfit
    rw [getElem?_receive (by omega) (by omega), hc.tail]

theorem TailInv.reset {c : ForgeConn} (hc : TailInv c) (n : ℕ) : TailInv (c.reset n) where
  toConnInv := hc.toConnInv.reset n
  tail := by rw [getElem?_reset hc.rlen_le (by rw [recvBuf_eq]; omega), hc.tail]

theorem tailInv_handleRead {c : ForgeConn} (hc : TailInv c) (cfg : ForgeCfg) (k : Kernel) :
    (handleRead cfg k c).next.TailInv := by
  have ho := outcome_handleRead cfg k hc.toConnInv
  generalize handleRead cfg k c = t at ho ⊢
  cases ho with
  | waits => exact hc
  | ended => trivial
  | full => trivial
  | more bs _ _ hfit => exact hc.receive hfit
  | request bs _ _ hfit r _ t ht =>
    cases ht with
    | kept => exact (hc.receive hfit).reset _
    | _ => trivial

theorem tailInv_step {cfg : ForgeCfg} {s s' : ConnState} {e : ConnEvent} {t : Turn}
    (hs : s.TailInv) (h : (connMachine cfg).step s e = some (t, s')) : s'.TailInv := by
  obtain ⟨c, rfl, rfl, rfl⟩ := connMachine_step.1 h
  rcases clientEvent_cases cfg e c with h' | h' | h' <;> rw [h']
  · trivial
  · exact hs
  · exact tailInv_handleRead hs cfg e.kernel

theorem reachable_tailInv {cfg : ForgeCfg} {fd : ℤ} {c : ForgeConn}
    (h : (ConnState.registered c).Reachable cfg fd) : TailInv c :=
  Machine.Reachable.invariant (P := ConnState.TailInv) h (TailInv.fresh fd)
    fun _ _ _ _ ↦ tailInv_step

/-- A buffer whose received bytes reach the NUL in front of the last byte. -/
theorem TailInv.bytes_eq {c : ForgeConn} (hc : TailInv c) (hrlen : c.rlen = recvBuf - 2) :
    c.rbuf.bytes = c.received ++ [0, 0] := by
  have hR := recvBuf_eq
  have hlen := c.rbuf.length_bytes
  obtain ⟨h₂, htail⟩ := List.getElem?_eq_some_iff.1 hc.tail
  obtain ⟨h₁, hlast⟩ := List.getElem?_eq_some_iff.1 hc.last
  have hdrop : c.rbuf.bytes.drop (recvBuf - 2) = [0, 0] := by
    rw [List.drop_eq_getElem_cons h₂, htail, show recvBuf - 2 + 1 = recvBuf - 1 by omega,
      List.drop_eq_getElem_cons h₁, hlast, List.drop_eq_nil_of_le (by omega)]
  rw [ForgeConn.received, hrlen, ← hdrop, List.take_append_drop]

/-! ### Connections that look alike -/

/-- Equal but for the bytes of the buffer that were not received. -/
structure Alike (c d : ForgeConn) : Prop where
  left : TailInv c
  right : TailInv d
  fd : c.fd = d.fd
  rlen : c.rlen = d.rlen
  received : c.received = d.received

/-- States of connections that look alike. -/
def ConnState.Alike : ConnState → ConnState → Prop
  | .registered c, .registered d => ForgeServer.Alike c d
  | .closed, .closed => True
  | .sending, .sending => True
  | _, _ => False

/-- Calls that decide alike: the same system calls, the same request, and connections that are both
kept, and look alike, or both closed. -/
structure Turn.Alike (t u : Turn) : Prop where
  calls : t.calls = u.calls
  request : t.request = u.request
  next : t.next.Alike u.next

section Alike

variable {c d : ForgeConn}

theorem alike_closeTurn (h : c.fd = d.fd) (calls : List Sys) (r : Option Request) :
    (closeTurn c calls r).Alike (closeTurn d calls r) :=
  ⟨by rw [closeTurn, closeTurn, connClose_congr h], rfl, trivial⟩

theorem Alike.readBytes_eq (h : Alike c d) (bs : List UInt8) : readBytes c bs = readBytes d bs := by
  rw [readBytes, readBytes, h.rlen]

theorem Alike.readCount_eq (h : Alike c d) : readCount c = readCount d := by
  rw [readCount, readCount, h.rlen]

theorem Alike.readCall_eq (h : Alike c d) (got : List UInt8) : readCall c got = readCall d got := by
  rw [readCall, readCall, h.fd, h.rlen, h.readCount_eq]

/-- Receiving the same bytes keeps connections alike. -/
theorem Alike.receive (h : Alike c d) {bs : List UInt8}
    (hfit : c.rlen + (readBytes c bs).length < recvBuf - 1) :
    Alike (c.receive (readBytes c bs)) (d.receive (readBytes c bs)) where
  left := h.left.receive hfit
  right := by
    rw [h.readBytes_eq bs]
    exact h.right.receive (by rw [receive_rlen, ← h.readBytes_eq bs, ← h.rlen]; exact hfit)
  fd := h.fd
  rlen := by rw [receive_rlen, receive_rlen, h.rlen]
  received := by
    rw [received_receive (by omega), received_receive (by rw [← h.rlen]; omega), h.received]

/-- After a reset connections are alike whatever was received. -/
theorem Alike.reset (h : Alike c d) (n : ℕ) : Alike (c.reset n) (d.reset n) where
  left := h.left.reset n
  right := h.right.reset n
  fd := h.fd
  rlen := rfl
  received := rfl

/-- **The same request** is in the buffers of connections that look alike, if there is no block, or
the received bytes decide the words or reach the NUL in front of the last byte. -/
theorem Alike.requestOf_eq (h : Alike c d)
    (hdec : crlfcrlf <:+: c.received → c.rlen = recvBuf - 2 ∨ WordsDecided c.received) :
    requestOf c.rbuf.bytes c.rlen = requestOf d.rbuf.bytes d.rlen := by
  have hR := recvBuf_eq
  have hsplit : ∀ x : ForgeConn, x.rbuf.bytes = x.received ++ x.rbuf.bytes.drop x.rlen :=
    fun x ↦ (List.take_append_drop _ _).symm
  by_cases hfull : c.rlen = recvBuf - 2
  · rw [h.left.bytes_eq hfull, h.right.bytes_eq (h.rlen ▸ hfull), h.received, h.rlen]
  have hc := h.left.rlen_le
  have h0c := zero_mem_of_last h.left.last
  have h0d := zero_mem_of_last h.right.last
  have hlen : c.received.length = c.rlen := length_received (by omega)
  rw [hsplit c] at h0c
  rw [hsplit d, ← h.received] at h0d
  rw [hsplit c, hsplit d, ← h.received, ← h.rlen, ← hlen]
  refine requestOf_congr ?_ (by rwa [hlen]) (by rwa [hlen, h.rlen])
  by_cases hend : crlfcrlf <:+: c.received
  · exact Or.inl ((hdec hend).resolve_left hfull)
  · exact Or.inr hend

/-- **The same request is answered alike.** -/
theorem Alike.answer (h : Alike c d) (cfg : ForgeCfg) (k : Kernel) (calls : List Sys)
    (r : Request) : (answer cfg k c calls r).Alike (answer cfg k d calls r) := by
  unfold ForgeServer.answer
  dsimp only
  rw [h.fd]
  split
  · exact alike_closeTurn h.fd _ _
  · split
    · exact ⟨rfl, rfl, trivial⟩
    · split
      · exact ⟨rfl, rfl, h.reset _⟩
      · exact alike_closeTurn h.fd _ _

end Alike

/-! ### The condition -/

/-- If a call sees the end of a block, the buffer is full, or the received bytes reach the NUL in
front of the last byte, or they decide the words. -/
def ScanInside (k : Kernel) (c : ForgeConn) : Prop :=
  ∀ bs, k.read = .bytes bs → readBytes c bs ≠ [] →
    c.rlen + (readBytes c bs).length < recvBuf - 1 →
    crlfcrlf <:+: (c.receive (readBytes c bs)).received →
    c.rlen + (readBytes c bs).length = recvBuf - 2 ∨
      WordsDecided (c.receive (readBytes c bs)).received

/-- The condition on an event. -/
def EventInside (s : ConnState) (e : ConnEvent) : Prop :=
  ∀ c, s = .registered c → e.Reads → ScanInside e.kernel c

/-- **Connections that look alike do the same** in a call that meets the condition. -/
theorem alike_handleRead {c d : ForgeConn} (h : Alike c d) (cfg : ForgeCfg) {k : Kernel}
    (hin : ScanInside k c) : (handleRead cfg k c).Alike (handleRead cfg k d) := by
  rw [handleRead_eq h.left.toConnInv, handleRead_eq h.right.toConnInv]
  unfold turnOf
  rcases hread : k.read with bs | e
  · dsimp only
    rw [← h.readBytes_eq, ← h.readCall_eq]
    by_cases hne : readBytes c bs = []
    · rw [if_pos hne, if_pos hne]
      exact alike_closeTurn h.fd _ _
    · rw [if_neg hne, if_neg hne]
      unfold consider
      rw [receive_rlen, receive_rlen, ← h.rlen]
      by_cases hfull : recvBuf - 1 ≤ c.rlen + (readBytes c bs).length
      · rw [if_pos hfull, if_pos hfull]
        exact alike_closeTurn (by rw [receive_fd, receive_fd, h.fd]) _ _
      · rw [if_neg hfull, if_neg hfull]
        have hlt : c.rlen + (readBytes c bs).length < recvBuf - 1 := by omega
        have hrecv := h.receive hlt
        have hreq := hrecv.requestOf_eq (hin bs hread hne hlt)
        rw [receive_rlen, receive_rlen, ← h.rlen] at hreq
        rw [← hreq]
        rcases requestOf (c.receive (readBytes c bs)).rbuf.bytes _ with - | r
        · exact ⟨rfl, rfl, hrecv⟩
        · exact hrecv.answer cfg k _ r
  · dsimp only
    rw [h.fd, h.rlen, h.readCount_eq]
    split
    · exact ⟨rfl, rfl, h⟩
    · exact alike_closeTurn h.fd _ _

theorem alike_step {cfg : ForgeCfg} {s s' u : ConnState} {e : ConnEvent} {t : Turn}
    (h : s.Alike u) (hin : EventInside s e) (hstep : (connMachine cfg).step s e = some (t, s')) :
    ∃ t' u', (connMachine cfg).step u e = some (t', u') ∧ t.Alike t' ∧ s'.Alike u' := by
  obtain ⟨c, rfl, rfl, rfl⟩ := connMachine_step.1 hstep
  cases u with
  | registered d =>
    have halike : (clientEvent cfg e c).Alike (clientEvent cfg e d) := by
      by_cases hreads : e.Reads
      · rw [clientEvent_of_reads hreads, clientEvent_of_reads hreads]
        exact alike_handleRead h cfg (hin c rfl hreads)
      · rcases clientEvent_of_not_reads hreads cfg with h' | h' <;> rw [h', h']
        · exact alike_closeTurn (Alike.fd h) [] none
        · exact ⟨rfl, rfl, h⟩
    exact ⟨_, _, connMachine_step.2 ⟨d, rfl, rfl, rfl⟩, halike, halike.next⟩
  | closed => exact absurd h id
  | sending => exact absurd h id
  | fault => exact absurd h id

/-- **What earlier requests left in the buffer is ignored.** Two connections that were reached in
different ways, with nothing received, and differ in the bytes of the buffer only, decide alike on
all events that follow, if these meet the condition. -/
theorem stale_bytes_ignored (cfg : ForgeCfg) (fd : ℤ) (c : ForgeConn) (rbuf : Buf recvBuf)
    (hc : (ConnState.registered c).Reachable cfg fd)
    (hd : (ConnState.registered { c with rbuf := rbuf }).Reachable cfg fd) (hrlen : c.rlen = 0)
    (es : List ConnEvent) (ts : List Turn) (s : ConnState)
    (hrun : (connMachine cfg).run (.registered c) es = some (ts, s))
    (hin : (connMachine cfg).Meets EventInside (.registered c) es) :
    ∃ us u, (connMachine cfg).run (.registered { c with rbuf := rbuf }) es = some (us, u) ∧
      List.Forall₂ Turn.Alike ts us ∧ s.Alike u := by
  have halike : ConnState.Alike (.registered c) (.registered { c with rbuf := rbuf }) :=
    ⟨reachable_tailInv hc, reachable_tailInv hd, rfl, rfl, by
      rw [ForgeConn.received, ForgeConn.received, hrlen]
      rfl⟩
  exact run_agree (fun _ _ _ _ _ ↦ alike_step) halike hin hrun

/-- The connection of a registered state. -/
def ConnState.conn? : ConnState → Option ForgeConn
  | .registered c => some c
  | _ => none

theorem conn?_eq_some {s : ConnState} {c : ForgeConn} (h : s.conn? = some c) :
    s = .registered c := by
  cases s with
  | registered d => rw [Option.some.inj h]
  | _ => exact absurd h (by simp [ConnState.conn?])

/-- A connection that has served `/aaaaaaaa`: a fresh one but for its buffer. -/
theorem exists_stale :
    ∃ rbuf, (ConnState.registered { ForgeConn.fresh 5 with rbuf := rbuf }).Reachable {} 5 ∧
      (handleRead {} (.serving (ascii "GET /a\r\n\r\n"))
        { ForgeConn.fresh 5 with rbuf := rbuf }).request =
          some ⟨ascii "GET", ascii "/a", ascii "aaa", false, 10⟩ := by
  have hsome : ((handleRead {} (.serving (ascii "GET /aaaaaaaa HTTP/1.1\r\n\r\n"))
      (.fresh 5)).next.conn?.map fun c ↦ (c.fd, c.rlen, c.keepAlive,
        (handleRead {} (.serving (ascii "GET /a\r\n\r\n")) c).request)) =
      some (5, 0, true, some ⟨ascii "GET", ascii "/a", ascii "aaa", false, 10⟩) := by
    decide +kernel
  obtain ⟨⟨fd, rbuf, rlen, ka⟩, hc, hfacts⟩ := Option.map_eq_some_iff.1 hsome
  simp only [Prod.mk.injEq] at hfacts
  obtain ⟨rfl, rfl, rfl, hreq⟩ := hfacts
  exact ⟨rbuf, (Machine.Reachable.refl _ _).step (step_readable (conn?_eq_some hc)), hreq⟩

/-- A request that ends with the bytes read decides its words. -/
theorem stale_bytes_ignored_get :
    ∃ rbuf, (ConnState.registered { ForgeConn.fresh 5 with rbuf := rbuf }).Reachable {} 5 ∧
      (handleRead {} (.serving (ascii "GET /a HTTP/1.1\r\n\r\n")) (.fresh 5)).request =
        some ⟨ascii "GET", ascii "/a", ascii "HTTP/1.1", true, 19⟩ ∧
      ∃ us u, (connMachine {}).run (.registered { ForgeConn.fresh 5 with rbuf := rbuf })
          [.readable (.serving (ascii "GET /a HTTP/1.1\r\n\r\n"))] = some (us, u) ∧
        List.Forall₂ Turn.Alike
          [handleRead {} (.serving (ascii "GET /a HTTP/1.1\r\n\r\n")) (.fresh 5)] us ∧
        (handleRead {} (.serving (ascii "GET /a HTTP/1.1\r\n\r\n")) (.fresh 5)).next.Alike u := by
  obtain ⟨rbuf, hreach, -⟩ := exists_stale
  have hreq : (handleRead {} (.serving (ascii "GET /a HTTP/1.1\r\n\r\n")) (.fresh 5)).request =
      some ⟨ascii "GET", ascii "/a", ascii "HTTP/1.1", true, 19⟩ := by
    decide +kernel
  have hdec : WordsDecided (ascii "GET /a HTTP/1.1\r\n\r\n") := by decide
  have hlen : (ascii "GET /a HTTP/1.1\r\n\r\n").length = 19 := by decide
  generalize ascii "GET /a HTTP/1.1\r\n\r\n" = b at hreq hdec hlen ⊢
  have hstep : (connMachine {}).step (.registered (.fresh 5)) (.readable (.serving b)) =
      some (handleRead {} (.serving b) (.fresh 5), _) := step_readable rfl
  refine ⟨rbuf, hreach, hreq, stale_bytes_ignored {} 5 (.fresh 5) rbuf
    (Machine.Reachable.refl _ _) hreach rfl _ _ _
    ((run_cons_eq_some _).2 ⟨_, _, _, hstep, run_nil _ _, rfl⟩)
    ((meets_cons hstep).2 ⟨?_, trivial⟩)⟩
  rintro c hc - bs hread - - -
  obtain rfl := ConnState.registered.inj hc
  obtain rfl : b = bs := ReadResult.bytes.inj hread
  have hfit : (ForgeConn.fresh 5).rlen + b.length ≤ recvBuf - 1 := by
    rw [hlen]
    decide
  right
  rwa [readBytes_of_le hfit, received_receive (by omega), received_fresh, List.nil_append]

/-- The connection that served `/aaaaaaaa` and a fresh one read the same two words. Behind them the
buffer of the first holds the end of the earlier path: it is taken for the version. -/
theorem stale_bytes_read :
    ∃ rbuf, (ConnState.registered { ForgeConn.fresh 5 with rbuf := rbuf }).Reachable {} 5 ∧
      (handleRead {} (.serving (ascii "GET /a\r\n\r\n"))
        { ForgeConn.fresh 5 with rbuf := rbuf }).request =
          some ⟨ascii "GET", ascii "/a", ascii "aaa", false, 10⟩ ∧
      (handleRead {} (.serving (ascii "GET /a\r\n\r\n")) (.fresh 5)).request = none := by
  obtain ⟨rbuf, hreach, hreq⟩ := exists_stale
  exact ⟨rbuf, hreach, hreq, by decide +kernel⟩

/-! ### Bytes that do not decide the words -/

/-- The request of a call with nothing received: the bytes read are in front of what the buffer
held behind their place. -/
theorem request_of_empty {c : ForgeConn} (hc : ConnInv c) (hrlen : c.rlen = 0) (cfg : ForgeCfg)
    {k : Kernel} {bs : List UInt8} (hk : k.read = .bytes bs) (hne : bs ≠ [])
    (hlt : bs.length < recvBuf - 1) :
    (handleRead cfg k c).request = requestOf (bs ++ c.rbuf.bytes.drop bs.length) bs.length := by
  have hread : readBytes c bs = bs := readBytes_of_le (by omega)
  rw [request_handleRead hc, accepted, hk]
  dsimp only
  rw [hread, if_neg (not_or.2 ⟨hne, by omega⟩), bytes_receive (by omega), ForgeConn.received, hrlen,
    List.take_zero, List.nil_append, Nat.zero_add]

/-- **A served request can leave anything in the buffer**: what was received behind it is at the
front. -/
theorem exists_left (tail : List UInt8) (hlen : tail.length + 19 < recvBuf - 1) :
    ∃ rbuf t, (ConnState.registered { ForgeConn.fresh 5 with rbuf := rbuf }).Reachable {} 5 ∧
      rbuf.bytes = tail ++ t ∧ 0 ∈ t := by
  have hR := recvBuf_eq
  generalize hb : ascii "GET /a HTTP/1.1\r\n\r\n" = b
  have hb19 : b.length = 19 := by rw [← hb]; decide
  have hreq := hb ▸ fileRequest_a
  have hne : b ++ tail ≠ [] := List.append_ne_nil_of_left_ne_nil (by rw [← hb]; decide) _
  have hfit : (ForgeConn.fresh 5).rlen + (b ++ tail).length < recvBuf - 1 := by
    rw [List.length_append, hb19, rlen_fresh]
    omega
  have hreceived : ((ForgeConn.fresh 5).receive (b ++ tail)).received = b ++ tail :=
    received_receive (by omega)
  have hlast : ((ForgeConn.fresh 5).receive (b ++ tail)).rbuf.bytes[recvBuf - 1]? = some 0 :=
    last_receive (by omega) (ConnInv.fresh 5).last
  obtain ⟨r, -, hhdr, -, hnext⟩ := step_answer (ConnInv.fresh 5) (delivers_serving {} hne) hreq
    (show (ForgeConn.fresh 5).received ++ (b ++ tail) = b ++ tail from rfl) hfit
  have hleft := bytes_reset (c := (ForgeConn.fresh 5).receive (b ++ tail))
    (by rw [receive_rlen]; omega) r.headerBytes
  rw [hhdr, hreceived, List.drop_left] at hleft
  refine ⟨_, _, (Machine.Reachable.refl _ _).step (step_readable hnext), hhdr ▸ hleft, ?_⟩
  refine List.mem_of_getElem? (i := recvBuf - 1 - tail.length) ?_
  rw [List.getElem?_drop, receive_rlen, List.length_append, hb19, rlen_fresh, ← hlast]
  congr 1
  omega

/-- **Bytes that do not decide the words** are read as another request, or as one where there is
none, on some connection that has served one. -/
theorem stale_bytes_matter {bs : List UInt8} (hend : crlfcrlf <:+: bs) (hbs : ¬ WordsDecided bs)
    (hlen : bs.length + 25 < recvBuf - 1) {k : Kernel} (hk : k.read = .bytes bs) :
    ∃ rbuf, (ConnState.registered { ForgeConn.fresh 5 with rbuf := rbuf }).Reachable {} 5 ∧
      (handleRead {} k { ForgeConn.fresh 5 with rbuf := rbuf }).request ≠
        (handleRead {} k (.fresh 5)).request := by
  have hne : bs ≠ [] := by
    rintro rfl
    exact absurd hend (by decide)
  -- letters from there on where the bytes of the second request end
  obtain ⟨rbuf, t, hreach, hbytes, h0⟩ := exists_left (List.replicate bs.length 97 ++ letters 3)
    (by rw [List.length_append, List.length_replicate, show (letters 3).length = 6 from rfl]
        omega)
  have hstale := request_of_empty (reachable_tailInv hreach).toConnInv rfl {} hk hne (by omega)
  have hfresh := request_of_empty (ConnInv.fresh 5) rfl {} hk hne (by omega)
  have hzeros : (ForgeConn.fresh 5).rbuf.bytes.drop bs.length =
      0 :: List.replicate (recvBuf - bs.length - 1) 0 := by
    change (List.replicate recvBuf (0 : UInt8)).drop bs.length = _
    rw [List.drop_replicate, ← List.replicate_succ, Nat.sub_add_cancel (by omega)]
  refine ⟨rbuf, hreach, ?_⟩
  rw [hstale, hfresh, hzeros, hbytes, List.append_assoc, List.drop_left' List.length_replicate]
  exact requestOf_ne hend hbs h0 _

end ForgeServer
