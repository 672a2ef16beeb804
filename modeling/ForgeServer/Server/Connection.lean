import ForgeServer.Systems.Machine
import ForgeServer.Server.Outcome

/-!
# A connection over its life

What the event loop does with one event of a client, and the machine of one connection: its inputs
are the events `epoll_wait` reports for it, each with everything the kernel answers while the event
is handled; its outputs are the calls made. Only a registered connection gets events.

`reachable_registered` is the buffer invariant on every run. `clientEvent_cases` is the inversion
every other run property goes through.
-/

namespace ForgeServer

open CStr

/-- One event of a client: the flags `epoll_wait` reports and what the kernel answers. -/
structure ConnEvent where
  inp : Bool
  rdhup : Bool
  hup : Bool
  err : Bool
  kernel : Kernel

/-- A readable connection and nothing else. -/
def ConnEvent.readable (k : Kernel) : ConnEvent := ⟨true, false, false, false, k⟩

/-- An event that leads to a call of `handle_read`. -/
def ConnEvent.Reads (e : ConnEvent) : Prop := (e.hup || e.err || e.rdhup) = false ∧ e.inp = true

/-- The body of the event loop for a client. -/
def clientEvent (cfg : ForgeCfg) (e : ConnEvent) (c : ForgeConn) : Turn :=
  if e.hup || e.err || e.rdhup then ⟨connClose c, none, .closed⟩
  else if e.inp then handleRead cfg e.kernel c
  else ⟨[], none, .registered c⟩

/-- The machine of one connection. -/
def connMachine (cfg : ForgeCfg) : Machine ConnState ConnEvent Turn where
  step
    | .registered c, e => some (clientEvent cfg e c, (clientEvent cfg e c).next)
    | _, _ => none

variable {cfg : ForgeCfg}

theorem connMachine_step {s s' : ConnState} {e : ConnEvent} {t : Turn} :
    (connMachine cfg).step s e = some (t, s') ↔
      ∃ c, s = .registered c ∧ t = clientEvent cfg e c ∧ s' = t.next := by
  constructor
  · intro h
    cases s with
    | registered c =>
      simp only [connMachine, Option.some.injEq, Prod.mk.injEq] at h
      obtain ⟨rfl, rfl⟩ := h
      exact ⟨c, rfl, rfl, rfl⟩
    | closed => exact absurd h (by simp [connMachine])
    | sending => exact absurd h (by simp [connMachine])
    | fault => exact absurd h (by simp [connMachine])
  · rintro ⟨c, rfl, rfl, rfl⟩
    rfl

@[simp] theorem clientEvent_readable (k : Kernel) (c : ForgeConn) :
    clientEvent cfg (.readable k) c = handleRead cfg k c := rfl

/-- A readable event is a call of `handle_read`. -/
theorem step_readable {cfg : ForgeCfg} {c : ForgeConn} {k : Kernel} {s : ConnState}
    (hnext : (handleRead cfg k c).next = s) :
    (connMachine cfg).step (.registered c) (.readable k) = some (handleRead cfg k c, s) :=
  connMachine_step.2 ⟨c, rfl, rfl, hnext.symm⟩

theorem clientEvent_of_reads {e : ConnEvent} (h : e.Reads) (cfg : ForgeCfg) (c : ForgeConn) :
    clientEvent cfg e c = handleRead cfg e.kernel c := by
  rw [clientEvent, if_neg (by rw [h.1]; simp), if_pos h.2]

/-- Any other event closes the connection, or does nothing. -/
theorem clientEvent_of_not_reads {e : ConnEvent} (h : ¬ e.Reads) (cfg : ForgeCfg) :
    (∀ c, clientEvent cfg e c = closeTurn c [] none) ∨
      ∀ c, clientEvent cfg e c = ⟨[], none, .registered c⟩ := by
  unfold clientEvent
  by_cases hflags : (e.hup || e.err || e.rdhup) = true
  · exact Or.inl fun c ↦ by rw [if_pos hflags]; rfl
  · have hinp : ¬ e.inp = true := fun hinp ↦ h ⟨Bool.eq_false_iff.2 hflags, hinp⟩
    exact Or.inr fun c ↦ by rw [if_neg hflags, if_neg hinp]

/-- **What an event of a client does**: it closes the connection, or nothing, or it is a call of
`handle_read`. -/
theorem clientEvent_cases (cfg : ForgeCfg) (e : ConnEvent) (c : ForgeConn) :
    clientEvent cfg e c = closeTurn c [] none ∨
      clientEvent cfg e c = ⟨[], none, .registered c⟩ ∨
      clientEvent cfg e c = handleRead cfg e.kernel c := by
  by_cases h : e.Reads
  · exact Or.inr (Or.inr (clientEvent_of_reads h cfg c))
  · rcases clientEvent_of_not_reads h cfg with h | h
    · exact Or.inl (h c)
    · exact Or.inr (Or.inl (h c))

/-! ### The invariant on every run -/

/-- The invariant of the states of the connection on descriptor `fd`. -/
def ConnState.Inv (fd : ℤ) : ConnState → Prop
  | .registered c => ConnInv c ∧ c.fd = fd
  | .fault => False
  | _ => True

theorem ConnState.Inv.fresh (fd : ℤ) : (ConnState.registered (.fresh fd)).Inv fd :=
  ⟨ConnInv.fresh fd, rfl⟩

theorem ConnInv.receive {c : ForgeConn} (hc : ConnInv c) {got : List UInt8}
    (hfit : (c.receive got).rlen < recvBuf - 1) : ConnInv (c.receive got) where
  keepAlive := hc.keepAlive
  rlen_le := by
    have hR := recvBuf_eq
    omega
  last := last_receive (by rw [receive_rlen] at hfit; omega) hc.last

theorem ConnInv.reset {c : ForgeConn} (hc : ConnInv c) (n : ℕ) : ConnInv (c.reset n) where
  keepAlive := rfl
  rlen_le := Nat.zero_le _
  last := last_reset hc.rlen_le hc.last

theorem inv_handleRead {c : ForgeConn} (hc : ConnInv c) (cfg : ForgeCfg) (k : Kernel) :
    (handleRead cfg k c).next.Inv c.fd := by
  have ho := outcome_handleRead cfg k hc
  generalize handleRead cfg k c = t at ho ⊢
  cases ho with
  | waits => exact ⟨hc, rfl⟩
  | ended => trivial
  | full => trivial
  | more bs _ _ hfit => exact ⟨hc.receive hfit, rfl⟩
  | request bs _ _ hfit r _ t ht =>
    cases ht with
    | kept => exact ⟨(hc.receive hfit).reset _, rfl⟩
    | _ => trivial

/-- **Every event keeps the invariant.** -/
theorem inv_step {fd : ℤ} {s s' : ConnState} {e : ConnEvent} {t : Turn} (hs : s.Inv fd)
    (h : (connMachine cfg).step s e = some (t, s')) : s'.Inv fd := by
  obtain ⟨c, rfl, rfl, rfl⟩ := connMachine_step.1 h
  obtain ⟨hc, rfl⟩ := hs
  rcases clientEvent_cases cfg e c with h' | h' | h' <;> rw [h']
  · trivial
  · exact ⟨hc, rfl⟩
  · exact inv_handleRead hc cfg e.kernel

/-- The states of a connection from its registration on. -/
def ConnState.Reachable (cfg : ForgeCfg) (fd : ℤ) (s : ConnState) : Prop :=
  (connMachine cfg).Reachable (.registered (.fresh fd)) s

theorem ConnState.Reachable.inv {fd : ℤ} {s : ConnState} (h : s.Reachable cfg fd) : s.Inv fd :=
  Machine.Reachable.invariant h (.fresh fd) fun _ _ _ _ ↦ inv_step

/-- **A registered connection satisfies the buffer invariant**, on every run. -/
theorem reachable_registered {fd : ℤ} {c : ForgeConn}
    (h : (ConnState.registered c).Reachable cfg fd) : ConnInv c ∧ c.fd = fd :=
  h.inv

/-- What every event of a connection that satisfies the invariant guarantees of its calls holds of
all calls of every run. -/
theorem run_turns {Q : Turn → Prop} {fd : ℤ} {es : List ConnEvent} {ts : List Turn} {s : ConnState}
    (hQ : ∀ c e, ConnInv c → Q (clientEvent cfg e c))
    (hrun : (connMachine cfg).run (.registered (.fresh fd)) es = some (ts, s)) : ∀ t ∈ ts, Q t := by
  have hstep : ∀ s e t s', s.Inv fd → (connMachine cfg).step s e = some (t, s') →
      s'.Inv fd ∧ Q t := by
    intro s e t s' hs hstep
    refine ⟨inv_step hs hstep, ?_⟩
    obtain ⟨c, rfl, rfl, rfl⟩ := connMachine_step.1 hstep
    exact hQ c e hs.1
  exact Machine.run_output hstep (.fresh fd) hrun

/-! ### Every access in range -/

/-- A parse of `rlen` received bytes in range: no scan leaves the array; the strings of the request
are terminated once the end of a block was seen, in particular when `true` is returned; and then the
header is inside the received bytes, and so is what `memmove` reads. -/
def ParseInRange (rbuf : Buf recvBuf) (rlen : ℕ) (out : HttpReq) : Prop :=
  ∃ ok req, httpTryParseRequest rbuf.bytes rlen out = some (ok, req) ∧
    (crlfcrlf <:+: rbuf.bytes.take rlen → req.Terminated) ∧
    (ok = true → req.Terminated ∧ 4 ≤ req.headerBytes ∧ req.headerBytes ≤ rlen ∧
      sizeSub rlen req.headerBytes = rlen - req.headerBytes ∧
      req.headerBytes + sizeSub rlen req.headerBytes ≤ rlen ∧
      (rbuf.memmove 0 req.headerBytes (sizeSub rlen req.headerBytes)).isSome)

/-- A call of `handle_read` in range: at least one byte is asked for, what is read lands in front of
the last byte of the buffer, which stays NUL, and the parse that may follow is in range. -/
structure CallInRange (cfg : ForgeCfg) (k : Kernel) (c : ForgeConn) : Prop where
  one_le_readCount : 1 ≤ readCount c
  add_readCount_le : c.rlen + readCount c ≤ recvBuf - 1
  no_fault : (handleRead cfg k c).next ≠ .fault
  parse : ∀ got : List UInt8, got.length ≤ readCount c →
    ∃ rbuf, c.rbuf.store c.rlen got = some rbuf ∧ rbuf.bytes[recvBuf - 1]? = some 0 ∧
      (c.rlen + got.length < recvBuf - 1 → ParseInRange rbuf (c.rlen + got.length) k.stack)

theorem parseInRange_of_last {rbuf : Buf recvBuf} {rlen : ℕ} (hrlen : rlen ≤ recvBuf)
    (hlast : rbuf.bytes[recvBuf - 1]? = some 0) (out : HttpReq) : ParseInRange rbuf rlen out := by
  have hlen : rlen ≤ rbuf.bytes.length := by rw [rbuf.length_bytes]; exact hrlen
  obtain ⟨req, hparse, hreq, hterm⟩ := httpTryParseRequest_spec hlen (zero_mem_of_last hlast) out
  refine ⟨_, req, hparse, hterm, fun hok ↦ ?_⟩
  obtain ⟨r, hr⟩ := Option.isSome_iff_exists.1 hok
  obtain ⟨h4, hle, -⟩ := requestOf_spec hr
  obtain ⟨-, -, -, -, hbytes⟩ := HttpReq.request_eq_some.1 (hreq r hr)
  have hend : crlfcrlf <:+: rbuf.bytes.take rlen := by
    by_contra hno
    rw [requestOf_of_not_mem hno] at hr
    exact absurd hr (by simp)
  have hsub : sizeSub rlen r.headerBytes = rlen - r.headerBytes := sizeSub_eq hle
  rw [hbytes, hsub]
  obtain ⟨b, hb, -⟩ :=
    rbuf.memmove_eq_some 0 r.headerBytes (rlen - r.headerBytes) (by omega) (by omega)
  exact ⟨hterm hend, h4, hle, rfl, by omega, by rw [hb]; rfl⟩

/-- **The buffer invariant makes every access in range.** -/
theorem ConnInv.callInRange {c : ForgeConn} (hc : ConnInv c) (cfg : ForgeCfg) (k : Kernel) :
    CallInRange cfg k c := by
  have hR := recvBuf_eq
  have hrlen := hc.rlen_le
  have hcount : readCount c = recvBuf - 1 - c.rlen := readCount_eq (by omega)
  refine ⟨by omega, by omega, fun hfault ↦ ?_, fun got hgot ↦ ?_⟩
  · have hinv := inv_handleRead hc cfg k
    rw [hfault] at hinv
    exact hinv
  · obtain ⟨rbuf, hstore, -⟩ := c.rbuf.store_eq_some c.rlen got (by omega)
    have hbuf : (c.receive got).rbuf = rbuf := by
      rw [ForgeConn.receive, hstore, Option.getD_some]
    have hlast : rbuf.bytes[recvBuf - 1]? = some 0 :=
      hbuf ▸ last_receive (by omega) hc.last
    exact ⟨rbuf, hstore, hlast, fun hfit ↦ parseInRange_of_last (by omega) hlast k.stack⟩

/-- **The buffer invariant holds on every run and makes every access in range**: whenever the worker
is back in its event loop with the connection registered, whatever the next call reads. -/
theorem buffer_safe (cfg : ForgeCfg) (fd : ℤ) (es : List ConnEvent) (ts : List Turn)
    (c : ForgeConn)
    (hrun : (connMachine cfg).run (.registered (.fresh fd)) es = some (ts, .registered c)) :
    ConnInv c ∧ ∀ k, CallInRange cfg k c := by
  obtain ⟨hc, -⟩ := reachable_registered ⟨es, ts, hrun⟩
  exact ⟨hc, hc.callInRange cfg⟩

/-- Four bytes of a request line, received on a fresh connection. -/
theorem run_fresh_get :
    (connMachine {}).run (.registered (.fresh 5)) [.readable (.offering (ascii "GET "))] =
      some ([handleRead {} (.offering (ascii "GET ")) (.fresh 5)],
        .registered ((ForgeConn.fresh 5).receive (ascii "GET "))) := by
  have hend : ¬ crlfcrlf <:+: ((ForgeConn.fresh 5).receive (ascii "GET ")).received := by
    rw [received_receive (by decide), received_fresh]
    decide
  have hcall : handleRead {} (.offering (ascii "GET ")) (.fresh 5) = _ :=
    handleRead_more (ConnInv.fresh 5) rfl (by decide) (by decide) (requestOf_of_not_mem hend)
  rw [Machine.run_cons_eq_some]
  exact ⟨_, _, [], step_readable (by rw [hcall]), rfl, rfl⟩

theorem buffer_safe_get :
    ConnInv ((ForgeConn.fresh 5).receive (ascii "GET ")) ∧
      ∀ k, CallInRange {} k ((ForgeConn.fresh 5).receive (ascii "GET ")) :=
  buffer_safe {} 5 _ _ _ run_fresh_get

end ForgeServer
