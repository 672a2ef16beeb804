import ForgeServer.Server.Connection

/-!
# Complete blocks that wait

`http_try_parse_request` returns `false` when no header block is complete *and* when a complete
block has fewer than three words; `handle_read` waits for more bytes in both cases. `BlockDecided`
is the condition on what a call reads under which a complete block does not wait: the string in the
buffer, what lies behind the received bytes included, has the three words, or the buffer is full.
`block_settled_iff` says that it is exact, for a call and for a run.
-/

namespace ForgeServer

open CStr Machine

/-- Left waiting with a complete header block at the front of the buffer. -/
def ConnState.Waiting (s : ConnState) : Prop :=
  ∃ c, s = .registered c ∧ crlfcrlf <:+: c.received

/-- The words of the string in a buffer are those of a request line. -/
def HasWords (c : ForgeConn) : Prop := ((cstr c.rbuf.bytes).bind requestWords).isSome

/-- If what a call reads completes a block, it fills the buffer or the buffer has three words. -/
def BlockDecided (k : Kernel) (c : ForgeConn) : Prop :=
  ∀ bs, k.read = .bytes bs → readBytes c bs ≠ [] →
    crlfcrlf <:+: (c.receive (readBytes c bs)).received →
      recvBuf - 1 ≤ c.rlen + (readBytes c bs).length ∨ HasWords (c.receive (readBytes c bs))

/-- The condition on an event: one that leads to a call of `handle_read` meets `BlockDecided`. -/
def EventDecided (s : ConnState) (e : ConnEvent) : Prop :=
  ∀ c, s = .registered c → e.Reads → BlockDecided e.kernel c

/-- With a block in front of its buffer, a connection has a request just when it has the words. -/
theorem isSome_requestOf_receive_iff {c : ForgeConn} (hc : ConnInv c) {bs : List UInt8}
    (hend : crlfcrlf <:+: (c.receive (readBytes c bs)).received) :
    (requestOf (c.receive (readBytes c bs)).rbuf.bytes
      (c.rlen + (readBytes c bs).length)).isSome ↔ HasWords (c.receive (readBytes c bs)) := by
  have hR := recvBuf_eq
  have hfit := rlen_add_length_readBytes_le hc bs
  exact isSome_requestOf_iff (by rw [Buf.length_bytes]; omega)
    (zero_mem_of_last (last_receive hfit hc.last)) hend

/-- **A call that completes a block settles it** — parses it, or closes the connection — exactly
when the buffer is full or has the words. -/
theorem settles_iff {c : ForgeConn} (hc : ConnInv c) (cfg : ForgeCfg) {k : Kernel}
    {bs : List UInt8} (hread : k.read = .bytes bs) (hne : readBytes c bs ≠ [])
    (hend : crlfcrlf <:+: (c.receive (readBytes c bs)).received) :
    ((handleRead cfg k c).request.isSome ∨ (handleRead cfg k c).next = .closed) ↔
      (recvBuf - 1 ≤ c.rlen + (readBytes c bs).length ∨
        HasWords (c.receive (readBytes c bs))) := by
  have hwords := isSome_requestOf_receive_iff hc hend
  have hcall : handleRead cfg k c =
      consider cfg k (c.receive (readBytes c bs)) (readCall c (readBytes c bs)) := by
    rw [handleRead_eq hc, turnOf, hread]
    dsimp only
    rw [if_neg hne]
  rw [hcall, consider, receive_rlen]
  by_cases hfull : recvBuf - 1 ≤ c.rlen + (readBytes c bs).length
  · rw [if_pos hfull]
    exact iff_of_true (Or.inr rfl) (Or.inl hfull)
  · rw [if_neg hfull, ← hwords]
    rcases requestOf (c.receive (readBytes c bs)).rbuf.bytes
      (c.rlen + (readBytes c bs).length) with - | r
    · simp [hfull]
    · dsimp only
      rw [request_answer]
      simp

/-- A connection whose buffer was reset does not wait. -/
theorem not_waiting_reset (c : ForgeConn) (n : ℕ) :
    ¬ (ConnState.registered (c.reset n)).Waiting := by
  rintro ⟨d, hd, hend⟩
  rw [← ConnState.registered.inj hd] at hend
  exact absurd hend.length_le (by rw [length_crlfcrlf]; simp [ForgeConn.received])

theorem not_waiting_of_closed {s : ConnState} (h : s = .closed ∨ s = .sending) : ¬ s.Waiting := by
  rintro ⟨c, hc, -⟩
  rcases h with rfl | rfl <;> exact absurd hc (by simp)

/-- **One call keeps a connection from waiting** exactly when it meets the condition. -/
theorem not_waiting_handleRead_iff {c : ForgeConn} (hc : ConnInv c) (cfg : ForgeCfg) (k : Kernel)
    (hw : ¬ (ConnState.registered c).Waiting) :
    ¬ (handleRead cfg k c).next.Waiting ↔ BlockDecided k c := by
  have ho := outcome_handleRead cfg k hc
  generalize handleRead cfg k c = t at ho ⊢
  cases ho with
  | waits e hread => exact iff_of_true hw fun bs h ↦ absurd (hread.symm.trans h) (by simp)
  | ended res hread =>
    exact iff_of_true (not_waiting_of_closed (Or.inl rfl)) fun bs h hne ↦ absurd (hread bs h) hne
  | full bs hread _ hfull =>
    refine iff_of_true (not_waiting_of_closed (Or.inl rfl)) fun bs' h _ _ ↦ Or.inl ?_
    rw [hread, ReadResult.bytes.injEq] at h
    exact h ▸ hfull
  | more bs hread hne hfit hreq =>
    -- the parser found no request: the words are missing if the block is there
    have hno : crlfcrlf <:+: (c.receive (readBytes c bs)).received →
        ¬ HasWords (c.receive (readBytes c bs)) := by
      intro hend
      rw [← isSome_requestOf_receive_iff hc hend, ← receive_rlen, hreq]
      simp
    constructor
    · intro hnot bs' h _ hend
      rw [hread, ReadResult.bytes.injEq] at h
      subst h
      exact absurd ⟨_, rfl, hend⟩ hnot
    · rintro hdec ⟨d, hd, hend⟩
      rw [← ConnState.registered.inj hd] at hend
      rcases hdec bs hread hne hend with hfull | hwords
      · rw [receive_rlen] at hfit
        omega
      · exact hno hend hwords
  | request bs hread hne hfit r hreq t ht =>
    refine iff_of_true ?_ fun bs' h _ hend ↦ Or.inr ?_
    · cases ht with
      | kept => exact not_waiting_reset _ _
      | bad => exact not_waiting_of_closed (Or.inl rfl)
      | missing => exact not_waiting_of_closed (Or.inl rfl)
      | closed => exact not_waiting_of_closed (Or.inl rfl)
      | sending => exact not_waiting_of_closed (Or.inr rfl)
    · rw [hread, ReadResult.bytes.injEq] at h
      subst h
      rw [← isSome_requestOf_receive_iff hc hend, ← receive_rlen, hreq]
      rfl

theorem not_waiting_step_iff {cfg : ForgeCfg} {fd : ℤ} {s s' : ConnState} {e : ConnEvent} {t : Turn}
    (hs : s.Inv fd) (hw : ¬ s.Waiting) (hstep : (connMachine cfg).step s e = some (t, s')) :
    ¬ s'.Waiting ↔ EventDecided s e := by
  obtain ⟨c, rfl, rfl, rfl⟩ := connMachine_step.1 hstep
  by_cases hreads : e.Reads
  · rw [clientEvent_of_reads hreads, not_waiting_handleRead_iff hs.1 cfg e.kernel hw]
    exact ⟨fun h d hd _ ↦ ConnState.registered.inj hd ▸ h, fun h ↦ h c rfl hreads⟩
  · refine iff_of_true ?_ fun _ _ h ↦ absurd h hreads
    rcases clientEvent_of_not_reads hreads cfg with h | h <;> rw [h]
    · exact not_waiting_of_closed (Or.inl rfl)
    · exact hw

theorem not_waiting_fresh (fd : ℤ) : ¬ (ConnState.registered (.fresh fd)).Waiting := by
  rintro ⟨c, hc, hend⟩
  rw [← ConnState.registered.inj hc, received_fresh] at hend
  exact absurd hend (by decide)

/-- **When a complete block gets a definite outcome.** In every run: a call that completes a block
parses it or closes the connection exactly when the buffer is then full or has the three words; and
the connection never waits with a complete block exactly when every event meets the condition. -/
theorem block_settled_iff (cfg : ForgeCfg) (fd : ℤ) (es : List ConnEvent) (ts : List Turn)
    (s : ConnState) (hrun : (connMachine cfg).run (.registered (.fresh fd)) es = some (ts, s)) :
    (∀ c k bs, s = .registered c → k.read = .bytes bs → readBytes c bs ≠ [] →
      crlfcrlf <:+: (c.receive (readBytes c bs)).received →
      (((handleRead cfg k c).request.isSome ∨ (handleRead cfg k c).next = .closed) ↔
        (recvBuf - 1 ≤ c.rlen + (readBytes c bs).length ∨
          HasWords (c.receive (readBytes c bs))))) ∧
    ((connMachine cfg).Throughout (¬ ·.Waiting) (.registered (.fresh fd)) es ↔
      (connMachine cfg).Meets EventDecided (.registered (.fresh fd)) es) := by
  have hI : ∀ s e t s', s.Inv fd → (connMachine cfg).step s e = some (t, s') → s'.Inv fd :=
    fun _ _ _ _ ↦ inv_step
  refine ⟨?_, throughout_iff_meets hI (fun _ _ _ _ ↦ not_waiting_step_iff) (.fresh fd)
    (not_waiting_fresh fd) hrun⟩
  rintro c k bs rfl hread hne hend
  exact settles_iff (reachable_registered ⟨es, ts, hrun⟩).1 cfg hread hne hend

/-- A block that comes with one `read` and has its three words. -/
theorem block_settled_iff_get :
    ((handleRead {} (.serving (ascii "GET /a HTTP/1.1\r\n\r\n")) (.fresh 5)).request.isSome ∨
        (handleRead {} (.serving (ascii "GET /a HTTP/1.1\r\n\r\n")) (.fresh 5)).next = .closed) ∧
      (connMachine {}).Throughout (¬ ·.Waiting) (.registered (.fresh 5))
        [.readable (.serving (ascii "GET /a HTTP/1.1\r\n\r\n"))] := by
  have hwords : HasWords ((ForgeConn.fresh 5).receive (ascii "GET /a HTTP/1.1\r\n\r\n")) := by
    rw [HasWords]
    decide +kernel
  have hend : crlfcrlf <:+: ascii "GET /a HTTP/1.1\r\n\r\n" := by decide
  have hlen : (ascii "GET /a HTTP/1.1\r\n\r\n").length = 19 := by decide
  generalize ascii "GET /a HTTP/1.1\r\n\r\n" = b at hwords hend hlen ⊢
  have hne : b ≠ [] := List.ne_nil_of_length_pos (by omega)
  have hread : readBytes (.fresh 5) b = b := readBytes_of_le (by rw [hlen, rlen_fresh]; decide)
  have hrecv : ((ForgeConn.fresh 5).receive b).received = b := by
    rw [received_receive (by rw [hlen, rlen_fresh]; decide), received_fresh, List.nil_append]
  have hstep : (connMachine {}).step (.registered (.fresh 5)) (.readable (.serving b)) =
      some (handleRead {} (.serving b) (.fresh 5), _) := step_readable rfl
  constructor
  · refine ((block_settled_iff {} 5 [] [] _ rfl).1 (.fresh 5) (.serving b) b rfl rfl ?_ ?_).2 ?_
    · rwa [hread]
    · rwa [hread, hrecv]
    · rw [hread]
      exact .inr hwords
  · refine ((block_settled_iff {} 5 _ _ _ ((run_cons_eq_some _).2
      ⟨_, _, _, hstep, run_nil _ _, rfl⟩)).2).2 ((meets_cons hstep).2 ⟨?_, trivial⟩)
    rintro c hc - bs hbs - -
    obtain rfl := ConnState.registered.inj hc
    obtain rfl : b = bs := ReadResult.bytes.inj hbs
    rw [hread]
    exact .inr hwords
/-- A block with two words is left waiting. -/
theorem block_unsettled_two_words :
    (handleRead {} (.offering (ascii "GET /a\r\n\r\n")) (.fresh 5)).request = none ∧
      (handleRead {} (.offering (ascii "GET /a\r\n\r\n")) (.fresh 5)).next.Waiting := by
  have hnone : requestOf ((ForgeConn.fresh 5).receive (ascii "GET /a\r\n\r\n")).rbuf.bytes
      ((ForgeConn.fresh 5).receive (ascii "GET /a\r\n\r\n")).rlen = none := by decide +kernel
  have hcall : handleRead {} (.offering (ascii "GET /a\r\n\r\n")) (.fresh 5) = _ :=
    handleRead_more (ConnInv.fresh 5) rfl (by decide) (by decide) hnone
  rw [hcall]
  refine ⟨rfl, _, rfl, ?_⟩
  rw [received_receive (by decide), received_fresh]
  decide

end ForgeServer
