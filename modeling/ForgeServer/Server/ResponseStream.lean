import ForgeServer.Systems.Framing
import ForgeServer.Server.Answer
import ForgeServer.Server.Connection

/-!
# The response stream of a connection

What a connection puts on its socket over its whole life is well framed: `responses_framed` applies
the rule for framed streams, with a response (`IsResponse`) as the frame. The work is in one step
(`grows_handleRead`): whatever the kernel answers to `write` and `sendfile`, a call sends an initial
piece of one response, and a call that does not send the whole of it ends in `conn_close`, or has
not returned.

`writeStored_handleRead` is the other half: no header is longer than its array, so `write` is never
asked for more than `snprintf` stored.
-/

namespace ForgeServer

open CStr Machine

/-- A complete response in the call `t` for the event `e`: a well-framed header and body; for a 200
the body is a file opened in the call, from its first byte to the size `fstat` reports. -/
def IsResponse (e : ConnEvent) (t : Turn) (bs : List UInt8) : Prop :=
  ∃ head body, bs = head ++ body ∧ Framed head body ∧
    (ascii "HTTP/1.1 200" <+: head → ∃ name f st, .openFile name (some f.fd) ∈ t.calls ∧
      e.kernel.openFile name = some f ∧ f.stat = some st ∧ body = f.slice 0 st.size)

theorem isResponse_text404 (e : ConnEvent) (t : Turn) (keepAlive : Bool) :
    IsResponse e t (text404 keepAlive) := by
  obtain ⟨head, heq, hframed, hno⟩ := framed_text404 keepAlive
  exact ⟨head, body404, heq, hframed, fun h ↦ absurd h hno⟩

theorem isResponse_text400 (e : ConnEvent) (t : Turn) : IsResponse e t text400 := by
  obtain ⟨head, heq, hframed, hno⟩ := framed_text400
  exact ⟨head, body400, heq, hframed, fun h ↦ absurd h hno⟩

theorem isResponse_response200 {e : ConnEvent} {t : Turn} {docRoot path : List UInt8} {f : File}
    {st : Stat} (keepAlive : Bool)
    (hs : servable e.kernel.openFile docRoot path = some (f, st))
    (hcall : .openFile (fsName docRoot path) (some f.fd) ∈ t.calls) :
    IsResponse e t (response200 (fsName docRoot path) f st keepAlive) := by
  obtain ⟨-, hopen, hstat⟩ := servable_eq_some.1 hs
  exact ⟨_, _, rfl, framed_response200 _ f st keepAlive, fun _ ↦
    ⟨_, f, st, hcall, hopen, (Option.filter_eq_some_iff.1 hstat).1, rfl⟩⟩

/-- A connection that sends nothing more: closed, or in a call that has not returned. -/
def ConnState.Stopped (s : ConnState) : Prop := s = .closed ∨ s = .sending

/-! ### One event -/

/-- The stream of a connection grows by an event. -/
abbrev Grows (fd : ℤ) (e : ConnEvent) (t : Turn) : Prop :=
  Extends IsResponse ConnState.Stopped (fun t ↦ written fd t.calls) e t t.next

/-- **An answered request grows the stream** by the response or an initial piece of it. -/
theorem grows_answered {cfg : ForgeCfg} {e : ConnEvent} {c : ForgeConn} {calls : List Sys}
    {r : Request} {t : Turn} (hcalls : written c.fd calls = [])
    (h : Answered cfg e.kernel c calls r t) : Grows c.fd e t := by
  have hpre := (answersWith_of_answered hcalls h).initial
  cases h with
  | bad hget =>
    rw [responseFor_bad hget] at hpre
    exact .of_stopped (isResponse_text400 e _) hpre (Or.inl rfl)
  | missing hget hs =>
    rw [responseFor_missing hget hs] at hpre
    exact .of_stopped (isResponse_text404 e _ r.keepAlive) hpre (Or.inl rfl)
  | kept hget f st hs hrc hka =>
    have hw := written_eq_of_registered hcalls (.kept hget f st hs hrc hka) rfl
    refine .whole ?_
    rw [hw, responseFor_file hget hs]
    exact isResponse_response200 _ hs (List.mem_append_right _ (mem_fileCalls ..))
  | closed hget f st hs =>
    rw [responseFor_file hget hs] at hpre
    refine .of_stopped (isResponse_response200 r.keepAlive hs ?_) hpre (Or.inl rfl)
    exact List.mem_append_left _ (List.mem_append_right _ (mem_fileCalls ..))
  | sending hget f st hs =>
    rw [responseFor_file hget hs] at hpre
    refine .of_stopped (isResponse_response200 r.keepAlive hs ?_) hpre (Or.inr rfl)
    exact List.mem_append_right _ (mem_fileCalls ..)

theorem grows_handleRead {c : ForgeConn} (hc : ConnInv c) (cfg : ForgeCfg) (e : ConnEvent) :
    Grows c.fd e (handleRead cfg e.kernel c) := by
  have ho := outcome_handleRead cfg e.kernel hc
  generalize handleRead cfg e.kernel c = t at ho ⊢
  cases ho with
  | waits => exact .silent rfl
  | ended => exact .silent (written_closeTurn ..)
  | full => exact .silent (written_closeTurn ..)
  | more => exact .silent rfl
  | request bs _ _ _ r _ t ht =>
    have hfd : (c.receive (readBytes c bs)).fd = c.fd := rfl
    exact hfd ▸ grows_answered rfl ht

theorem grows_clientEvent {c : ForgeConn} (hc : ConnInv c) (cfg : ForgeCfg) (e : ConnEvent) :
    Grows c.fd e (clientEvent cfg e c) := by
  rcases clientEvent_cases cfg e c with h | h | h <;> rw [h]
  · exact .silent (written_closeTurn ..)
  · exact .silent rfl
  · exact grows_handleRead hc cfg e

/-! ### What `write` is asked for -/

/-- A `write` of no more than what is stored in a header array. -/
def Sys.WriteStored : Sys → Prop
  | .write _ buf n _ => n ≤ buf.length ∧ buf.length < hdrBuf
  | _ => True

theorem writeStored_sendfileLoop (fd : ℤ) (f : File) (rs : List IoResult) (off remain : ℕ) :
    ∀ x ∈ (sendfileLoop fd f rs off remain).1, x.WriteStored := by
  induction rs generalizing off remain with
  | nil => simp [sendfileLoop]
  | cons r rs ih =>
    unfold sendfileLoop
    split
    · simp
    · rcases r with n | e
      · exact List.forall_mem_cons.2 ⟨trivial, ih _ _⟩
      · dsimp only [IoResult.upTo]
        split
        · exact List.forall_mem_cons.2 ⟨trivial, ih _ _⟩
        · exact List.forall_mem_cons.2 ⟨trivial, by simp⟩

theorem writeStored_fileCalls (k : Kernel) (fd : ℤ) (fs : List UInt8) (f : File) (st : Stat)
    (keepAlive : Bool) : ∀ x ∈ fileCalls k fd fs f st keepAlive, x.WriteStored := by
  have hlt := length_text200_lt st fs keepAlive
  have hhead : ∀ res, ∀ x ∈ [Sys.cork fd true,
      .write fd (snprintf hdrBuf (text200 st.size (guessType fs) keepAlive)).stored
        (snprintf hdrBuf (text200 st.size (guessType fs) keepAlive)).ret res], x.WriteStored := by
    intro res
    refine List.forall_mem_cons.2 ⟨trivial, List.forall_mem_cons.2 ⟨?_, by simp⟩⟩
    rw [stored_snprintf hlt]
    exact ⟨le_rfl, hlt⟩
  have hloop := writeStored_sendfileLoop fd f k.sendfile 0 st.size
  have hclose : ∀ x ∈ [Sys.close f.fd], x.WriteStored := by simp [Sys.WriteStored]
  have hend : ∀ x ∈ [Sys.cork fd false, Sys.close f.fd], x.WriteStored := by
    simp [Sys.WriteStored]
  refine List.forall_mem_append.2 ⟨by simp [openCalls, Sys.WriteStored], ?_⟩
  unfold sendOpened
  dsimp only
  split
  · exact List.forall_mem_append.2 ⟨hhead _, hclose⟩
  · rcases hbody : sendfileLoop fd f k.sendfile 0 st.size with ⟨body, exit⟩
    rw [hbody] at hloop
    cases exit with
    | done => exact List.forall_mem_append.2 ⟨List.forall_mem_append.2 ⟨hhead _, hloop⟩, hend⟩
    | failed => exact List.forall_mem_append.2 ⟨List.forall_mem_append.2 ⟨hhead _, hloop⟩, hclose⟩
    | sending => exact List.forall_mem_append.2 ⟨hhead _, hloop⟩

theorem writeStored_notFoundCalls (openFile : List UInt8 → Option File)
    (docRoot path : List UInt8) : ∀ x ∈ notFoundCalls openFile docRoot path, x.WriteStored := by
  unfold notFoundCalls
  split
  · simp
  · split <;> simp [Sys.WriteStored]

theorem writeStored_connClose (c : ForgeConn) : ∀ x ∈ connClose c, x.WriteStored := by
  unfold connClose
  split <;> simp [Sys.WriteStored]

/-- **No call writes more than was stored**: every header fits in its array. -/
theorem writeStored_handleRead {c : ForgeConn} (hc : ConnInv c) (cfg : ForgeCfg) (k : Kernel) :
    ∀ x ∈ (handleRead cfg k c).calls, x.WriteStored := by
  have ho := outcome_handleRead cfg k hc
  generalize handleRead cfg k c = t at ho ⊢
  have hread : ∀ c got, ∀ x ∈ readCall c got, x.WriteStored := by
    simp [readCall, Sys.WriteStored]
  cases ho with
  | waits => simp [Sys.WriteStored]
  | ended => exact List.forall_mem_append.2 ⟨by simp [Sys.WriteStored], writeStored_connClose _⟩
  | full => exact List.forall_mem_append.2 ⟨hread _ _, writeStored_connClose _⟩
  | more => exact hread _ _
  | request bs _ _ _ r _ t ht =>
    cases ht with
    | bad =>
      refine List.forall_mem_append.2 ⟨List.forall_mem_append.2 ⟨hread _ _, ?_⟩,
        writeStored_connClose _⟩
      exact List.forall_mem_cons.2 ⟨⟨le_rfl, by decide⟩, by simp⟩
    | missing =>
      refine List.forall_mem_append.2 ⟨List.forall_mem_append.2 ⟨hread _ _,
        List.forall_mem_append.2 ⟨writeStored_notFoundCalls _ _ _, ?_⟩⟩, writeStored_connClose _⟩
      rw [httpSend404_eq]
      exact List.forall_mem_cons.2 ⟨⟨le_rfl, length_text404_lt _⟩, by simp⟩
    | kept | sending =>
      exact List.forall_mem_append.2 ⟨hread _ _, fun _ ↦ writeStored_fileCalls _ _ _ _ _ _ _⟩
    | closed =>
      exact List.forall_mem_append.2 ⟨List.forall_mem_append.2 ⟨hread _ _,
        fun _ ↦ writeStored_fileCalls _ _ _ _ _ _ _⟩, writeStored_connClose _⟩

theorem writeStored_clientEvent {c : ForgeConn} (hc : ConnInv c) (cfg : ForgeCfg)
    (e : ConnEvent) : ∀ x ∈ (clientEvent cfg e c).calls, x.WriteStored := by
  rcases clientEvent_cases cfg e c with h | h | h <;> rw [h]
  · exact writeStored_connClose c
  · simp
  · exact writeStored_handleRead hc cfg e.kernel

/-! ### Every run -/

/-- **The response stream of a connection is well framed**, in every run and whatever the kernel
answers: complete responses, then at most one that is cut, after which the connection is closed or
its call has not returned; and no `write` is asked for more than is stored. -/
theorem responses_framed (cfg : ForgeCfg) (fd : ℤ) (es : List ConnEvent) (ts : List Turn)
    (s : ConnState) (hrun : (connMachine cfg).run (.registered (.fresh fd)) es = some (ts, s)) :
    FramedStream IsResponse ConnState.Stopped (fun t ↦ written fd t.calls) es ts s ∧
      ∀ t ∈ ts, ∀ x ∈ t.calls, x.WriteStored := by
  have hstop : ∀ s : ConnState, s.Stopped → ∀ e, (connMachine cfg).step s e = none := by
    rintro s (rfl | rfl) e <;> rfl
  have hstep : ∀ s e t s', s.Inv fd → (connMachine cfg).step s e = some (t, s') →
      s'.Inv fd ∧ Extends IsResponse ConnState.Stopped (fun t ↦ written fd t.calls) e t s' := by
    intro s e t s' hs hstep
    refine ⟨inv_step hs hstep, ?_⟩
    obtain ⟨c, rfl, rfl, rfl⟩ := connMachine_step.1 hstep
    obtain ⟨hc, rfl⟩ := hs
    exact grows_clientEvent hc cfg e
  exact ⟨run_framed hstop hstep (.fresh fd) hrun,
    run_turns (fun _ e hc ↦ writeStored_clientEvent hc cfg e) hrun⟩

theorem responses_framed_get :
    written 5 (handleRead {} (.offering (ascii "GET /a HTTP/1.1\r\n\r\n")) (.fresh 5)).calls =
        text404 true ∧
      FramedStream IsResponse ConnState.Stopped (fun t ↦ written 5 t.calls)
        [.readable (.offering (ascii "GET /a HTTP/1.1\r\n\r\n"))]
        [handleRead {} (.offering (ascii "GET /a HTTP/1.1\r\n\r\n")) (.fresh 5)]
        (handleRead {} (.offering (ascii "GET /a HTTP/1.1\r\n\r\n")) (.fresh 5)).next ∧
      ∀ t ∈ [handleRead {} (.offering (ascii "GET /a HTTP/1.1\r\n\r\n")) (.fresh 5)],
        ∀ x ∈ t.calls, x.WriteStored :=
  ⟨by decide +kernel, responses_framed {} 5 _ _ _ rfl⟩

end ForgeServer
