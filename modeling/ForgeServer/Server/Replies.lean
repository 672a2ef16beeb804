import ForgeServer.Systems.Framing
import ForgeServer.Http.Fields
import ForgeServer.Http.Reading
import ForgeServer.Server.Answer
import ForgeServer.Server.Connection

/-!
# One response for each request

What an accepted request is answered with, as data (`replyTo`): a header and a body, and the header
announces the body. The stream of a connection is the responses to its accepted requests, in their
order (`replied_run`); the last one may be cut, when the connection is closed behind it or its call
has not returned. By the bytes alone a client reads them back, header and body (`ReadsReplies`).

`replied_clientEvent` is the step: a call that accepts a request writes an initial piece of its
response, the whole of it if the connection is kept, and any other call writes nothing.
-/

namespace ForgeServer

open CStr Machine

/-- A response as data; the length in its header is that of its body. -/
structure HttpResponse where
  head : ResponseHead
  body : List UInt8
  length_eq : head.length = body.length

/-- The response on the wire. -/
def HttpResponse.bytes (r : HttpResponse) : List UInt8 := r.head.text ++ r.body

theorem HttpResponse.framed (r : HttpResponse) : Framed r.head.text r.body :=
  framed_text r.length_eq

/-- **The response to a request**: 400 if it is not a GET, 404 if there is no file to serve, and
otherwise the file, with its size and the media type of its name. -/
def replyTo (cfg : ForgeCfg) (openFile : List UInt8 → Option File) (r : Request) : HttpResponse :=
  if r.method ≠ ascii "GET" then ⟨⟨.badRequest, 11, .plain, false⟩, body400, rfl⟩
  else
    match servable openFile cfg.docRoot r.path with
    | none => ⟨⟨.notFound, 13, .plain, r.keepAlive⟩, body404, rfl⟩
    | some (f, st) =>
      ⟨⟨.ok, st.size, .ofName (fsName cfg.docRoot r.path), r.keepAlive⟩, f.slice 0 st.size,
        (length_slice ..).symm⟩

/-- The code writes the response. -/
theorem responseFor_eq (cfg : ForgeCfg) (openFile : List UInt8 → Option File) (r : Request) :
    responseFor cfg openFile r = (replyTo cfg openFile r).bytes := by
  rw [responseFor, replyTo]
  split
  · exact text400_eq
  · rcases servable openFile cfg.docRoot r.path with - | ⟨f, st⟩
    · exact text404_eq r.keepAlive
    · dsimp only
      rw [response200, text200_eq, guessType_eq]
      rfl

/-- The responses to the requests that a run accepts. -/
def replies (cfg : ForgeCfg) (es : List ConnEvent) (ts : List Turn) : List HttpResponse :=
  (es.zip ts).filterMap fun p ↦ p.2.request.map (replyTo cfg p.1.kernel.openFile)

/-- The bytes that the calls for a connection put on its socket. -/
def sentStream (fd : ℤ) (ts : List Turn) : List UInt8 := ts.flatMap fun t ↦ written fd t.calls

/-- Responses one behind the other, of which only the last may be cut. -/
def Replied (rs : List HttpResponse) (stream : List UInt8) : Prop :=
  stream = rs.flatMap HttpResponse.bytes ∨
    ∃ whole last cut, rs = whole ++ [last] ∧ stream = whole.flatMap HttpResponse.bytes ++ cut ∧
      cut <+: last.bytes ∧ cut ≠ last.bytes

theorem replied_nil : Replied [] [] := Or.inl rfl

/-- An initial piece of one response. -/
theorem replied_singleton {r : HttpResponse} {w : List UInt8} (h : w <+: r.bytes) :
    Replied [r] w := by
  by_cases heq : w = r.bytes
  · exact Or.inl (by rw [heq, List.flatMap_singleton])
  · exact Or.inr ⟨[], r, w, rfl, rfl, h, heq⟩

/-- Whole responses in front. -/
theorem Replied.append {rs : List HttpResponse} {stream : List UInt8} (h : Replied rs stream)
    (qs : List HttpResponse) : Replied (qs ++ rs) (qs.flatMap HttpResponse.bytes ++ stream) := by
  rcases h with rfl | ⟨whole, last, cut, rfl, rfl, hpre, hne⟩
  · exact Or.inl (List.flatMap_append ..).symm
  · refine Or.inr ⟨qs ++ whole, last, cut, (List.append_assoc ..).symm, ?_, hpre, hne⟩
    rw [List.flatMap_append, List.append_assoc]

/-! ### The stream of a connection -/

variable {cfg : ForgeCfg}

/-- What the call for one event adds: nothing without a request, and otherwise an initial piece of
the response, which is whole if the connection is kept. -/
structure Turn.Replies (cfg : ForgeCfg) (fd : ℤ) (e : ConnEvent) (t : Turn) : Prop where
  silent : t.request = none → written fd t.calls = []
  reply : ∀ r, t.request = some r → written fd t.calls <+: (replyTo cfg e.kernel.openFile r).bytes
  whole : ∀ r d, t.request = some r → t.next = .registered d →
    written fd t.calls = (replyTo cfg e.kernel.openFile r).bytes

/-- A call without a request that writes nothing. -/
theorem Turn.Replies.of_silent {fd : ℤ} {e : ConnEvent} {t : Turn} (hreq : t.request = none)
    (hw : written fd t.calls = []) : t.Replies cfg fd e := by
  refine ⟨fun _ ↦ hw, fun r h ↦ ?_, fun r d h ↦ ?_⟩ <;>
    exact absurd (hreq.symm.trans h) (by simp)

theorem request_of_answered {k : Kernel} {c : ForgeConn} {calls : List Sys} {r : Request}
    {t : Turn} (h : Answered cfg k c calls r t) : t.request = some r := by
  cases h <;> rfl

theorem replied_handleRead {c : ForgeConn} (hc : ConnInv c) (cfg : ForgeCfg) (e : ConnEvent) :
    (handleRead cfg e.kernel c).Replies cfg c.fd e := by
  have ho := outcome_handleRead cfg e.kernel hc
  generalize handleRead cfg e.kernel c = t at ho ⊢
  cases ho with
  | waits => exact .of_silent rfl rfl
  | ended => exact .of_silent rfl (written_closeTurn ..)
  | full => exact .of_silent rfl (written_closeTurn ..)
  | more => exact .of_silent rfl rfl
  | request bs _ _ _ r _ t ht =>
    have hreq := request_of_answered ht
    have hfd : (c.receive (readBytes c bs)).fd = c.fd := rfl
    refine ⟨fun h ↦ absurd (h.symm.trans hreq) (by simp), fun r' h ↦ ?_, fun r' d h hd ↦ ?_⟩
    · obtain rfl := Option.some.inj (hreq.symm.trans h)
      rw [← responseFor_eq, ← hfd]
      exact (answersWith_of_answered rfl ht).initial
    · obtain rfl := Option.some.inj (hreq.symm.trans h)
      rw [← responseFor_eq, ← hfd]
      exact written_eq_of_registered rfl ht hd

theorem replied_clientEvent {c : ForgeConn} (hc : ConnInv c) (cfg : ForgeCfg) (e : ConnEvent) :
    (clientEvent cfg e c).Replies cfg c.fd e := by
  rcases clientEvent_cases cfg e c with h | h | h <;> rw [h]
  · exact .of_silent rfl (written_closeTurn ..)
  · exact .of_silent rfl rfl
  · exact replied_handleRead hc cfg e

/-- **The stream of a connection is one response for each request**, from any state on. -/
theorem replied_run {fd : ℤ} {s s' : ConnState} {es : List ConnEvent} {ts : List Turn}
    (hs : s.Inv fd) (hrun : (connMachine cfg).run s es = some (ts, s')) :
    Replied (replies cfg es ts) (sentStream fd ts) := by
  induction es generalizing s ts with
  | nil =>
    obtain ⟨rfl, -⟩ := Prod.mk.inj (Option.some.inj hrun)
    exact replied_nil
  | cons e es ih =>
    obtain ⟨t, s₁, ts, hstep, hrun, rfl⟩ := (connMachine cfg).run_cons_eq_some.1 hrun
    have hs₁ := inv_step hs hstep
    obtain ⟨c, rfl, rfl, rfl⟩ := connMachine_step.1 hstep
    obtain ⟨hc, rfl⟩ := hs
    have hrest := ih hs₁ hrun
    have hreplies := replied_clientEvent hc cfg e
    generalize clientEvent cfg e c = t at *
    rcases hreq : t.request with - | r
    · have hcons : replies cfg (e :: es) (t :: ts) = replies cfg es ts := by
        rw [replies, List.zip_cons_cons, List.filterMap_cons, hreq]
        rfl
      rw [hcons, sentStream, List.flatMap_cons, hreplies.silent hreq]
      exact hrest
    · have hcons : replies cfg (e :: es) (t :: ts) =
          [replyTo cfg e.kernel.openFile r] ++ replies cfg es ts := by
        rw [replies, List.zip_cons_cons, List.filterMap_cons, hreq]
        rfl
      rw [hcons, sentStream, List.flatMap_cons]
      by_cases hkept : ∃ d, t.next = .registered d
      · obtain ⟨d, hd⟩ := hkept
        rw [hreplies.whole r d hreq hd, ← List.flatMap_singleton HttpResponse.bytes]
        exact hrest.append _
      · -- nothing runs from here
        have hstop : ∀ e', (connMachine cfg).step t.next e' = none := by
          intro e'
          rcases hnext : t.next with d | - | - | -
          · exact absurd ⟨d, hnext⟩ hkept
          all_goals rfl
        obtain ⟨rfl, rfl, -⟩ := eq_of_run_of_stopped hstop hrun
        rw [List.flatMap_nil, List.append_nil]
        exact replied_singleton (hreplies.reply r hreq)

/-! ### Reading it -/

/-- **What a client reads**: each of the responses, header and body, and nothing else is in the
stream but perhaps a part of the last one. -/
def ReadsReplies (rs : List HttpResponse) (stream : List UInt8) : Prop :=
  ∃ whole cut,
    (readResponses stream).1.map (fun p ↦ (readHead p.1, p.2)) =
        whole.map (fun r : HttpResponse ↦ (some r.head, r.body)) ∧
      (readResponses stream).2 = cut ∧
      (rs = whole ∧ cut = [] ∨
        ∃ last, rs = whole ++ [last] ∧ cut <+: last.bytes ∧ cut ≠ last.bytes)

/-- Responses one behind the other read back. -/
theorem Replied.reads {rs : List HttpResponse} {stream : List UInt8} (h : Replied rs stream) :
    ReadsReplies rs stream := by
  have hread : ∀ (whole : List HttpResponse) (cut : List UInt8), readResponse cut = none →
      readResponses (whole.flatMap HttpResponse.bytes ++ cut) =
        (whole.map fun r ↦ (r.head.text, r.body), cut) := by
    intro whole cut hcut
    have hparts : whole.flatMap HttpResponse.bytes =
        (whole.map fun r ↦ (r.head.text, r.body)).flatMap fun p ↦ p.1 ++ p.2 := by
      rw [List.flatMap_map]
      rfl
    rw [hparts]
    refine readResponses_of_framed (fun p hp ↦ ?_) hcut
    obtain ⟨r, -, rfl⟩ := List.mem_map.1 hp
    exact r.framed
  have hheads : ∀ whole : List HttpResponse,
      (whole.map fun r ↦ (r.head.text, r.body)).map (fun p ↦ (readHead p.1, p.2)) =
        whole.map fun r ↦ (some r.head, r.body) := by
    intro whole
    rw [List.map_map]
    exact List.map_congr_left fun r _ ↦ by rw [Function.comp_apply, readHead_text]
  rcases h with rfl | ⟨whole, last, cut, rfl, rfl, hpre, hne⟩
  · refine ⟨rs, [], ?_, ?_, Or.inl ⟨rfl, rfl⟩⟩ <;>
      rw [← List.append_nil (rs.flatMap _), hread rs [] readResponse_nil]
    exact hheads rs
  · have hcut := readResponse_of_cut last.framed hpre hne
    refine ⟨whole, cut, ?_, ?_, Or.inr ⟨last, rfl, hpre, hne⟩⟩ <;> rw [hread whole cut hcut]
    exact hheads whole

end ForgeServer
