import ForgeServer.Http.Sending
import ForgeServer.Server.Outcome

/-!
# What an answer puts on the socket

An accepted request has one response, `responseFor`. `answersWith_of_answered` says that the call
which answers it writes that response and nothing else: all of it, unless one of its writes fails or
it has not returned. What the results on response streams, on the `Connection` field and on requests
in pieces need to know of an answer is read off `AnswersWith`.
-/

namespace ForgeServer

open CStr

/-! ### Calls that write nothing -/

theorem written_connClose (fd : ℤ) (c : ForgeConn) : written fd (connClose c) = [] := by
  unfold connClose
  split <;> rfl

theorem written_closeTurn (fd : ℤ) (c : ForgeConn) (calls : List Sys) (r : Option Request) :
    written fd (closeTurn c calls r).calls = written fd calls := by
  rw [closeTurn, written_append, written_connClose, List.append_nil]

theorem written_fileCalls (k : Kernel) (fd : ℤ) (fs : List UInt8) (f : File) (st : Stat)
    (keepAlive : Bool) :
    written fd (fileCalls k fd fs f st keepAlive) =
      written fd (sendOpened k fd fs f st keepAlive).calls := by
  rw [fileCalls, written_append, openCalls]
  rfl

theorem written_notFoundCalls (fd : ℤ) (openFile : List UInt8 → Option File)
    (docRoot path : List UInt8) : written fd (notFoundCalls openFile docRoot path) = [] := by
  unfold notFoundCalls
  split
  · rfl
  · split <;> rfl

theorem mem_fileCalls (k : Kernel) (fd : ℤ) (fs : List UInt8) (f : File) (st : Stat)
    (keepAlive : Bool) : .openFile fs (some f.fd) ∈ fileCalls k fd fs f st keepAlive :=
  List.mem_append_left _ List.mem_cons_self

/-! ### The one response -/

/-- The response to an accepted request: a 400 if it is not a GET, a 404 if there is no file to
serve, and a 200 with the file otherwise. -/
def responseFor (cfg : ForgeCfg) (openFile : List UInt8 → Option File) (r : Request) :
    List UInt8 :=
  if r.method ≠ ascii "GET" then text400
  else
    match servable openFile cfg.docRoot r.path with
    | none => text404 r.keepAlive
    | some (f, st) => response200 (fsName cfg.docRoot r.path) f st r.keepAlive

section ResponseFor

variable {cfg : ForgeCfg} {openFile : List UInt8 → Option File} {r : Request}

theorem responseFor_bad (hget : r.method ≠ ascii "GET") : responseFor cfg openFile r = text400 :=
  if_pos hget

theorem responseFor_missing (hget : r.method = ascii "GET")
    (hs : servable openFile cfg.docRoot r.path = none) :
    responseFor cfg openFile r = text404 r.keepAlive := by
  rw [responseFor, if_neg (not_not.2 hget), hs]

theorem responseFor_file (hget : r.method = ascii "GET") {f : File} {st : Stat}
    (hs : servable openFile cfg.docRoot r.path = some (f, st)) :
    responseFor cfg openFile r = response200 (fsName cfg.docRoot r.path) f st r.keepAlive := by
  rw [responseFor, if_neg (not_not.2 hget), hs]

end ResponseFor

/-- The call answers with exactly one response: it writes nothing else, and all of it unless one of
its writes fails. -/
structure AnswersWith (fd : ℤ) (response : List UInt8) (t : Turn) : Prop where
  initial : written fd t.calls <+: response
  whole : t.next ≠ .sending → (∀ x ∈ t.calls, x.fails = false) → written fd t.calls = response

theorem text400_ne_nil : text400 ≠ [] := by simp [text400, ascii]

theorem text404_ne_nil (keepAlive : Bool) : text404 keepAlive ≠ [] := by
  simp [text404, ascii]

theorem text200_ne_nil (n : ℕ) (ctype : List UInt8) (keepAlive : Bool) :
    text200 n ctype keepAlive ≠ [] := by
  simp [text200, ascii]

section AnswersWith

variable {cfg : ForgeCfg} {k : Kernel} {c : ForgeConn} {calls : List Sys} {r : Request} {t : Turn}

/-- An answer that is one `write` of a whole text. -/
theorem answersWith_of_write (res : IoResult) {fd : ℤ} {text : List UInt8} (htext : text ≠ [])
    (hw : written fd t.calls = text.take res.done)
    (hmem : .write fd text text.length (res.upTo text.length) ∈ t.calls) :
    AnswersWith fd text t := by
  refine ⟨hw ▸ List.take_prefix _ _, fun _ hfails ↦ ?_⟩
  have hdone := hfails _ hmem
  rw [Sys.fails, lt_upTo res (List.length_pos_of_ne_nil htext), decide_eq_false_iff_not] at hdone
  rw [hw]
  exact List.take_of_length_le (by omega)

/-- What a call writes that sends a file. -/
theorem written_append_fileCalls (hcalls : written c.fd calls = []) (fs : List UInt8) (f : File)
    (st : Stat) (keepAlive : Bool) :
    written c.fd (calls ++ fileCalls k c.fd fs f st keepAlive) =
      written c.fd (sendOpened k c.fd fs f st keepAlive).calls := by
  rw [written_append, hcalls, List.nil_append, written_fileCalls]

/-- A connection that is kept has sent the whole response. -/
theorem written_eq_of_registered (hcalls : written c.fd calls = [])
    (h : Answered cfg k c calls r t) {d : ForgeConn} (hd : t.next = .registered d) :
    written c.fd t.calls = responseFor cfg k.openFile r := by
  cases h with
  | kept hget f st hs hrc =>
    rw [responseFor_file hget hs]
    exact (written_append_fileCalls hcalls ..).trans
      ((written_sendOpened k c.fd _ f st r.keepAlive).2.1 hrc)
  | _ => exact absurd hd (by simp [closeTurn])

/-- **Every accepted request gets the response that is for it.** -/
theorem answersWith_of_answered (hcalls : written c.fd calls = [])
    (h : Answered cfg k c calls r t) :
    AnswersWith c.fd (responseFor cfg k.openFile r) t := by
  cases h with
  | bad hget =>
    rw [responseFor_bad hget]
    refine answersWith_of_write k.write text400_ne_nil ?_ ?_
    · rw [written_closeTurn, written_append, hcalls, List.nil_append, written_httpSend400]
    · exact List.mem_append_left _ (List.mem_append_right _ List.mem_cons_self)
  | missing hget hs =>
    rw [responseFor_missing hget hs]
    refine answersWith_of_write k.write (text404_ne_nil _) ?_ ?_
    · rw [written_closeTurn, written_append, written_append, hcalls, written_notFoundCalls,
        List.nil_append, List.nil_append, written_httpSend404]
    · refine List.mem_append_left _ (List.mem_append_right _ (List.mem_append_right _ ?_))
      rw [httpSend404_eq]
      exact List.mem_cons_self
  | kept hget f st hs hrc hka =>
    have hw := written_eq_of_registered hcalls (.kept hget f st hs hrc hka) rfl
    exact ⟨hw ▸ List.prefix_rfl, fun _ _ ↦ hw⟩
  | closed hget f st hs hrc =>
    obtain ⟨hpre, hwhole⟩ := written_sendOpened k c.fd (fsName cfg.docRoot r.path) f st r.keepAlive
    have hw := written_append_fileCalls (k := k) hcalls (fsName cfg.docRoot r.path) f st r.keepAlive
    rw [responseFor_file hget hs]
    refine ⟨by rw [written_closeTurn, hw]; exact hpre, fun _ hfails ↦ ?_⟩
    rw [written_closeTurn, hw]
    -- the function returned: `0` is the whole response, `-1` has a call that failed
    rcases rc_sendOpened k c.fd (fsName cfg.docRoot r.path) f st r.keepAlive with h | h | h
    · exact absurd h hrc
    · exact hwhole.1 h
    · obtain ⟨x, hx, hx'⟩ := exists_fails_sendOpened h
      have hmem := hfails x (List.mem_append_left _ (List.mem_append_right _
        (List.mem_append_right _ hx)))
      rw [hx'] at hmem
      exact absurd hmem (by simp)
  | sending hget f st hs =>
    rw [responseFor_file hget hs]
    refine ⟨?_, fun h ↦ absurd rfl h⟩
    exact (written_append_fileCalls hcalls ..).symm ▸
      (written_sendOpened k c.fd _ f st r.keepAlive).1

end AnswersWith

end ForgeServer
