import ForgeServer.Http.RequestLine
import ForgeServer.Server.DocumentRoot

/-!
# The file that is asked for

The name a path asks for (`askedName`) against the name that `http_send_static_file` opens and
classifies. The document root has no bound, the array `fs` has 2048 bytes, and what `snprintf`
returns is ignored: a name that does not fit loses its end and is opened all the same
(`asked_file_iff`). The shortened name may be that of another file (`shortened_name_opened`).

A path from the parser has at most 1023 bytes, so with a document root of up to 1023 bytes every
name fits, in every run of a connection (`opened_asked`).
-/

namespace ForgeServer

open CStr

/-! ### The name -/

/-- What a path asks for below the document root: the path without one leading slash. -/
def askedTail (path : List UInt8) : List UInt8 :=
  if path = ascii "/" then ascii "index.html"
  else if path.head? = some 47 then path.tail else path

/-- The name a path asks for. -/
def askedName (docRoot path : List UInt8) : List UInt8 := docRoot ++ 47 :: askedTail path

/-- The text that `snprintf` is to print is that name. -/
theorem fsText_eq_askedName (docRoot path : List UInt8) :
    fsText docRoot path = askedName docRoot path := by
  rw [fsText, askedName, askedTail]
  split
  · rw [show ascii "/index.html" = 47 :: ascii "index.html" by decide]
  · rw [show ascii "/" = [47] by decide, List.append_assoc, List.singleton_append]

/-- The bytes a path adds to the document root. -/
def addedBytes (path : List UInt8) : ℕ :=
  if path = ascii "/" then 11 else if path.head? = some 47 then path.length else path.length + 1

theorem length_askedName (docRoot path : List UInt8) :
    (askedName docRoot path).length = docRoot.length + addedBytes path := by
  rw [askedName, askedTail, addedBytes, List.length_append, List.length_cons]
  split
  · rfl
  · split
    · rename_i hhead
      obtain ⟨t, rfl⟩ := List.head?_eq_some_iff.1 hhead
      rfl
    · rfl

/-! ### What is done with it -/

/-- `http_send_static_file` behind `snprintf`, with a name in the array `fs`. -/
def sendNamed (k : Kernel) (fd : ℤ) (name : List UInt8) (keepAlive : Bool) : Sent :=
  match k.openFile name with
  | none => ⟨.openFile name none :: httpSend404 k fd keepAlive, some (-1)⟩
  | some f =>
    match f.stat.filter (·.isReg) with
    | none =>
      ⟨[.openFile name (some f.fd), .fstat f.fd f.stat, .close f.fd] ++ httpSend404 k fd keepAlive,
        some (-1)⟩
    | some st =>
      let sent := sendOpened k fd name f st keepAlive
      ⟨[.openFile name (some f.fd), .fstat f.fd f.stat] ++ sent.calls, sent.rc⟩

variable {k : Kernel} {fd : ℤ} {docRoot path : List UInt8} {keepAlive : Bool}

/-- The name in the array is what `snprintf` has left of the name asked for. -/
theorem httpSendStaticFile_eq_sendNamed (hdot : httpPathHasDotdot path = false) :
    httpSendStaticFile k fd docRoot path keepAlive =
      sendNamed k fd (snprintf fsBuf (askedName docRoot path)).stored keepAlive := by
  rw [httpSendStaticFile, if_neg (Bool.eq_false_iff.1 hdot), ← fsText_eq_askedName]
  rfl

/-- The name in the array is opened, and no other. -/
theorem opened_sendNamed (k : Kernel) (fd : ℤ) (name : List UInt8) (keepAlive : Bool) :
    opened (sendNamed k fd name keepAlive).calls = [name] := by
  unfold sendNamed
  split
  · rfl
  · split
    · rfl
    · show opened (_ ++ _) = _
      rw [opened_append, opened_sendOpened]
      rfl

/-- **The file opened is the file asked for**: the name is opened and classified whole, or the
answer is the 404 and nothing is opened. -/
structure AnswersAsked (k : Kernel) (fd : ℤ) (docRoot path : List UInt8) (keepAlive : Bool) :
    Prop where
  opens : (askedName docRoot path).length < fsBuf →
    opened (httpSendStaticFile k fd docRoot path keepAlive).calls = [askedName docRoot path]
  sends : (askedName docRoot path).length < fsBuf →
    httpSendStaticFile k fd docRoot path keepAlive =
      sendNamed k fd (askedName docRoot path) keepAlive
  refuses : fsBuf ≤ (askedName docRoot path).length →
    httpSendStaticFile k fd docRoot path keepAlive = ⟨httpSend404 k fd keepAlive, some (-1)⟩

/-- **Exactly when the file opened is the file asked for**: when the document root and the path are
together short enough for the array. A name that does not fit is opened without its end, whatever
file that is. -/
theorem asked_file_iff (k : Kernel) (fd : ℤ) (docRoot path : List UInt8) (keepAlive : Bool)
    (hdot : httpPathHasDotdot path = false) :
    AnswersAsked k fd docRoot path keepAlive ↔ docRoot.length + addedBytes path < fsBuf := by
  rw [← length_askedName]
  constructor
  · intro h
    by_contra hlong
    have hopened := opened_sendNamed k fd (snprintf fsBuf (askedName docRoot path)).stored keepAlive
    rw [← httpSendStaticFile_eq_sendNamed hdot, h.refuses (not_lt.1 hlong)] at hopened
    exact List.cons_ne_nil _ _ hopened.symm
  · intro hfit
    have hsends : httpSendStaticFile k fd docRoot path keepAlive =
        sendNamed k fd (askedName docRoot path) keepAlive := by
      rw [httpSendStaticFile_eq_sendNamed hdot, stored_snprintf hfit]
    refine ⟨fun _ ↦ ?_, fun _ ↦ hsends, fun hlong ↦ absurd hfit (not_lt.2 hlong)⟩
    rw [hsends, opened_sendNamed]

/-- A document root of 2040 bytes: the name of `/a.html.bak` is cut down to that of `/a.html`. -/
theorem shortened_name_opened :
    opened (httpSendStaticFile (.serving []) 5 (List.replicate 2040 100) (ascii "/a.html.bak")
        true).calls = [List.replicate 2040 100 ++ ascii "/a.html"] ∧
      ¬ AnswersAsked (.serving []) 5 (List.replicate 2040 100) (ascii "/a.html.bak") true := by
  have hdot : httpPathHasDotdot (ascii "/a.html.bak") = false := by decide
  have hname : (snprintf fsBuf (askedName (List.replicate 2040 100) (ascii "/a.html.bak"))).stored =
      List.replicate 2040 100 ++ ascii "/a.html" := by
    have htake : (47 :: askedTail (ascii "/a.html.bak")).take 7 = ascii "/a.html" := by decide
    rw [snprintf, askedName, fsBuf, List.take_append, List.length_replicate,
      List.take_of_length_le (by rw [List.length_replicate]; decide), htake]
  have hopened := opened_sendNamed (.serving []) 5 (List.replicate 2040 100 ++ ascii "/a.html") true
  rw [← hname, ← httpSendStaticFile_eq_sendNamed hdot, hname] at hopened
  refine ⟨hopened, fun h ↦ ?_⟩
  have hlong : fsBuf ≤ (askedName (List.replicate 2040 100) (ascii "/a.html.bak")).length := by
    rw [length_askedName, List.length_replicate]
    decide
  rw [h.refuses hlong] at hopened
  exact List.cons_ne_nil _ _ hopened.symm

/-- A name that fits. -/
theorem asked_file_iff_short : AnswersAsked (.serving []) 5 (ascii "./public") (ascii "/a") true :=
  (asked_file_iff (.serving []) 5 (ascii "./public") (ascii "/a") true (by decide)).2 (by decide)

/-! ### Every run -/

/-- The path of a request fits in its array. -/
theorem path_le_of_request {c : ForgeConn} (hc : ConnInv c) {cfg : ForgeCfg} {k : Kernel}
    {r : Request} (h : (handleRead cfg k c).request = some r) : r.path.length ≤ 1023 := by
  have ho := outcome_handleRead cfg k hc
  generalize handleRead cfg k c = t at ho h
  cases ho with
  | waits | more | ended | full => exact absurd h (by simp [closeTurn])
  | request bs _ _ _ r' hreq t ht =>
    have hr : t.request = some r' := by cases ht <;> rfl
    obtain rfl := Option.some.inj (hr.symm.trans h)
    obtain ⟨-, -, s, -, hwords⟩ := requestOf_spec hreq
    exact (requestWords_spec hwords).2.1.1

theorem addedBytes_le (path : List UInt8) : addedBytes path ≤ max 11 (path.length + 1) := by
  rw [addedBytes]
  split_ifs <;> omega

/-- Every name a call opens is the one its request asks for. -/
def Turn.OpensAsked (docRoot : List UInt8) (t : Turn) : Prop :=
  ∀ name ∈ opened t.calls, ∃ r, t.request = some r ∧ name = askedName docRoot r.path

theorem opensAsked_clientEvent {c : ForgeConn} (hc : ConnInv c) {cfg : ForgeCfg}
    (hroot : cfg.docRoot.length ≤ 1023) (e : ConnEvent) :
    (clientEvent cfg e c).OpensAsked cfg.docRoot := by
  intro name hname
  rcases clientEvent_cases cfg e c with h | h | h <;> rw [h] at hname ⊢
  · rw [opened_closeTurn] at hname
    exact absurd hname List.not_mem_nil
  · exact absurd hname List.not_mem_nil
  · obtain ⟨r, hreq, -, rfl⟩ := opened_handleRead hc cfg e.kernel name hname
    have hpath := path_le_of_request hc hreq
    have hadded := addedBytes_le r.path
    refine ⟨r, hreq, ?_⟩
    rw [fsName, fsText_eq_askedName, stored_snprintf]
    rw [length_askedName, fsBuf]
    omega

/-- **With a document root of up to 1023 bytes the file opened is the file asked for**, for whatever
a client sends. -/
theorem opened_asked (cfg : ForgeCfg) (hroot : cfg.docRoot.length ≤ 1023) (fd : ℤ)
    (es : List ConnEvent) (ts : List Turn) (s : ConnState)
    (hrun : (connMachine cfg).run (.registered (.fresh fd)) es = some (ts, s)) :
    ∀ t ∈ ts, t.OpensAsked cfg.docRoot :=
  run_turns (fun _ e hc ↦ opensAsked_clientEvent hc hroot e) hrun

end ForgeServer
