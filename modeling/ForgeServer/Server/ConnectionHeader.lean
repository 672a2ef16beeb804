import ForgeServer.Server.ResponseStream

/-!
# The `Connection` field of a response

Which value of the field a response carries, and what becomes of the connection. The field is chosen
from the flag of the request, in the header of the response (`carries_headerLines`); the connection
is closed when that flag is off *or* `http_send_static_file` returns a negative value, which it does
after a 404 as well. `header_true_iff` is exactly when the two agree.
-/

namespace ForgeServer

open CStr

/-! ### Fields of a header -/

/-- The header of a response: up to its first blank line. -/
def headOf (bs : List UInt8) : List UInt8 :=
  match crlfcrlf.firstOcc bs with
  | none => bs
  | some i => bs.take (i + 4)

/-- The header of a response has a `Connection` line with this value. -/
def Carries (value bs : List UInt8) : Prop :=
  crlf ++ (ascii "Connection: " ++ value) ++ crlf <:+: headOf bs

instance (value bs : List UInt8) : Decidable (Carries value bs) :=
  inferInstanceAs (Decidable (_ <:+: _))

theorem headOf_framed {head body : List UInt8} (h : Framed head body) :
    headOf (head ++ body) = head := by
  obtain ⟨hfirst, hlen, -⟩ := h
  rw [headOf, hfirst]
  dsimp only
  rw [Nat.sub_add_cancel hlen, List.take_left]

/-- Texts without CR in front of a CR are equal when one starts like the other. -/
theorem eq_of_cr_initial {f l s t : List UInt8} (hf : 13 ∉ f) (hl : 13 ∉ l)
    (h : f ++ 13 :: s <+: l ++ 13 :: t) : f = l := by
  have htake : ∀ u v : List UInt8, 13 ∉ u → (u ++ 13 :: v).takeWhile (· != 13) = u := by
    intro u v hu
    have hne : ∀ a ∈ u, (a != 13) = true := fun a ha ↦ bne_iff_ne.2 (ne_of_mem_of_not_mem ha hu)
    rw [List.takeWhile_append_of_pos hne]
    simp
  obtain ⟨w, hw⟩ := h
  have := congrArg (List.takeWhile (· != 13)) hw
  rwa [List.append_assoc, List.cons_append, htake _ _ hf, htake _ _ hl] at this

/-- A text that starts with CR is not met inside one without. -/
theorem cr_infix_append_iff {p u v : List UInt8} (hu : 13 ∉ u) :
    13 :: p <:+: u ++ v ↔ 13 :: p <:+: v := by
  rw [← List.isSome_firstOcc_iff, ← List.isSome_firstOcc_iff, List.firstOcc_append_of_not_mem hu,
    Option.isSome_map]

theorem headerText_cons (l : List UInt8) (lines : List (List UInt8)) :
    headerText (l :: lines) = l ++ 13 :: 10 :: headerText lines := by
  simp [headerText, crlf_eq]

/-- Behind a line end, a line stands between line ends exactly when it is one of the lines. -/
theorem line_infix_headerText_iff {f : List UInt8} (hf : f ≠ [] ∧ 13 ∉ f)
    {lines : List (List UInt8)} (h : ∀ m ∈ lines, 13 ∉ m) :
    13 :: 10 :: (f ++ [13, 10]) <:+: 13 :: 10 :: headerText lines ↔ f ∈ lines := by
  induction lines with
  | nil =>
    have hnil : headerText [] = [13, 10] := by simp [headerText, crlf_eq]
    have hlen := List.length_pos_of_ne_nil hf.1
    refine iff_of_false (fun hin ↦ ?_) List.not_mem_nil
    have := hin.length_le
    simp only [hnil, List.length_append, List.length_cons, List.length_nil] at this
    omega
  | cons l lines ih =>
    obtain ⟨hl, hlines⟩ := List.forall_mem_cons.1 h
    have hhere : f ++ [13, 10] <+: headerText (l :: lines) ↔ f = l := by
      rw [headerText_cons]
      refine ⟨eq_of_cr_initial hf.2 hl, ?_⟩
      rintro rfl
      exact (List.prefix_append_right_inj f).2 (by simp [List.cons_prefix_cons])
    have hlater : 13 :: 10 :: (f ++ [13, 10]) <:+: 10 :: headerText (l :: lines) ↔ f ∈ lines := by
      have hshape : 10 :: headerText (l :: lines) = 10 :: l ++ 13 :: 10 :: headerText lines := by
        rw [headerText_cons, List.cons_append]
      rw [hshape, cr_infix_append_iff (by simpa using hl), ih hlines]
    rw [List.infix_cons_iff, hlater, List.cons_prefix_cons, List.cons_prefix_cons, hhere,
      List.mem_cons]
    simp

/-- **A line is found between line ends of a header exactly when it is one of its lines** after the
first. -/
theorem line_infix_iff {f : List UInt8} (hf : f ≠ [] ∧ 13 ∉ f) {l : List UInt8}
    {lines : List (List UInt8)} (h : ∀ m ∈ l :: lines, 13 ∉ m) :
    crlf ++ f ++ crlf <:+: headerText (l :: lines) ↔ f ∈ lines := by
  obtain ⟨hl, hlines⟩ := List.forall_mem_cons.1 h
  have hpat : crlf ++ f ++ crlf = 13 :: 10 :: (f ++ [13, 10]) := by simp [crlf_eq]
  rw [hpat, headerText_cons, cr_infix_append_iff hl, line_infix_headerText_iff hf hlines]

/-- The value of the `Connection` line is the one of the flag. -/
theorem connection_mem_iff (n : ℕ) (ctype : List UInt8) (keepAlive ka : Bool)
    {more : List (List UInt8)} (hmore : ∀ l ∈ more, l.take 11 ≠ ascii "Connection:") :
    ascii "Connection: " ++ connectionValue ka ∈
      (ascii "Content-Length: " ++ decimal n) :: (ascii "Content-Type: " ++ ctype) ::
        (ascii "Connection: " ++ connectionValue keepAlive) :: more ↔ ka = keepAlive := by
  have hname : (ascii "Connection: " ++ connectionValue ka).take 11 = ascii "Connection:" := by
    cases ka <;> decide
  have hlength : ∀ x,
      ascii "Connection: " ++ connectionValue ka ≠ ascii "Content-Length: " ++ x := by
    intro x h
    rw [h, List.take_append_of_le_length (by decide)] at hname
    exact absurd hname (by decide)
  have htype : ∀ x, ascii "Connection: " ++ connectionValue ka ≠ ascii "Content-Type: " ++ x := by
    intro x h
    rw [h, List.take_append_of_le_length (by decide)] at hname
    exact absurd hname (by decide)
  have hother : ascii "Connection: " ++ connectionValue ka ∉ more := fun h ↦ hmore _ h hname
  have hvalue : connectionValue ka = connectionValue keepAlive ↔ ka = keepAlive := by
    cases ka <;> cases keepAlive <;> decide
  simp only [List.mem_cons, hlength, htype, hother, false_or, or_false,
    List.append_cancel_left_eq, hvalue]

/-- **Which value a response carries**: the one of the flag its header was printed with. -/
theorem carries_headerLines {status ctype : List UInt8} (body : List UInt8) (keepAlive : Bool)
    {more : List (List UInt8)} (hstatus : status ≠ [] ∧ 13 ∉ status) (hctype : 13 ∉ ctype)
    (hmore : ∀ l ∈ more, (l ≠ [] ∧ 13 ∉ l) ∧ l.take 11 ≠ ascii "Connection:") (ka : Bool) :
    Carries (connectionValue ka)
        (headerText (headerLines status body.length ctype keepAlive more) ++ body) ↔
      ka = keepAlive := by
  rw [Carries, headOf_framed (framed_headerLines body keepAlive hstatus hctype
    fun l hl ↦ (hmore l hl).1)]
  have hfield : ascii "Connection: " ++ connectionValue ka ≠ [] ∧
      13 ∉ ascii "Connection: " ++ connectionValue ka := by
    cases ka <;> decide
  have hlines : ∀ m ∈ headerLines status body.length ctype keepAlive more, 13 ∉ m := by
    intro m hm
    simp only [headerLines, List.mem_cons] at hm
    rcases hm with rfl | rfl | rfl | rfl | hm
    · exact hstatus.2
    · exact fun h ↦ (List.mem_append.1 h).elim (by decide) fun h ↦
        absurd (isDigit_of_mem_decimal 13 h) (by decide)
    · exact fun h ↦ (List.mem_append.1 h).elim (by decide) hctype
    · cases keepAlive <;> decide
    · exact (hmore m hm).1.2
  rw [headerLines] at hlines ⊢
  rw [line_infix_iff hfield hlines]
  exact connection_mem_iff body.length ctype keepAlive ka fun l hl ↦ (hmore l hl).2

theorem carries_text404 (keepAlive ka : Bool) :
    Carries (connectionValue ka) (text404 keepAlive) ↔ ka = keepAlive := by
  have h := carries_headerLines body404 keepAlive
    (show ascii "HTTP/1.1 404 Not Found" ≠ [] ∧ 13 ∉ ascii "HTTP/1.1 404 Not Found" by decide)
    (show 13 ∉ ascii "text/plain" by decide) (by simp : ∀ l ∈ ([] : List (List UInt8)), _) ka
  rw [text404_eq]
  exact h

theorem carries_text400 (ka : Bool) : Carries (connectionValue ka) text400 ↔ ka = false := by
  have h := carries_headerLines body400 false
    (show ascii "HTTP/1.1 400 Bad Request" ≠ [] ∧ 13 ∉ ascii "HTTP/1.1 400 Bad Request" by decide)
    (show 13 ∉ ascii "text/plain" by decide) (by simp : ∀ l ∈ ([] : List (List UInt8)), _) ka
  rw [text400_eq]
  exact h

theorem carries_response200 (fs : List UInt8) (f : File) (st : Stat) (keepAlive ka : Bool) :
    Carries (connectionValue ka) (response200 fs f st keepAlive) ↔ ka = keepAlive := by
  have h := carries_headerLines (f.slice 0 st.size) keepAlive
    (show ascii "HTTP/1.1 200 OK" ≠ [] ∧ 13 ∉ ascii "HTTP/1.1 200 OK" by decide)
    (length_guessType_le fs).2
    (show ∀ l ∈ [ascii "Last-Modified: Thu, 01 Jan 1970 00:00:00 GMT"],
      (l ≠ [] ∧ 13 ∉ l) ∧ l.take 11 ≠ ascii "Connection:" by decide) ka
  rw [response200, text200_eq]
  rwa [length_slice] at h

/-! ### Calls done in full -/

/-- A `write` or `sendfile` did all it was asked for. -/
def Sys.Full : Sys → Prop
  | .write _ _ n res => res = .count n
  | .sendfile _ _ _ count res _ => res = .count count
  | _ => True

instance : DecidablePred Sys.Full
  | .write _ _ n res => inferInstanceAs (Decidable (res = .count n))
  | .sendfile _ _ _ count res _ => inferInstanceAs (Decidable (res = .count count))
  | .read .. | .openFile .. | .fstat .. | .cork .. | .close .. | .epollDel .. | .free =>
    inferInstanceAs (Decidable True)

/-- A call done in full did not fail. -/
theorem Sys.Full.not_fails {x : Sys} (h : x.Full) : x.fails = false := by
  cases x with
  | write fd buf n res =>
    rw [show res = .count n from h]
    exact decide_eq_false (Nat.lt_irrefl n)
  | sendfile out file off count res moved =>
    rw [show res = .count count from h]
    rfl
  | _ => rfl

/-! ### The field and the connection -/

/-- **The field tells the truth**: a response that was written says `keep-alive` exactly when the
connection is still registered, and `close` exactly when it is closed. -/
def HeaderTrue (fd : ℤ) (t : Turn) : Prop :=
  written fd t.calls ≠ [] →
    (Carries (ascii "keep-alive") (written fd t.calls) ↔ ∃ c, t.next = .registered c) ∧
      (Carries (ascii "close") (written fd t.calls) ↔ t.next = .closed)

theorem headerTrue_of_silent {t : Turn} (h : written fd t.calls = []) : HeaderTrue fd t :=
  fun hne ↦ absurd h hne

theorem headerTrue_of_closed {t : Turn} {keepAlive : Bool} (hne : written fd t.calls ≠ [])
    (hcar : ∀ ka, Carries (connectionValue ka) (written fd t.calls) ↔ ka = keepAlive)
    (hnext : t.next = .closed) : HeaderTrue fd t ↔ keepAlive = false := by
  have hkeep := hcar true
  have hclose := hcar false
  rw [show connectionValue true = ascii "keep-alive" from rfl] at hkeep
  rw [show connectionValue false = ascii "close" from rfl] at hclose
  rw [HeaderTrue, hkeep, hclose, hnext]
  cases keepAlive <;> simp [hne]

theorem headerTrue_of_registered {t : Turn} {c : ForgeConn}
    (hcar : ∀ ka, Carries (connectionValue ka) (written fd t.calls) ↔ ka = true)
    (hnext : t.next = .registered c) : HeaderTrue fd t := by
  have hkeep := hcar true
  have hclose := hcar false
  rw [show connectionValue true = ascii "keep-alive" from rfl] at hkeep
  rw [show connectionValue false = ascii "close" from rfl] at hclose
  rw [HeaderTrue, hkeep, hclose, hnext]
  simp

/-- The condition on an accepted request: a GET that asks to be kept alive is for a file. -/
def KeepsOnlyFiles (cfg : ForgeCfg) (k : Kernel) (r : Request) : Prop :=
  r.method = ascii "GET" → r.keepAlive = true → (servable k.openFile cfg.docRoot r.path).isSome

/-- **An answer tells the truth exactly when** it is not a 404 to a GET that asks to be kept. -/
theorem headerTrue_answered {cfg : ForgeCfg} {c : ForgeConn} {calls : List Sys} {r : Request}
    {t : Turn} (hcalls : written c.fd calls = []) (h : Answered cfg k c calls r t)
    (hfull : ∀ x ∈ t.calls, x.Full) (hret : t.next ≠ .sending) :
    HeaderTrue c.fd t ↔ KeepsOnlyFiles cfg k r := by
  have hw : written c.fd t.calls = responseFor cfg k.openFile r :=
    (answersWith_of_answered hcalls h).whole hret fun x hx ↦ (hfull x hx).not_fails
  cases h with
  | bad hget =>
    rw [responseFor_bad hget] at hw
    rw [headerTrue_of_closed (by rw [hw]; exact text400_ne_nil) (by rw [hw]; exact carries_text400)
      rfl]
    exact iff_of_true rfl fun h ↦ absurd h hget
  | missing hget hs =>
    rw [responseFor_missing hget hs] at hw
    rw [headerTrue_of_closed (by rw [hw]; exact text404_ne_nil _)
      (by rw [hw]; exact carries_text404 r.keepAlive) rfl]
    simp [KeepsOnlyFiles, hget, hs]
  | kept hget f st hs hrc hka =>
    rw [responseFor_file hget hs] at hw
    refine iff_of_true (headerTrue_of_registered ?_ rfl) fun _ _ ↦ by rw [hs]; rfl
    rw [hw, hka]
    exact carries_response200 _ f st true
  | closed hget f st hs hrc hka =>
    rw [responseFor_file hget hs] at hw
    -- the whole response is out, so the function has returned `0`
    have hrc0 := (written_sendOpened k c.fd (fsName cfg.docRoot r.path) f st r.keepAlive).2.2 (by
      rw [← written_append_fileCalls hcalls, ← hw, written_closeTurn])
    have hne : response200 (fsName cfg.docRoot r.path) f st r.keepAlive ≠ [] :=
      fun h ↦ text200_ne_nil _ _ _ (List.append_eq_nil_iff.1 h).1
    rw [headerTrue_of_closed (by rw [hw]; exact hne)
      (by rw [hw]; exact carries_response200 _ f st r.keepAlive) rfl]
    exact iff_of_true (hka hrc0) fun _ _ ↦ by rw [hs]; rfl
  | sending => exact absurd rfl hret

/-- **When the `Connection` header tells the truth.** With all writes done in full, a call tells the
truth exactly when it does not accept a GET that asks to be kept alive and is not for a file. -/
theorem header_true_iff (cfg : ForgeCfg) (fd : ℤ) (es : List ConnEvent) (ts : List Turn)
    (c : ForgeConn) (k : Kernel)
    (hrun : (connMachine cfg).run (.registered (.fresh fd)) es = some (ts, .registered c))
    (hfull : ∀ x ∈ (handleRead cfg k c).calls, x.Full)
    (hret : (handleRead cfg k c).next ≠ .sending) :
    HeaderTrue fd (handleRead cfg k c) ↔ ∀ r, accepted k c = some r → KeepsOnlyFiles cfg k r := by
  obtain ⟨hc, rfl⟩ := reachable_registered ⟨es, ts, hrun⟩
  rw [← request_handleRead hc cfg k]
  have ho := outcome_handleRead cfg k hc
  generalize handleRead cfg k c = t at ho hfull hret ⊢
  cases ho with
  | waits => exact iff_of_true (headerTrue_of_silent rfl) (by simp)
  | ended => exact iff_of_true (headerTrue_of_silent (written_closeTurn ..)) (by simp [closeTurn])
  | full => exact iff_of_true (headerTrue_of_silent (written_closeTurn ..)) (by simp [closeTurn])
  | more => exact iff_of_true (headerTrue_of_silent rfl) (by simp)
  | request bs _ _ _ r _ t ht =>
    have hreq : t.request = some r := by cases ht <;> rfl
    have hfd : (c.receive (readBytes c bs)).fd = c.fd := rfl
    rw [hreq, ← hfd, headerTrue_answered rfl ht hfull hret]
    simp

/-- A GET for a file, kept alive. -/
theorem header_true_iff_get :
    accepted (.serving (ascii "GET /a HTTP/1.1\r\n\r\n")) (.fresh 5) =
        some ⟨ascii "GET", ascii "/a", ascii "HTTP/1.1", true, 19⟩ ∧
      HeaderTrue 5 (handleRead {} (.serving (ascii "GET /a HTTP/1.1\r\n\r\n")) (.fresh 5)) := by
  have hreq : accepted (.serving (ascii "GET /a HTTP/1.1\r\n\r\n")) (.fresh 5) =
      some ⟨ascii "GET", ascii "/a", ascii "HTTP/1.1", true, 19⟩ := by
    decide +kernel
  refine ⟨hreq, (header_true_iff {} 5 [] [] (.fresh 5) _ rfl (by decide +kernel)
    (by decide +kernel)).2 fun r hr ↦ ?_⟩
  obtain rfl := Option.some.inj (hreq.symm.trans hr)
  intro _ _
  decide

/-- A file that is missing, and a request that asks to be kept alive: the 404 says that it is, and
the connection is closed. -/
theorem header_false_missing :
    (∀ x ∈ (handleRead {} (.offering (ascii "GET /missing HTTP/1.1\r\n\r\n")) (.fresh 5)).calls,
        x.Full) ∧
      (handleRead {} (.offering (ascii "GET /missing HTTP/1.1\r\n\r\n")) (.fresh 5)).next =
        .closed ∧
      ¬ HeaderTrue 5
        (handleRead {} (.offering (ascii "GET /missing HTTP/1.1\r\n\r\n")) (.fresh 5)) := by
  have hclosed : (handleRead {} (.offering (ascii "GET /missing HTTP/1.1\r\n\r\n"))
      (.fresh 5)).next = .closed := by decide +kernel
  have hwritten : written 5 (handleRead {} (.offering (ascii "GET /missing HTTP/1.1\r\n\r\n"))
      (.fresh 5)).calls = text404 true := by decide +kernel
  refine ⟨by decide +kernel, hclosed, fun h ↦ ?_⟩
  rw [HeaderTrue, hwritten, hclosed] at h
  obtain ⟨c, hc⟩ := (h (by decide)).1.1 ((carries_text404 true true).2 rfl)
  exact absurd hc (by simp)

end ForgeServer
