import Mathlib.Algebra.Ring.Nat
import ForgeServer.Http.Parser
import ForgeServer.Http.Static

/-!
# Complete responses

What a client has to find on the wire, stated without the functions that write it: a response is a
header up to the first blank line and a body of as many bytes as the header's `Content-Length` reads
(`Framed`). The three writers produce such texts (`framed_text404`, `framed_text400`,
`framed_response200`), which all have the shape `headerText`: lines without CR, each ended by CRLF,
and an empty line.

Then what each writer puts on the socket, for every answer of the kernel: `written_httpSend404`,
`written_httpSend400` and `written_sendOpened`. The last one is where the offset and the remaining
count of the `sendfile` loop have to stay in step (`sendfileLoop_spec`): whatever the loop sends is
an initial piece of the file, and it is left by the loop condition exactly when the piece is whole.
-/

namespace ForgeServer

open CStr

/-! ### The shape of a response -/

/-- The value of the `Content-Length` field of a header. -/
def contentLength (head : List UInt8) : Option ℕ := do
  let i ← (ascii "\r\nContent-Length: ").firstOcc head
  readDecimal (head.drop (i + 18))

/-- A response with its header and body: the header is everything up to the first blank line, and
its `Content-Length` reads back as the length of the body. -/
def Framed (head body : List UInt8) : Prop :=
  crlfcrlf.firstOcc (head ++ body) = some (head.length - 4) ∧ 4 ≤ head.length ∧
    contentLength head = some body.length

instance (head body : List UInt8) : Decidable (Framed head body) :=
  inferInstanceAs (Decidable (_ ∧ _ ∧ _))

/-- A header text: lines, each ended by CRLF, and an empty line. -/
def headerText (lines : List (List UInt8)) : List UInt8 := lines.flatMap (· ++ crlf) ++ crlf

/-- **The first blank line is the one at the end** of a header text of nonempty lines without
CR. -/
theorem firstOcc_headerText {lines : List (List UInt8)} (hne : lines ≠ [])
    (h : ∀ l ∈ lines, l ≠ [] ∧ 13 ∉ l) (body : List UInt8) :
    crlfcrlf.firstOcc (headerText lines ++ body) = some ((headerText lines).length - 4) := by
  rw [crlfcrlf_eq]
  induction lines with
  | nil => exact absurd rfl hne
  | cons l lines ih =>
    have hl := (h l List.mem_cons_self).2
    cases lines with
    | nil =>
      have hshape : headerText [l] ++ body = l ++ ([13, 10, 13, 10] ++ body) := by
        simp [headerText, crlf_eq]
      rw [hshape, List.firstOcc_append_of_not_mem hl, List.cons_append,
        List.firstOcc_cons_of_occ (List.prefix_append _ _)]
      simp [headerText, crlf_eq]
    | cons l' lines =>
      obtain ⟨hne', hl'⟩ := h l' (by simp)
      obtain ⟨c, cs, rfl⟩ := List.exists_cons_of_ne_nil hne'
      have hc : c ≠ 13 := fun e ↦ hl' (by simp [e])
      have hshape : headerText (l :: (c :: cs) :: lines) ++ body =
          l ++ (13 :: 10 :: (headerText ((c :: cs) :: lines) ++ body)) := by
        simp [headerText, crlf_eq]
      have htail : headerText ((c :: cs) :: lines) ++ body =
          c :: (cs ++ crlf ++ headerText lines ++ body) := by
        simp [headerText]
      -- neither of the two bytes of this line's CRLF starts a blank line
      have hno₁ : ¬ [13, 10, 13, 10] <+: 13 :: 10 :: (headerText ((c :: cs) :: lines) ++ body) := by
        rw [htail]
        simp [List.cons_prefix_cons, Ne.symm hc]
      have hno₂ : ¬ [13, 10, 13, 10] <+: 10 :: (headerText ((c :: cs) :: lines) ++ body) := by
        simp [List.cons_prefix_cons]
      have hlen : 4 ≤ (headerText ((c :: cs) :: lines)).length := by
        simp only [headerText, crlf_eq, List.flatMap_cons, List.length_append, List.length_cons,
          List.length_nil]
        omega
      rw [hshape, List.firstOcc_append_of_not_mem hl, List.firstOcc_cons_of_not hno₁,
        List.firstOcc_cons_of_not hno₂, ih (by simp) fun m hm ↦ h m (List.mem_cons_of_mem l hm)]
      simp only [Option.map_some, Option.some.injEq]
      simp only [headerText, crlf_eq, List.flatMap_cons, List.length_append, List.length_cons,
        List.length_nil] at hlen ⊢
      omega

/-- A header text with a `Content-Length` line in second place, in front of the other fields. -/
theorem framed_headerText {start : List UInt8} {fields : List (List UInt8)} {body : List UInt8}
    (hstart : start ≠ [] ∧ 13 ∉ start) (hfields : ∀ l ∈ fields, l ≠ [] ∧ 13 ∉ l) :
    Framed (headerText (start :: (ascii "Content-Length: " ++ decimal body.length) :: fields))
      body := by
  have hdec : 13 ∉ decimal body.length := fun hmem ↦
    absurd (isDigit_of_mem_decimal 13 hmem) (by decide)
  have hlen : ascii "Content-Length: " ++ decimal body.length ≠ [] ∧
      13 ∉ ascii "Content-Length: " ++ decimal body.length := by
    refine ⟨by simp [ascii], fun hmem ↦ ?_⟩
    rcases List.mem_append.1 hmem with hmem | hmem
    · exact absurd hmem (by decide)
    · exact hdec hmem
  refine ⟨firstOcc_headerText (by simp) (fun l hl ↦ ?_) body, ?_, ?_⟩
  · rcases List.mem_cons.1 hl with rfl | hl
    · exact hstart
    · rcases List.mem_cons.1 hl with rfl | hl
      · exact hlen
      · exact hfields l hl
  · simp only [headerText, crlf_eq, List.flatMap_cons, List.length_append, List.length_cons,
      List.length_nil]
    omega
  · have hname : ascii "\r\nContent-Length: " = 13 :: 10 :: ascii "Content-Length: " := by decide
    have hshape :
        headerText (start :: (ascii "Content-Length: " ++ decimal body.length) :: fields) =
        start ++ (ascii "\r\nContent-Length: " ++
          (decimal body.length ++ 13 :: 10 :: headerText fields)) := by
      simp [headerText, crlf_eq, hname]
    have hfirst : (ascii "\r\nContent-Length: ").firstOcc
        (headerText (start :: (ascii "Content-Length: " ++ decimal body.length) :: fields)) =
          some start.length := by
      rw [hshape, hname, List.firstOcc_append_of_not_mem hstart.2, List.cons_append,
        List.firstOcc_cons_of_occ (List.prefix_append _ _)]
      simp
    rw [contentLength, hfirst, Option.bind_eq_bind, Option.bind_some, hshape, ← List.drop_drop,
      List.drop_left, show (18 : ℕ) = (ascii "\r\nContent-Length: ").length by decide,
      List.drop_left]
    exact readDecimal_decimal_append _ (by decide) _

/-! ### The texts the server writes -/

/-- The media types `guess_type` chooses from. -/
theorem guessType_mem (p : List UInt8) :
    guessType p ∈ [ascii "application/octet-stream", ascii "text/html", ascii "text/plain",
      ascii "text/css", ascii "application/javascript", ascii "image/png", ascii "image/jpeg",
      ascii "image/gif"] := by
  unfold guessType
  rcases strrchr p 46 with - | dot
  · simp
  · dsimp only
    repeat' split
    all_goals simp

/-- The lines of a header with a status line, a length, a media type and the connection value. -/
def headerLines (status : List UInt8) (n : ℕ) (ctype : List UInt8) (keepAlive : Bool)
    (more : List (List UInt8)) : List (List UInt8) :=
  status :: (ascii "Content-Length: " ++ decimal n) :: (ascii "Content-Type: " ++ ctype) ::
    (ascii "Connection: " ++ connectionValue keepAlive) :: more

theorem text404_eq (keepAlive : Bool) :
    text404 keepAlive = headerText (headerLines (ascii "HTTP/1.1 404 Not Found") 13
      (ascii "text/plain") keepAlive []) ++ ascii "404 Not Found" := by
  cases keepAlive <;> decide

theorem text400_eq :
    text400 = headerText (headerLines (ascii "HTTP/1.1 400 Bad Request") 11
      (ascii "text/plain") false []) ++ ascii "bad request" := by
  decide

theorem text200_eq (n : ℕ) (ctype : List UInt8) (keepAlive : Bool) :
    text200 n ctype keepAlive = headerText (headerLines (ascii "HTTP/1.1 200 OK") n ctype keepAlive
      [ascii "Last-Modified: Thu, 01 Jan 1970 00:00:00 GMT"]) := by
  simp [text200, headerText, headerLines, crlf, ascii]

/-- A header of the server is well framed in front of a body of the length it prints. -/
theorem framed_headerLines {status ctype : List UInt8} {more : List (List UInt8)}
    (body : List UInt8) (keepAlive : Bool) (hstatus : status ≠ [] ∧ 13 ∉ status)
    (hctype : 13 ∉ ctype) (hmore : ∀ l ∈ more, l ≠ [] ∧ 13 ∉ l) :
    Framed (headerText (headerLines status body.length ctype keepAlive more)) body := by
  refine framed_headerText hstatus fun l hl ↦ ?_
  rcases List.mem_cons.1 hl with rfl | hl
  · refine ⟨by simp [ascii], fun hmem ↦ ?_⟩
    rcases List.mem_append.1 hmem with hmem | hmem
    · exact absurd hmem (by decide)
    · exact hctype hmem
  · rcases List.mem_cons.1 hl with rfl | hl
    · cases keepAlive <;> decide
    · exact hmore l hl

/-- The body of a 404. -/
def body404 : List UInt8 := ascii "404 Not Found"

/-- The body of a 400. -/
def body400 : List UInt8 := ascii "bad request"

theorem framed_text404 (keepAlive : Bool) :
    ∃ head, text404 keepAlive = head ++ body404 ∧ Framed head body404 ∧
      ¬ ascii "HTTP/1.1 200" <+: head := by
  refine ⟨_, text404_eq keepAlive, ?_, by cases keepAlive <;> decide⟩
  exact framed_headerLines body404 keepAlive (by decide) (by decide) (by simp)

theorem framed_text400 :
    ∃ head, text400 = head ++ body400 ∧ Framed head body400 ∧
      ¬ ascii "HTTP/1.1 200" <+: head :=
  ⟨_, text400_eq, framed_headerLines body400 false (by decide) (by decide) (by simp),
    by decide⟩

theorem length_guessType_le (p : List UInt8) : (guessType p).length ≤ 24 ∧ 13 ∉ guessType p := by
  have h := guessType_mem p
  generalize guessType p = ctype at h
  revert ctype
  decide

/-- **The header of a 200 response fits in `hdr`.** -/
theorem length_text200_lt (st : Stat) (p : List UInt8) (keepAlive : Bool) :
    (text200 st.size (guessType p) keepAlive).length < hdrBuf := by
  have hdec : (decimal st.size).length ≤ 19 :=
    length_decimal_le (by simp) (st.size_lt.trans (by decide))
  have htype := (length_guessType_le p).1
  have hconn : (connectionValue keepAlive).length ≤ 10 := by cases keepAlive <;> decide
  have h₁ : (ascii "HTTP/1.1 200 OK\r\nContent-Length: ").length = 33 := by decide
  have h₂ : (ascii "\r\nContent-Type: ").length = 16 := by decide
  have h₃ : (ascii "\r\nConnection: ").length = 14 := by decide
  have h₄ : (ascii "\r\nLast-Modified: Thu, 01 Jan 1970 00:00:00 GMT\r\n\r\n").length = 50 := by
    decide
  simp only [text200, List.length_append, h₁, h₂, h₃, h₄, hdrBuf_eq]
  omega

theorem length_text404_lt (keepAlive : Bool) : (text404 keepAlive).length < hdrBuf := by
  cases keepAlive <;> decide

/-! ### What the writers put on the socket -/

@[simp] theorem done_upTo (n : ℕ) (r : IoResult) : (r.upTo n).done = min r.done n := by
  cases r <;> simp [IoResult.upTo, IoResult.done]

variable (k : Kernel) (fd : ℤ)

/-- A `write` came short when less than the text was done. -/
theorem lt_upTo (r : IoResult) {n : ℕ} (hn : 0 < n) :
    (r.upTo n).lt n = decide (r.done < n) := by
  rcases r with m | e
  · show decide (min m n < n) = decide (m < n)
    exact decide_eq_decide.2 (by omega)
  · simp only [IoResult.upTo, IoResult.lt, IoResult.done, hn, decide_true]

/-- What a `write` of a whole text puts on the socket. -/
theorem sent_write (text : List UInt8) (r : IoResult) :
    (Sys.write fd text text.length (r.upTo text.length)).sent fd = text.take r.done := by
  rw [Sys.sent, if_pos rfl, List.take_length, done_upTo, ← List.take_take, List.take_length]

/-- The 404 fits in its array, so the `write` is one of the whole text. -/
theorem httpSend404_eq (keepAlive : Bool) :
    httpSend404 k fd keepAlive = [.write fd (text404 keepAlive) (text404 keepAlive).length
      (k.write.upTo (text404 keepAlive).length)] := by
  rw [httpSend404, stored_snprintf (length_text404_lt keepAlive)]
  rfl

theorem written_httpSend404 (keepAlive : Bool) :
    written fd (httpSend404 k fd keepAlive) = (text404 keepAlive).take k.write.done := by
  rw [httpSend404_eq, written_cons, sent_write, written_nil, List.append_nil]

theorem written_httpSend400 :
    written fd (httpSend400 k fd) = text400.take k.write.done := by
  rw [httpSend400, written_cons, sent_write, written_nil, List.append_nil]

theorem length_slice (f : File) (off n : ℕ) : (f.slice off n).length = n := by
  simp [File.slice]

/-- Pieces of a file that follow each other. -/
theorem slice_append (f : File) (off m n : ℕ) :
    f.slice off m ++ f.slice (off + m) n = f.slice off (m + n) := by
  simp only [File.slice, List.range_add, List.map_append, List.map_map, Nat.add_assoc]
  rfl

theorem slice_zero (f : File) (off : ℕ) : f.slice off 0 = [] := rfl

/-- **Offset and remaining count stay in step.** For every list of `sendfile` results the loop puts
an initial piece of what was left of the file on the socket; it ends by its condition exactly when
that piece is whole. -/
theorem sendfileLoop_spec (f : File) (rs : List IoResult) (off remain : ℕ) :
    ∃ m ≤ remain, written fd (sendfileLoop fd f rs off remain).1 = f.slice off m ∧
      ((sendfileLoop fd f rs off remain).2 = .done ↔ m = remain) := by
  induction rs generalizing off remain with
  | nil =>
    refine ⟨0, Nat.zero_le _, rfl, ?_⟩
    rcases Nat.eq_zero_or_pos remain with rfl | hpos
    · simp [sendfileLoop]
    · simp [sendfileLoop, hpos.ne', hpos.ne]
  | cons r rs ih =>
    rcases Nat.eq_zero_or_pos remain with rfl | hpos
    · exact ⟨0, le_rfl, rfl, by simp [sendfileLoop]⟩
    · rw [sendfileLoop, if_neg hpos.ne']
      rcases r with n | e
      · obtain ⟨m, hm, hw, hdone⟩ := ih (off + min n remain) (remain - min n remain)
        refine ⟨min n remain + m, by omega, ?_, ?_⟩
        · simp only [IoResult.upTo, written_cons, Sys.sent, if_true, hw]
          exact slice_append f off _ _
        · simp only [IoResult.upTo, hdone]
          omega
      · by_cases he : e.wouldBlock
        · obtain ⟨m, hm, hw, hdone⟩ := ih off remain
          refine ⟨m, hm, ?_, ?_⟩
          · simp only [IoResult.upTo, he, if_true, written_cons, Sys.sent, List.nil_append,
              ite_self, hw]
          · simp only [IoResult.upTo, he, if_true, hdone]
        · refine ⟨0, hpos.le, ?_, ?_⟩
          · simp only [IoResult.upTo, he, Bool.false_eq_true, if_false, written_cons, Sys.sent,
              ite_self, written_nil, List.append_nil, slice_zero]
          · simp only [IoResult.upTo, he, Bool.false_eq_true, if_false, reduceCtorEq, false_iff]
            omega

/-- Results of `sendfile` that move `n` bytes: before any error but `EAGAIN` the counts make `n`. -/
def Completes (rs : List IoResult) (n : ℕ) : Prop :=
  ∃ pre, pre <+: rs ∧ (∀ e, .error e ∈ pre → e.wouldBlock = true) ∧ n ≤ (pre.map IoResult.done).sum

/-- Results that move all that is left end the loop by its condition. -/
theorem sendfileLoop_of_completes (f : File) {rs : List IoResult} (off : ℕ) {remain : ℕ}
    (h : Completes rs remain) : (sendfileLoop fd f rs off remain).2 = .done := by
  obtain ⟨pre, hpre, herr, hsum⟩ := h
  induction rs generalizing pre off remain with
  | nil =>
    rw [List.prefix_nil.1 hpre] at hsum
    rw [sendfileLoop, if_pos (by simpa using hsum)]
  | cons r rs ih =>
    unfold sendfileLoop
    split
    · rfl
    · rename_i hne
      rcases pre with - | ⟨r', pre⟩
      · exact absurd (Nat.le_zero.1 hsum) hne
      · obtain ⟨rfl, hpre'⟩ := List.cons_prefix_cons.1 hpre
        rw [List.map_cons, List.sum_cons] at hsum
        have herr' : ∀ e, IoResult.error e ∈ pre → e.wouldBlock = true :=
          fun e he ↦ herr e (List.mem_cons_of_mem _ he)
        rcases r' with n | e
        · refine ih _ pre hpre' herr' ?_
          simp only [IoResult.done] at hsum
          omega
        · simp only [IoResult.upTo, herr e List.mem_cons_self, if_true]
          refine ih _ pre hpre' herr' ?_
          simpa [IoResult.done] using hsum

/-- The response to a servable path: the header and the whole file. -/
def response200 (fs : List UInt8) (f : File) (st : Stat) (keepAlive : Bool) : List UInt8 :=
  text200 st.size (guessType fs) keepAlive ++ f.slice 0 st.size

theorem framed_response200 (fs : List UInt8) (f : File) (st : Stat) (keepAlive : Bool) :
    Framed (text200 st.size (guessType fs) keepAlive) (f.slice 0 st.size) := by
  have hframed := framed_headerLines (f.slice 0 st.size) keepAlive
    (show ascii "HTTP/1.1 200 OK" ≠ [] ∧ 13 ∉ ascii "HTTP/1.1 200 OK" by decide)
    (length_guessType_le fs).2
    (show ∀ l ∈ [ascii "Last-Modified: Thu, 01 Jan 1970 00:00:00 GMT"], l ≠ [] ∧ 13 ∉ l by decide)
  rwa [length_slice, ← text200_eq] at hframed

/-- **What `http_send_static_file` sends** of an opened file is an initial piece of the response,
the whole of it exactly when `0` is returned. -/
theorem written_sendOpened (fs : List UInt8) (f : File) (st : Stat) (keepAlive : Bool) :
    written fd (sendOpened k fd fs f st keepAlive).calls <+: response200 fs f st keepAlive ∧
      ((sendOpened k fd fs f st keepAlive).rc = some 0 ↔
        written fd (sendOpened k fd fs f st keepAlive).calls = response200 fs f st keepAlive) := by
  have hlt := length_text200_lt st fs keepAlive
  have hstored := stored_snprintf hlt
  set head := text200 st.size (guessType fs) keepAlive with hhead
  have hpos : 0 < head.length := by
    simp only [hhead, text200, List.length_append]
    have : (ascii "HTTP/1.1 200 OK\r\nContent-Length: ").length = 33 := by decide
    omega
  have hhdr : written fd [.cork fd true, .write fd head head.length (k.write.upTo head.length)] =
      head.take k.write.done := by
    rw [written_cons, written_cons, sent_write, written_nil, List.append_nil]
    rfl
  have hshort := lt_upTo k.write hpos
  unfold sendOpened
  simp only [← hhead, hstored, show (snprintf hdrBuf head).ret = head.length from rfl, hshort]
  by_cases hs : k.write.done < head.length
  · -- a short header: nothing of the body is sent
    simp only [hs, decide_true, if_true]
    rw [written_append, hhdr]
    have hnil : written fd [Sys.close f.fd] = [] := rfl
    rw [hnil, List.append_nil, response200, ← hhead]
    refine ⟨(List.take_prefix _ _).trans (List.prefix_append _ _), ?_⟩
    simp only [Option.some.injEq, Int.reduceNeg, reduceCtorEq, false_iff]
    intro h
    have := congrArg List.length h
    rw [List.length_take, List.length_append] at this
    omega
  · obtain ⟨m, hm, hw, hdone⟩ := sendfileLoop_spec fd f k.sendfile 0 st.size
    have hwhole : head.take k.write.done = head := List.take_of_length_le (by omega)
    have hpre : head ++ f.slice 0 m <+: response200 fs f st keepAlive := by
      rw [response200, ← hhead, List.prefix_append_right_inj]
      exact ⟨f.slice (0 + m) (st.size - m), by rw [slice_append, Nat.add_sub_cancel' hm]⟩
    have heq : head ++ f.slice 0 m = response200 fs f st keepAlive ↔ m = st.size := by
      rw [response200, ← hhead, List.append_cancel_left_eq]
      refine ⟨fun h ↦ ?_, fun h ↦ by rw [h]⟩
      simpa [length_slice] using congrArg List.length h
    simp only [hs, decide_false, Bool.false_eq_true, if_false]
    rcases hloop : sendfileLoop fd f k.sendfile 0 st.size with ⟨body, exit⟩
    rw [hloop] at hw hdone
    simp only at hw hdone
    cases exit with
    | done =>
      have hnil : written fd [Sys.cork fd false, Sys.close f.fd] = [] := rfl
      simp only [written_append, hhdr, hwhole, hw, hnil, List.append_nil, heq, true_iff]
      exact ⟨hpre, hdone.1 rfl⟩
    | failed =>
      have hnil : written fd [Sys.close f.fd] = [] := rfl
      simp only [written_append, hhdr, hwhole, hw, hnil, List.append_nil, heq]
      exact ⟨hpre, by simpa using hdone⟩
    | sending =>
      simp only [written_append, hhdr, hwhole, hw, heq]
      exact ⟨hpre, by simpa using hdone⟩

/-- A socket that takes the header and the file gets the whole response. -/
theorem rc_sendOpened_of_completes {fs : List UInt8} {f : File} {st : Stat} {keepAlive : Bool}
    (hwrite : hdrBuf - 1 ≤ k.write.done) (hsend : Completes k.sendfile st.size) :
    (sendOpened k fd fs f st keepAlive).rc = some 0 := by
  have hlt := length_text200_lt st fs keepAlive
  have hloop := sendfileLoop_of_completes fd f 0 hsend
  unfold sendOpened
  dsimp only
  have hshort : IoResult.lt (snprintf hdrBuf (text200 st.size (guessType fs) keepAlive)).ret
      (k.write.upTo (snprintf hdrBuf (text200 st.size (guessType fs) keepAlive)).ret) = false := by
    have hpos : 0 < (text200 st.size (guessType fs) keepAlive).length :=
      List.length_pos_of_ne_nil (by simp [text200, ascii])
    rw [show (snprintf hdrBuf (text200 st.size (guessType fs) keepAlive)).ret =
      (text200 st.size (guessType fs) keepAlive).length from rfl, lt_upTo _ hpos]
    exact decide_eq_false (by omega)
  rw [hshort, if_neg Bool.false_ne_true]
  rcases hbody : sendfileLoop fd f k.sendfile 0 st.size with ⟨body, exit⟩
  rw [hbody] at hloop
  obtain rfl : exit = .done := hloop
  rfl

end ForgeServer
