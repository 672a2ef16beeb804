import ForgeServer.Bytes.Search
import ForgeServer.Bytes.Decimal
import ForgeServer.Server.Types

/-!
# The three writers

`http/static.c`: the 404 and the 400 response, and `http_send_static_file`. Each function returns
the system calls it makes; `httpSendStaticFile` also what it returns, `none` when the results of
`sendfile` run out while its loop still sends.

`http_send_static_file` is one function in the source. Here the part after `fstat` is
`sendOpened`, and `servable` is the decision in front of it: the path has no `..`, `open` gives a
file and `fstat` says that it is regular. `httpSendStaticFile_of_servable` and
`httpSendStaticFile_of_not_servable` are the two cases every later proof starts from.
-/

namespace ForgeServer

open CStr

/-! ### Helpers of the C library -/

/-- What `snprintf` leaves in its array, the NUL apart, and what it returns. -/
structure Printed where
  stored : List UInt8
  ret : ℕ

/-- `snprintf` of a text into an array of `size` bytes. -/
def snprintf (size : ℕ) (text : List UInt8) : Printed := ⟨text.take (size - 1), text.length⟩

/-- A text that fits is stored whole. -/
theorem stored_snprintf {size : ℕ} {text : List UInt8} (h : text.length < size) :
    (snprintf size text).stored = text :=
  List.take_of_length_le (by omega)

/-- `strrchr`: the string from the last occurrence of a byte on. -/
def strrchr : List UInt8 → UInt8 → Option (List UInt8)
  | [], _ => none
  | b :: bs, c => (strrchr bs c).or (if b = c then some (b :: bs) else none)

theorem strrchr_eq_none_iff {s : List UInt8} {c : UInt8} : strrchr s c = none ↔ c ∉ s := by
  induction s with
  | nil => simp [strrchr]
  | cons b bs ih =>
    rw [strrchr, Option.or_eq_none_iff, ih, List.mem_cons, not_or, and_comm]
    refine and_congr_left fun _ ↦ ?_
    simp [eq_comm]

/-- The last occurrence is the one with none behind it. -/
theorem strrchr_append {v : List UInt8} {c : UInt8} (hv : c ∉ v) (u : List UInt8) :
    strrchr (u ++ c :: v) c = some (c :: v) := by
  induction u with
  | nil =>
    rw [List.nil_append, strrchr, strrchr_eq_none_iff.2 hv, if_pos rfl]
    rfl
  | cons b bs ih =>
    rw [List.cons_append, strrchr, ih]
    rfl

/-- What is found splits the string, with no occurrence behind it. -/
theorem exists_of_strrchr {s t : List UInt8} {c : UInt8} (h : strrchr s c = some t) :
    ∃ u v, s = u ++ c :: v ∧ t = c :: v ∧ c ∉ v := by
  induction s with
  | nil => exact absurd h (by simp [strrchr])
  | cons b bs ih =>
    rw [strrchr, Option.or_eq_some_iff] at h
    rcases h with h | ⟨hnone, h⟩
    · obtain ⟨u, v, rfl, ht, hv⟩ := ih h
      exact ⟨b :: u, v, rfl, ht, hv⟩
    · obtain ⟨rfl, ht⟩ := Option.ite_none_right_eq_some.1 h
      exact ⟨[], bs, rfl, (Option.some.inj ht).symm, strrchr_eq_none_iff.1 hnone⟩

/-- A comparison of what `write` returned with the length it was asked for. -/
def IoResult.lt (n : ℕ) : IoResult → Bool
  | .count m => m < n
  | .error _ => true

/-! ### The code -/

/-- `guess_type`. -/
def guessType (p : List UInt8) : List UInt8 :=
  match strrchr p 46 with
  | none => ascii "application/octet-stream"
  | some dot =>
    if dot = ascii ".html" ∨ dot = ascii ".htm" then ascii "text/html"
    else if dot = ascii ".txt" then ascii "text/plain"
    else if dot = ascii ".css" then ascii "text/css"
    else if dot = ascii ".js" then ascii "application/javascript"
    else if dot = ascii ".png" then ascii "image/png"
    else if dot = ascii ".jpg" ∨ dot = ascii ".jpeg" then ascii "image/jpeg"
    else if dot = ascii ".gif" then ascii "image/gif"
    else if dot = ascii ".bin" then ascii "application/octet-stream"
    else ascii "application/octet-stream"

/-- `http_path_has_dotdot`. -/
def httpPathHasDotdot (p : List UInt8) : Bool := ((ascii "..").firstOcc p).isSome

/-- `keep_alive ? "keep-alive" : "close"`. -/
def connectionValue (keepAlive : Bool) : List UInt8 :=
  if keepAlive then ascii "keep-alive" else ascii "close"

/-- The text `http_send_404` prints. -/
def text404 (keepAlive : Bool) : List UInt8 :=
  ascii "HTTP/1.1 404 Not Found\r\nContent-Length: 13\r\nContent-Type: text/plain\r\n" ++
    ascii "Connection: " ++ connectionValue keepAlive ++ ascii "\r\n\r\n404 Not Found"

/-- `http_send_404`. -/
def httpSend404 (k : Kernel) (fd : ℤ) (keepAlive : Bool) : List Sys :=
  let hdr := snprintf hdrBuf (text404 keepAlive)
  [.write fd hdr.stored hdr.ret (k.write.upTo hdr.ret)]

/-- The literal of `http_send_400`. -/
def text400 : List UInt8 :=
  ascii "HTTP/1.1 400 Bad Request\r\nContent-Length: 11\r\nContent-Type: text/plain\r\n" ++
    ascii "Connection: close\r\n\r\nbad request"

/-- `http_send_400`. -/
def httpSend400 (k : Kernel) (fd : ℤ) : List Sys :=
  [.write fd text400 text400.length (k.write.upTo text400.length)]

/-- The text of the header of a 200 response. -/
def text200 (size : ℕ) (ctype : List UInt8) (keepAlive : Bool) : List UInt8 :=
  ascii "HTTP/1.1 200 OK\r\nContent-Length: " ++ decimal size ++
    ascii "\r\nContent-Type: " ++ ctype ++
    ascii "\r\nConnection: " ++ connectionValue keepAlive ++
    ascii "\r\nLast-Modified: Thu, 01 Jan 1970 00:00:00 GMT\r\n\r\n"

/-- The text of the file name. -/
def fsText (docRoot urlPath : List UInt8) : List UInt8 :=
  if urlPath = ascii "/" then docRoot ++ ascii "/index.html"
  else docRoot ++ ascii "/" ++ (if urlPath.head? = some 47 then urlPath.tail else urlPath)

/-- `fs`, as `snprintf` leaves it. -/
def fsName (docRoot urlPath : List UInt8) : List UInt8 :=
  (snprintf fsBuf (fsText docRoot urlPath)).stored

/-- How the loop around `sendfile` was left. -/
inductive LoopExit
  | done
  | failed
  | sending
deriving DecidableEq

/-- The loop `while (remain > 0)` at offset `off`, one result of `sendfile` for each iteration. -/
def sendfileLoop (out : ℤ) (f : File) : List IoResult → ℕ → ℕ → List Sys × LoopExit
  | [], _, remain => ([], if remain = 0 then .done else .sending)
  | r :: rs, off, remain =>
    if remain = 0 then ([], .done)
    else match r.upTo remain with
      | .count n =>
        let rest := sendfileLoop out f rs (off + n) (remain - n)
        (.sendfile out f.fd off remain (.count n) (f.slice off n) :: rest.1, rest.2)
      | .error e =>
        if e.wouldBlock then
          let rest := sendfileLoop out f rs off remain
          (.sendfile out f.fd off remain (.error e) [] :: rest.1, rest.2)
        else ([.sendfile out f.fd off remain (.error e) []], .failed)

/-- The system calls of `http_send_static_file` and what it returns, `none` when it has not
returned. -/
structure Sent where
  calls : List Sys
  rc : Option ℤ

/-- `http_send_static_file` from `guess_type` on. -/
def sendOpened (k : Kernel) (fd : ℤ) (fs : List UInt8) (f : File) (st : Stat) (keepAlive : Bool) :
    Sent :=
  let hdr := snprintf hdrBuf (text200 st.size (guessType fs) keepAlive)
  let res := k.write.upTo hdr.ret
  let head := [.cork fd true, .write fd hdr.stored hdr.ret res]
  if res.lt hdr.ret then ⟨head ++ [.close f.fd], some (-1)⟩
  else
    match sendfileLoop fd f k.sendfile 0 st.size with
    | (body, .sending) => ⟨head ++ body, none⟩
    | (body, .failed) => ⟨head ++ body ++ [.close f.fd], some (-1)⟩
    | (body, .done) => ⟨head ++ body ++ [.cork fd false, .close f.fd], some 0⟩

/-- `http_send_static_file`. -/
def httpSendStaticFile (k : Kernel) (fd : ℤ) (docRoot urlPath : List UInt8) (keepAlive : Bool) :
    Sent :=
  if httpPathHasDotdot urlPath then ⟨httpSend404 k fd keepAlive, some (-1)⟩
  else
    let fs := fsName docRoot urlPath
    match k.openFile fs with
    | none => ⟨.openFile fs none :: httpSend404 k fd keepAlive, some (-1)⟩
    | some f =>
      match f.stat.filter (·.isReg) with
      | none =>
        ⟨[.openFile fs (some f.fd), .fstat f.fd f.stat, .close f.fd] ++ httpSend404 k fd keepAlive,
          some (-1)⟩
      | some st =>
        let sent := sendOpened k fd fs f st keepAlive
        ⟨[.openFile fs (some f.fd), .fstat f.fd f.stat] ++ sent.calls, sent.rc⟩

/-- What the rest of `http_send_static_file` returns, if it returns: `0` or `-1`. -/
theorem rc_sendOpened (k : Kernel) (fd : ℤ) (fs : List UInt8) (f : File) (st : Stat)
    (keepAlive : Bool) :
    (sendOpened k fd fs f st keepAlive).rc = none ∨
      (sendOpened k fd fs f st keepAlive).rc = some 0 ∨
      (sendOpened k fd fs f st keepAlive).rc = some (-1) := by
  unfold sendOpened
  dsimp only
  split
  · exact Or.inr (Or.inr rfl)
  · rcases sendfileLoop fd f k.sendfile 0 st.size with ⟨body, - | - | -⟩
    · exact Or.inr (Or.inl rfl)
    · exact Or.inr (Or.inr rfl)
    · exact Or.inl rfl

/-! ### The two cases -/

/-- The file a path is answered with: the path has no `..`, the file opens, `fstat` succeeds and
reports a regular file. -/
def servable (openFile : List UInt8 → Option File) (docRoot urlPath : List UInt8) :
    Option (File × Stat) :=
  if httpPathHasDotdot urlPath then none
  else do
    let f ← openFile (fsName docRoot urlPath)
    let st ← f.stat.filter (·.isReg)
    pure (f, st)

theorem servable_eq_some {openFile : List UInt8 → Option File} {docRoot urlPath : List UInt8}
    {f : File} {st : Stat} :
    servable openFile docRoot urlPath = some (f, st) ↔
      httpPathHasDotdot urlPath = false ∧ openFile (fsName docRoot urlPath) = some f ∧
        f.stat.filter (·.isReg) = some st := by
  unfold servable
  split
  · rename_i h
    simp [h]
  · rename_i h
    simp only [Option.bind_eq_bind, Option.bind_eq_some_iff, Option.pure_def, Option.some.injEq,
      Prod.mk.injEq]
    constructor
    · rintro ⟨f', hf, st', hst, rfl, rfl⟩
      exact ⟨by simpa using h, hf, hst⟩
    · rintro ⟨-, hf, hst⟩
      exact ⟨f, hf, st, hst, rfl, rfl⟩

variable {k : Kernel} {fd : ℤ} {docRoot urlPath : List UInt8} {keepAlive : Bool}

/-- A servable path is opened and sent. -/
theorem httpSendStaticFile_of_servable {f : File} {st : Stat}
    (h : servable k.openFile docRoot urlPath = some (f, st)) :
    httpSendStaticFile k fd docRoot urlPath keepAlive =
      ⟨[.openFile (fsName docRoot urlPath) (some f.fd), .fstat f.fd f.stat] ++
          (sendOpened k fd (fsName docRoot urlPath) f st keepAlive).calls,
        (sendOpened k fd (fsName docRoot urlPath) f st keepAlive).rc⟩ := by
  obtain ⟨hdot, hopen, hstat⟩ := servable_eq_some.1 h
  unfold httpSendStaticFile
  simp only [hdot, Bool.false_eq_true, if_false, hopen, hstat]

/-- The calls in front of the 404 to a path that is not servable. -/
def notFoundCalls (openFile : List UInt8 → Option File) (docRoot urlPath : List UInt8) : List Sys :=
  if httpPathHasDotdot urlPath then []
  else
    match openFile (fsName docRoot urlPath) with
    | none => [.openFile (fsName docRoot urlPath) none]
    | some f =>
      [.openFile (fsName docRoot urlPath) (some f.fd), .fstat f.fd f.stat, .close f.fd]

/-- Any other path is answered with the 404. -/
theorem httpSendStaticFile_of_not_servable (fd : ℤ) (keepAlive : Bool)
    (h : servable k.openFile docRoot urlPath = none) :
    httpSendStaticFile k fd docRoot urlPath keepAlive =
      ⟨notFoundCalls k.openFile docRoot urlPath ++ httpSend404 k fd keepAlive, some (-1)⟩ := by
  unfold servable at h
  unfold httpSendStaticFile notFoundCalls
  by_cases hdot : httpPathHasDotdot urlPath
  · simp [hdot]
  · simp only [hdot, Bool.false_eq_true, if_false, Option.bind_eq_bind] at h ⊢
    rcases hopen : k.openFile (fsName docRoot urlPath) with - | f
    · rfl
    · rw [hopen, Option.bind_some] at h
      have hstat : f.stat.filter (·.isReg) = none := by
        rcases hs : f.stat.filter (·.isReg) with - | st
        · exact hs
        · rw [hs] at h
          exact absurd h (by simp)
      simp only [hstat]

end ForgeServer
