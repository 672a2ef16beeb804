import Mathlib.Data.List.Find
import ForgeServer.Bytes.Frames
import ForgeServer.Http.Response

/-!
# Headers as data

The headers the server prints, as a type of their own: a status, a length, a media type and what
becomes of the connection (`ResponseHead`). A client that reads the lines of a header one by one and
looks its fields up by name, in whatever order they are, has `readHead`; it gets back exactly what
was printed (`readHead_text`).

`guess_type` goes by the last dot of the file name. On the types it knows this is a table of endings
(`guessType_eq`), because no ending of the table has a second dot.
-/

namespace ForgeServer

open CStr

/-! ### Media types -/

/-- The media types of the server. -/
inductive MediaType
  | octetStream | html | plain | css | javascript | png | jpeg | gif
deriving DecidableEq

def MediaType.text : MediaType → List UInt8
  | octetStream => ascii "application/octet-stream"
  | html => ascii "text/html"
  | plain => ascii "text/plain"
  | css => ascii "text/css"
  | javascript => ascii "application/javascript"
  | png => ascii "image/png"
  | jpeg => ascii "image/jpeg"
  | gif => ascii "image/gif"

/-- The media type a text names. -/
def MediaType.ofText (v : List UInt8) : Option MediaType :=
  [octetStream, html, plain, css, javascript, png, jpeg, gif].find? fun m ↦ m.text = v

theorem MediaType.ofText_text (m : MediaType) : ofText m.text = some m := by
  cases m <;> decide +kernel

/-- The endings of file names, with their media types. -/
def mediaTypes : List (List UInt8 × MediaType) :=
  [(ascii ".html", .html), (ascii ".htm", .html), (ascii ".txt", .plain), (ascii ".css", .css),
    (ascii ".js", .javascript), (ascii ".png", .png), (ascii ".jpg", .jpeg), (ascii ".jpeg", .jpeg),
    (ascii ".gif", .gif), (ascii ".bin", .octetStream)]

/-- The media type of a file by the end of its name. -/
def MediaType.ofName (name : List UInt8) : MediaType :=
  ((mediaTypes.find? fun e ↦ e.1.isSuffixOf name).map Prod.snd).getD .octetStream

/-- What follows the last dot is an ending without a second one. -/
theorem suffix_iff_strrchr {w : List UInt8} {c : UInt8} (hw : c ∉ w) {p : List UInt8} :
    c :: w <:+ p ↔ strrchr p c = some (c :: w) := by
  constructor
  · rintro ⟨u, rfl⟩
    exact strrchr_append hw u
  · intro h
    obtain ⟨u, v, rfl, heq, -⟩ := exists_of_strrchr h
    rw [heq]
    exact List.suffix_append u _

/-- **`guess_type` is the table of endings.** -/
theorem guessType_eq (p : List UInt8) : guessType p = (MediaType.ofName p).text := by
  have hdot : ∀ e ∈ mediaTypes, e.1 = 46 :: e.1.tail ∧ 46 ∉ e.1.tail := by decide +kernel
  have hends : mediaTypes.find? (fun e ↦ e.1.isSuffixOf p) =
      mediaTypes.find? fun e ↦ strrchr p 46 = some e.1 := by
    refine List.find?_congr fun e he ↦ ?_
    obtain ⟨hshape, hno⟩ := hdot e he
    rw [Bool.eq_iff_iff, List.isSuffixOf_iff_suffix, decide_eq_true_iff, hshape]
    exact suffix_iff_strrchr hno
  rw [MediaType.ofName, hends, guessType]
  rcases strrchr p 46 with - | dot
  · rfl
  · by_cases hmem : dot ∈ mediaTypes.map Prod.fst
    · revert dot
      decide +kernel
    · -- no ending of the table
      have hnone : mediaTypes.find? (fun e ↦ some dot = some e.1) = none := by
        refine List.find?_eq_none.2 fun e he heq ↦ hmem ?_
        rw [decide_eq_true_iff, Option.some.injEq] at heq
        exact heq ▸ List.mem_map_of_mem he
      simp only [mediaTypes, List.map_cons, List.map_nil, List.mem_cons, List.not_mem_nil,
        or_false, not_or] at hmem
      simp only [hnone, hmem, or_self, if_false, Option.map_none, Option.getD_none, MediaType.text]

/-! ### Headers -/

/-- The statuses of the server. -/
inductive Status
  | ok | badRequest | notFound
deriving DecidableEq

/-- The first line of a response. -/
def Status.line : Status → List UInt8
  | ok => ascii "HTTP/1.1 200 OK"
  | badRequest => ascii "HTTP/1.1 400 Bad Request"
  | notFound => ascii "HTTP/1.1 404 Not Found"

/-- The status a line stands for. -/
def Status.ofLine (l : List UInt8) : Option Status :=
  [ok, badRequest, notFound].find? fun s ↦ s.line = l

theorem Status.ofLine_line (s : Status) : ofLine s.line = some s := by
  cases s <;> decide +kernel

/-- What is in a header of the server. -/
structure ResponseHead where
  status : Status
  length : ℕ
  mediaType : MediaType
  keepAlive : Bool
deriving DecidableEq

/-- The fields that are in a header whatever it says. -/
def Status.more : Status → List (List UInt8)
  | ok => [ascii "Last-Modified: Thu, 01 Jan 1970 00:00:00 GMT"]
  | badRequest | notFound => []

def ResponseHead.lines (h : ResponseHead) : List (List UInt8) :=
  headerLines h.status.line h.length h.mediaType.text h.keepAlive h.status.more

def ResponseHead.text (h : ResponseHead) : List UInt8 := headerText h.lines

/-- The first line of a text, and what is behind its CRLF. -/
def readLine (s : List UInt8) : Option (List UInt8 × List UInt8) :=
  (crlf.firstOcc s).map fun i ↦ (s.take i, s.drop (i + 2))

/-- The lines of a text. -/
def readLines (s : List UInt8) : List (List UInt8) := (List.readFrames readLine s.length s).1

/-- The value of the first field with a name. -/
def fieldValue (name : List UInt8) (lines : List (List UInt8)) : Option (List UInt8) :=
  lines.findSome? fun l ↦ (name ++ ascii ": ").isPrefixOf? l

/-- What a `Connection` field says. -/
def readConnection (v : List UInt8) : Option Bool :=
  [true, false].find? fun keepAlive ↦ connectionValue keepAlive = v

/-- **Reading a header**: the status off the first line, the rest by the names of the fields. -/
def readHead (s : List UInt8) : Option ResponseHead := do
  let lines := readLines s
  let status ← lines.head? >>= Status.ofLine
  let length ← fieldValue (ascii "Content-Length") lines >>= readDecimal
  let mediaType ← fieldValue (ascii "Content-Type") lines >>= MediaType.ofText
  let keepAlive ← fieldValue (ascii "Connection") lines >>= readConnection
  pure ⟨status, length, mediaType, keepAlive⟩

/-! ### Reading back -/

theorem readLine_append {l : List UInt8} (h : 13 ∉ l) (t : List UInt8) :
    readLine (l ++ crlf ++ t) = some (l, t) := by
  have hfirst : crlf.firstOcc (l ++ crlf ++ t) = some l.length := by
    rw [crlf_eq, List.append_assoc, List.firstOcc_append_of_not_mem h, List.cons_append,
      List.firstOcc_cons_of_occ (List.prefix_append _ t), Option.map_some, Nat.zero_add]
  have hlen : l.length + 2 = (l ++ crlf).length := by
    rw [List.length_append, crlf_eq]
    rfl
  rw [readLine, hfirst, Option.map_some, hlen, List.drop_left, List.append_assoc, List.take_left]

/-- The lines of a header, and the empty one that ends it. -/
theorem readLines_headerText {lines : List (List UInt8)} (h : ∀ l ∈ lines, 13 ∉ l) :
    readLines (headerText lines) = lines ++ [[]] := by
  have hshape : headerText lines = (lines ++ [[]]).flatMap (· ++ crlf) ++ [] := by
    rw [headerText, List.flatMap_append, List.flatMap_singleton, List.nil_append, List.append_nil]
  have hall : ∀ l ∈ lines ++ [[]], 13 ∉ l :=
    List.forall_mem_append.2 ⟨h, List.forall_mem_singleton.2 List.not_mem_nil⟩
  have hread : List.readFrames readLine ((lines ++ [[]]).flatMap (· ++ crlf) ++ []).length
      ((lines ++ [[]]).flatMap (· ++ crlf) ++ []) = ((lines ++ [[]]).map fun l ↦ l, []) :=
    List.readFrames_flatMap (fun l ↦ l) (fun l _ ↦ by simp [crlf_eq])
      (fun l hl t ↦ readLine_append (hall l hl) t) rfl le_rfl
  rw [readLines, hshape, hread, List.map_id']

theorem fieldValue_cons_of_prefix {name pre : List UInt8} (h : name ++ ascii ": " = pre)
    (v : List UInt8) (ls : List (List UInt8)) : fieldValue name ((pre ++ v) :: ls) = some v := by
  rw [fieldValue, List.findSome?_cons, List.isPrefixOf?_eq_some_iff_append_eq.2 (by rw [h])]

theorem fieldValue_cons_of_not {name l : List UInt8} (h : ¬ name ++ ascii ": " <+: l)
    (ls : List (List UInt8)) : fieldValue name (l :: ls) = fieldValue name ls := by
  have hnone : (name ++ ascii ": ").isPrefixOf? l = none := by
    rw [Option.eq_none_iff_forall_ne_some]
    intro v hv
    exact h ⟨v, List.isPrefixOf?_eq_some_iff_append_eq.1 hv⟩
  rw [fieldValue, List.findSome?_cons, hnone]
  rfl

/-- A text starts with another one only if the beginnings of both agree. -/
theorem not_prefix_append {p q : List UInt8} (hp : ¬ p <+: q) (hq : ¬ q <+: p) (v : List UInt8) :
    ¬ p <+: q ++ v := fun h ↦
  (List.prefix_or_prefix_of_prefix h (List.prefix_append q v)).elim hp hq

theorem readDecimal_decimal (n : ℕ) : readDecimal (decimal n) = some n := by
  have hall : (decimal n).takeWhile isDigit = decimal n :=
    List.takeWhile_eq_self_iff.2 isDigit_of_mem_decimal
  unfold readDecimal
  rw [hall]
  split
  · rename_i h
    exact absurd h (decimal_ne_nil n)
  · rw [foldl_decimal]

theorem Status.line_clean (s : Status) : s.line ≠ [] ∧ 13 ∉ s.line := by
  cases s <;> decide

theorem Status.more_clean (s : Status) : ∀ l ∈ s.more, l ≠ [] ∧ 13 ∉ l := by
  cases s <;> decide

theorem MediaType.not_mem_text (m : MediaType) : 13 ∉ m.text := by
  cases m <;> decide

/-- No line of a header is empty or has a CR. -/
theorem ResponseHead.lines_clean (h : ResponseHead) : ∀ l ∈ h.lines, l ≠ [] ∧ 13 ∉ l := by
  have hdec : 13 ∉ decimal h.length := fun hmem ↦
    absurd (isDigit_of_mem_decimal 13 hmem) (by decide)
  have hconn : 13 ∉ connectionValue h.keepAlive := by
    cases h.keepAlive <;> decide
  have happend : ∀ {name v : List UInt8}, name ≠ [] → 13 ∉ name → 13 ∉ v →
      name ++ v ≠ [] ∧ 13 ∉ name ++ v := fun hne hname hv ↦
    ⟨fun h ↦ hne (List.append_eq_nil_iff.1 h).1, fun h ↦ (List.mem_append.1 h).elim hname hv⟩
  refine List.forall_mem_cons.2 ⟨h.status.line_clean, List.forall_mem_cons.2 ⟨?_,
    List.forall_mem_cons.2 ⟨?_, List.forall_mem_cons.2 ⟨?_, h.status.more_clean⟩⟩⟩⟩
  · exact happend (by decide) (by decide) hdec
  · exact happend (by decide) (by decide) h.mediaType.not_mem_text
  · exact happend (by decide) (by decide) hconn

/-- **A header reads back.** -/
theorem readHead_text (h : ResponseHead) : readHead h.text = some h := by
  obtain ⟨status, n, mediaType, keepAlive⟩ := h
  have hlines : readLines (ResponseHead.text ⟨status, n, mediaType, keepAlive⟩) =
      headerLines status.line n mediaType.text keepAlive (status.more ++ [[]]) :=
    readLines_headerText fun l hl ↦ (ResponseHead.lines_clean _ l hl).2
  have hstart : ∀ name : List UInt8, ¬ name ++ ascii ": " <+: status.line →
      ∀ ls, fieldValue name (status.line :: ls) = fieldValue name ls := fun _ h ls ↦
    fieldValue_cons_of_not h ls
  have hlength : fieldValue (ascii "Content-Length")
      (headerLines status.line n mediaType.text keepAlive (status.more ++ [[]])) =
        some (decimal n) := by
    rw [headerLines, hstart _ (by cases status <;> decide)]
    exact fieldValue_cons_of_prefix (by decide) _ _
  have htype : fieldValue (ascii "Content-Type")
      (headerLines status.line n mediaType.text keepAlive (status.more ++ [[]])) =
        some mediaType.text := by
    rw [headerLines, hstart _ (by cases status <;> decide),
      fieldValue_cons_of_not (not_prefix_append (by decide) (by decide) _)]
    exact fieldValue_cons_of_prefix (by decide) _ _
  have hconn : fieldValue (ascii "Connection")
      (headerLines status.line n mediaType.text keepAlive (status.more ++ [[]])) =
        some (connectionValue keepAlive) := by
    rw [headerLines, hstart _ (by cases status <;> decide),
      fieldValue_cons_of_not (not_prefix_append (by decide) (by decide) _),
      fieldValue_cons_of_not (not_prefix_append (by decide) (by decide) _)]
    exact fieldValue_cons_of_prefix (by decide) _ _
  have hhead : (headerLines status.line n mediaType.text keepAlive (status.more ++ [[]])).head? =
      some status.line := rfl
  have hflag : readConnection (connectionValue keepAlive) = some keepAlive := by
    cases keepAlive <;> decide +kernel
  simp only [readHead, hlines, hhead, hlength, htype, hconn, Option.bind_eq_bind,
    Option.bind_some, Status.ofLine_line, readDecimal_decimal, MediaType.ofText_text, hflag,
    Option.pure_def]

/-- **A header announces its length**, and ends with the first blank line. -/
theorem framed_text {h : ResponseHead} {body : List UInt8} (hlen : h.length = body.length) :
    Framed h.text body := by
  have hclean := List.forall_mem_cons.1 h.lines_clean
  have hframed : Framed (headerText (_ :: (ascii "Content-Length: " ++ decimal body.length) :: _))
      body := framed_headerText hclean.1 (List.forall_mem_cons.1 hclean.2).2
  rwa [← hlen] at hframed

end ForgeServer
