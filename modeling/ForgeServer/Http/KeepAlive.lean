import Mathlib.Data.Nat.Find
import ForgeServer.Http.RequestLine

/-!
# The keep-alive decision

What the header lines of a well-formed request say about the connection, and what the header loop
makes of them. The loop moves on by two bytes in every iteration, not by a line, so it looks at
every second byte behind the first CRLF (`headerLoop_eq`): it reads a field that starts in the
middle of a line, and passes by a line at an odd offset.

Two results say when that makes no difference. `keep_alive_of_seesField` is about where the fields
are: the last one that counts starts a line at an even offset. Elsewhere the loop and the lines take
their decisions from different fields, and agree at most by accident; `keep_alive_iff` compares the
decisions themselves.
-/

namespace ForgeServer

open CStr

/-! ### What a header line says -/

/-- `s` begins with `lit`, ignoring case. -/
def beginsWith (lit s : List UInt8) : Bool := (lit.map toLower).isPrefixOf (s.map toLower)

/-- The decision of a `Connection` field at the start of `s`: what its value begins with after
spaces and tabs. -/
def fieldDecision (s : List UInt8) : Option Bool :=
  if beginsWith (ascii "Connection:") s then
    let v := (s.drop 11).dropWhile isBlank
    if beginsWith (ascii "keep-alive") v then some true
    else if beginsWith (ascii "close") v then some false
    else none
  else none

/-- The decision of the last of the texts that make one, and `default` if none does. -/
def lastDecision (texts : List (List UInt8)) (default : Bool) : Bool :=
  texts.foldl (fun ka s ↦ (fieldDecision s).getD ka) default

/-- The texts that start at every second byte. -/
def everySecond : List UInt8 → List (List UInt8)
  | [] => []
  | [b] => [[b]]
  | b :: c :: s => (b :: c :: s) :: everySecond s

/-- A header line: not empty, no NUL and no CRLF in it. -/
structure IsHeaderLine (h : List UInt8) : Prop where
  ne_nil : h ≠ []
  no_nul : 0 ∉ h
  no_crlf : ¬ crlf <:+: h

/-- **A well-formed request block**: three words that fit in their arrays, and header lines. -/
structure RequestBlock where
  method : List UInt8
  path : List UInt8
  version : List UInt8
  headers : List (List UInt8)
  isWord_method : IsWord method
  isWord_path : IsWord path
  isWord_version : IsWord version
  method_le : method.length ≤ 7
  path_le : path.length ≤ 1023
  version_le : version.length ≤ 15
  no_nul : 0 ∉ method ∧ 0 ∉ path ∧ 0 ∉ version
  isHeaderLine : ∀ h ∈ headers, IsHeaderLine h

/-- Lines, each with its CRLF. -/
def unlines (ls : List (List UInt8)) : List UInt8 := ls.flatMap (· ++ crlf)

namespace RequestBlock

variable (r : RequestBlock)

/-- The request line, its words separated by single spaces. -/
def line : List UInt8 := r.method ++ [32] ++ r.path ++ [32] ++ r.version

/-- The header lines and the final CRLF. -/
def headerBytes : List UInt8 := unlines r.headers ++ crlf

/-- The bytes of the block. -/
def bytes : List UInt8 := r.line ++ crlf ++ r.headerBytes

/-- `version = "HTTP/1.1"`. -/
def http11 : Bool := r.version == ascii "HTTP/1.1"

end RequestBlock

/-! ### A literal in front of a line feed -/

/-- `strncasecmp` finds a literal that has no NUL exactly when the text begins with it. -/
theorem matchesNoCase_eq_true_iff {lit m : List UInt8} :
    matchesNoCase lit m = some true ↔ beginsWith lit m = true := by
  induction lit generalizing m with
  | nil => simp [matchesNoCase, beginsWith]
  | cons c lit ih =>
    cases m with
    | nil => simp [matchesNoCase, beginsWith]
    | cons b m =>
      rw [matchesNoCase, beginsWith, List.map_cons, List.map_cons, List.isPrefixOf_cons_cons]
      by_cases hb : toLower b = toLower c
      · rw [if_pos hb, ih, hb, beq_self_eq_true, Bool.true_and, beginsWith]
      · rw [if_neg hb, beq_eq_false_iff_ne.2 (Ne.symm hb), Bool.false_and]
        simp

/-- A literal without a line feed is found in the text in front of one, or not at all. -/
theorem matchesNoCase_of_lf {lit m : List UInt8} (hm : 10 ∈ m)
    (hlit : ∀ c ∈ lit, toLower 10 ≠ toLower c) (t : List UInt8) :
    matchesNoCase lit (m ++ t) = some (beginsWith lit m) := by
  obtain ⟨b, hb⟩ := matchesNoCase_append hm hlit
  have hnil : matchesNoCase lit m = some b := by simpa using hb []
  rw [hb t, Option.some.injEq, Bool.eq_iff_iff, ← matchesNoCase_eq_true_iff, hnil,
    Option.some.injEq]

/-- The blanks in front of a line feed are skipped. -/
theorem skipBlanks_of_lf {m : List UInt8} (hm : 10 ∈ m) (t : List UInt8) :
    skipBlanks (m ++ t) = some (m.dropWhile isBlank ++ t) ∧ 10 ∈ m.dropWhile isBlank := by
  induction m with
  | nil => exact absurd hm List.not_mem_nil
  | cons b m ih =>
    rw [List.cons_append, skipBlanks]
    rcases hb : isBlank b with - | -
    · rw [if_neg (by simp), List.dropWhile_cons_of_neg (by simp [hb])]
      exact ⟨rfl, hm⟩
    · have hne : (10 : UInt8) ≠ b := by
        rintro rfl
        exact absurd hb (by decide)
      rw [if_pos rfl, List.dropWhile_cons_of_pos hb]
      exact ih ((List.mem_cons.1 hm).resolve_left hne)

/-- **One test of the header loop** takes over the decision of the field that starts there. -/
theorem connectionField_eq {b : List UInt8} {p : ℕ} (hlf : 10 ∈ b.drop p) (t : List UInt8)
    (ka : Bool) :
    connectionField (b ++ t) p ka = some ((fieldDecision (b.drop p)).getD ka) := by
  have hdrop : ∀ {q : ℕ}, 10 ∈ b.drop q → (b ++ t).drop q = b.drop q ++ t := by
    intro q hq
    refine List.drop_append_of_le_length (Nat.le_of_lt (lt_of_not_ge fun hle ↦ ?_))
    rw [List.drop_eq_nil_of_le hle] at hq
    exact absurd hq List.not_mem_nil
  have hname := toLower_lf_ne (show ∀ c ∈ ascii "Connection:", toLower c ≠ 10 by decide +kernel)
  have hclose := toLower_lf_ne (show ∀ c ∈ ascii "close", toLower c ≠ 10 by decide +kernel)
  have hkeep := toLower_lf_ne (show ∀ c ∈ ascii "keep-alive", toLower c ≠ 10 by decide +kernel)
  rw [connectionField, hdrop hlf, matchesNoCase_of_lf hlf hname, fieldDecision]
  rcases hbegins : beginsWith (ascii "Connection:") (b.drop p) with - | -
  · rfl
  · -- there is a value: the line feed is behind the name
    have hlf' : 10 ∈ b.drop (p + 11) := by
      have := mem_drop_of_matchesNoCase hlf hname (matchesNoCase_eq_true_iff.2 hbegins)
      rwa [List.drop_drop] at this
    obtain ⟨hskip, hv⟩ := skipBlanks_of_lf hlf' t
    rw [List.drop_drop, hdrop hlf']
    simp only [Option.bind_eq_bind, Option.bind_some, if_true, hskip,
      matchesNoCase_of_lf hv hclose, matchesNoCase_of_lf hv hkeep]
    cases beginsWith (ascii "keep-alive") _ <;> cases beginsWith (ascii "close") _ <;> rfl

/-- **The header loop looks at every second byte.** -/
theorem headerLoop_eq {b : List UInt8} (hlf : ∀ p < b.length, 10 ∈ b.drop p) (t : List UInt8) :
    ∀ k ≤ b.length, ∀ ka, headerLoop (b ++ t) b.length (k + 2) ka =
      some (lastDecision (everySecond (b.drop (b.length - k))) ka)
  | 0, _, ka => by
    rw [headerLoop, if_pos rfl, Nat.sub_zero, List.drop_length]
    rfl
  | 1, hk, ka => by
    have hp : b.length - 1 < b.length := by omega
    have hone : b.drop (b.length - 1) = [b[b.length - 1]] := by
      rw [List.drop_eq_getElem_cons hp, Nat.sub_add_cancel hk, List.drop_length]
    rw [headerLoop, if_neg (by omega), connectionField_eq (hlf _ hp), hone]
    rfl
  | k + 2, hk, ka => by
    have hp : b.length - (k + 2) < b.length := by omega
    have htwo : b.drop (b.length - (k + 2)) =
        b[b.length - (k + 2)] :: b[b.length - (k + 2) + 1] :: b.drop (b.length - k) := by
      rw [List.drop_eq_getElem_cons hp, List.drop_eq_getElem_cons (by omega),
        show b.length - (k + 2) + 1 + 1 = b.length - k by omega]
    rw [headerLoop, if_neg (by omega), connectionField_eq (hlf _ hp), Option.bind_eq_bind,
      Option.bind_some, headerLoop_eq hlf t k (by omega), htwo, everySecond]
    rfl

/-! ### The lines of a block -/

/-- A CRLF does not start in a line that has none. -/
theorem not_crlf_prefix_drop {h t : List UInt8} (hno : ¬ crlf <:+: h) {j : ℕ} (hj : j < h.length) :
    ¬ crlf <+: (h ++ (crlf ++ t)).drop j := by
  rw [List.drop_append_of_le_length hj.le, List.drop_eq_getElem_cons hj]
  rcases hrest : h.drop (j + 1) with - | ⟨y, ys⟩
  · -- the last byte of the line, and the CR behind it
    rw [crlf_eq, List.cons_append, List.nil_append, List.cons_append]
    simp
  · intro hpre
    have hline : crlf <+: h.drop j := by
      rw [List.drop_eq_getElem_cons hj, hrest]
      rw [crlf_eq] at hpre ⊢
      simpa using hpre
    exact hno (hline.isInfix.trans (List.drop_suffix j h).isInfix)

/-- The first CRLF is at the end of the first line. -/
theorem firstOcc_crlf {h : List UInt8} (hno : ¬ crlf <:+: h) (t : List UInt8) :
    crlf.firstOcc (h ++ (crlf ++ t)) = some h.length := by
  have hzero : crlf.firstOcc (crlf ++ t) = some 0 := by
    rw [crlf_eq, List.cons_append, List.firstOcc_cons_of_occ (by simp)]
  rw [List.firstOcc_append_right fun j hj ↦ not_crlf_prefix_drop hno hj, hzero]
  simp

theorem crlfcrlf_eq_append : crlfcrlf = crlf ++ crlf := by decide

theorem not_crlfcrlf_prefix_drop {h t : List UInt8} (hno : ¬ crlf <:+: h) {j : ℕ}
    (hj : j < h.length) : ¬ crlfcrlf <+: (h ++ (crlf ++ t)).drop j := fun hpre ↦
  not_crlf_prefix_drop hno hj <| (crlfcrlf_eq_append ▸ List.prefix_append crlf crlf).trans hpre

/-- **The first terminator is behind the last line**, no line being empty. -/
theorem firstOcc_unlines {hs : List (List UInt8)} (hhs : ∀ l ∈ hs, IsHeaderLine l)
    {h : List UInt8} (hno : ¬ crlf <:+: h) :
    crlfcrlf.firstOcc (h ++ (crlf ++ (unlines hs ++ crlf))) =
      some (h.length + (unlines hs).length) := by
  induction hs generalizing h with
  | nil =>
    have hzero : crlfcrlf.firstOcc (crlf ++ (unlines [] ++ crlf)) = some 0 := by decide
    rw [List.firstOcc_append_right fun j hj ↦ not_crlfcrlf_prefix_drop hno hj, hzero]
    simp [unlines]
  | cons l hs ih =>
    obtain ⟨⟨hne, -, hl⟩, hhs⟩ := List.forall_mem_cons.1 hhs
    have hsplit : h ++ (crlf ++ (unlines (l :: hs) ++ crlf)) =
        (h ++ crlf) ++ (l ++ (crlf ++ (unlines hs ++ crlf))) := by
      simp [unlines, List.append_assoc]
    have hbefore : ∀ j < (h ++ crlf).length,
        ¬ crlfcrlf <+: ((h ++ crlf) ++ (l ++ (crlf ++ (unlines hs ++ crlf)))).drop j := by
      intro j hj hpre
      rw [List.append_assoc] at hpre
      rw [List.length_append, crlf_eq, List.length_cons, List.length_singleton] at hj
      rcases Nat.lt_or_ge j h.length with hlt | hge
      · exact not_crlfcrlf_prefix_drop hno hlt hpre
      obtain rfl | rfl : j = h.length ∨ j = h.length + 1 := by omega
      · -- the line `l` would have to start with a CRLF
        rw [List.drop_left, crlfcrlf_eq_append, List.prefix_append_right_inj] at hpre
        exact not_crlf_prefix_drop hl (List.length_pos_iff.2 hne) (j := 0) hpre
      · rw [← List.drop_drop, List.drop_left, crlf_eq, crlfcrlf_eq] at hpre
        simp at hpre
    rw [hsplit, List.firstOcc_append_right hbefore, ih hhs hl]
    simp [unlines, crlf_eq]
    omega

namespace RequestBlock

variable (r : RequestBlock)

theorem isRequestLine : IsRequestLine r.line r.method r.path r.version where
  method := r.isWord_method
  path := r.isWord_path
  version := r.isWord_version
  eq := by
    have hgap : IsGap [32] := ⟨by simp, fun b hb ↦ by rw [List.mem_singleton.1 hb]; rfl⟩
    exact ⟨[32], [32], hgap, hgap, rfl⟩

/-- No line break in the request line. -/
theorem no_crlf_line : ¬ crlf <:+: r.line := by
  intro hcr
  have h13 : (13 : UInt8) ∈ r.line := hcr.subset (by decide)
  have hno : ∀ {u : List UInt8}, IsWord u → (13 : UInt8) ∉ u := fun hu hmem ↦
    absurd (hu.2 13 hmem) (by decide)
  simp only [line, List.mem_append, List.mem_singleton] at h13
  rcases h13 with (((h | h) | h) | h) | h
  · exact hno r.isWord_method h
  · exact absurd h (by decide)
  · exact hno r.isWord_path h
  · exact absurd h (by decide)
  · exact hno r.isWord_version h

theorem no_nul_unlines {hs : List (List UInt8)} (hhs : ∀ l ∈ hs, IsHeaderLine l) :
    0 ∉ unlines hs := by
  intro h0
  obtain ⟨l, hl, h0⟩ := List.mem_flatMap.1 h0
  rcases List.mem_append.1 h0 with h0 | h0
  · exact (hhs l hl).no_nul h0
  · exact absurd h0 (by decide)

theorem no_nul_bytes : 0 ∉ r.bytes := by
  obtain ⟨hm, hp, hv⟩ := r.no_nul
  have hcrlf : (0 : UInt8) ∉ crlf := by decide
  simp only [bytes, line, headerBytes, List.mem_append, List.mem_singleton, hm, hp, hv, hcrlf,
    no_nul_unlines r.isHeaderLine, or_false, false_or]
  decide

theorem length_bytes : r.bytes.length = r.line.length + 2 + (unlines r.headers).length + 2 := by
  simp only [bytes, headerBytes, List.length_append, crlf_eq, List.length_cons, List.length_nil]
  omega

theorem isBlock : IsBlock r.bytes := by
  rw [IsBlock, length_bytes, bytes, headerBytes, List.append_assoc,
    firstOcc_unlines r.isHeaderLine r.no_crlf_line]
  exact congrArg some (by omega)

/-- The scan of the headers starts behind the first line of the block. -/
theorem scanHeaders_bytes (t : List UInt8) (h0 : 0 ∈ r.bytes ++ t) (ka : Bool) :
    scanHeaders (r.bytes ++ t) r.bytes.length ka =
      some (lastDecision (everySecond r.headerBytes) ka) := by
  have hstr : strstr (r.bytes ++ t) crlf = some (some r.line.length) := by
    obtain ⟨s, hs⟩ := exists_cstr ((List.mem_append.1 h0).resolve_left r.no_nul_bytes)
    rw [strstr, cstr_append_of_not_mem r.no_nul_bytes, hs, Option.map_some, Option.map_some, bytes]
    simp only [List.append_assoc]
    rw [firstOcc_crlf r.no_crlf_line]
  have hlen : r.bytes.length - r.line.length = r.headerBytes.length + 2 := by
    simp only [bytes, List.length_append, crlf_eq, List.length_cons, List.length_nil]
    omega
  have hdrop : r.bytes.drop (r.bytes.length - r.headerBytes.length) = r.headerBytes := by
    rw [bytes, List.length_append, Nat.add_sub_cancel, List.drop_left]
  rw [scanHeaders, hstr, Option.bind_eq_bind, Option.bind_some]
  dsimp only
  rw [hlen, headerLoop_eq (fun p hp ↦ r.isBlock.lf_mem_drop hp) t _ (by omega), hdrop]

/-- **A well-formed block is accepted**, with the decision of every second byte. -/
theorem requestOf_bytes (t : List UInt8) (h0 : 0 ∈ r.bytes ++ t) :
    requestOf (r.bytes ++ t) r.bytes.length =
      some ⟨r.method, r.path, r.version, lastDecision (everySecond r.headerBytes) r.http11,
        r.bytes.length⟩ := by
  have h4 := r.isBlock.four_le_length
  obtain ⟨s, hs⟩ := exists_cstr ((List.mem_append.1 h0).resolve_left r.no_nul_bytes)
  have hwords : requestWords (r.bytes ++ s) = some (r.method, r.path, r.version) := by
    have hbytes : r.bytes ++ s = r.line ++ 13 :: (10 :: (r.headerBytes ++ s)) := by
      simp [bytes, crlf_eq]
    rw [hbytes]
    exact requestWords_line r.isRequestLine r.method_le r.path_le r.version_le (by decide)
  have hfirst : crlfcrlf.firstOcc ((r.bytes ++ t).take r.bytes.length) =
      some (r.bytes.length - 4) := by
    rw [List.take_left]
    exact r.isBlock
  rw [requestOf, hfirst, cstr_append_of_not_mem r.no_nul_bytes, hs]
  simp only [Option.bind_eq_bind, Option.bind_some, Option.map_some, hwords,
    Nat.sub_add_cancel h4, scanHeaders_bytes r t h0]
  rfl

/-- The code on a well-formed block, whatever follows it in the received bytes or in memory. -/
theorem httpTryParseRequest_bytes {t : List UInt8} (h0 : 0 ∈ r.bytes ++ t) {len : ℕ}
    (hlen : r.bytes.length ≤ len) (out : HttpReq) :
    ∃ req, httpTryParseRequest (r.bytes ++ t) len out = some (true, req) ∧
      req.keepAlive = lastDecision (everySecond r.headerBytes) r.http11 := by
  obtain ⟨req, hparse, hreq, -⟩ := httpTryParseRequest_spec (by simp : r.bytes.length ≤ _) h0 out
  have hsome := r.requestOf_bytes t h0
  obtain ⟨-, -, -, hka, -⟩ := HttpReq.request_eq_some.1 (hreq _ hsome)
  rw [hsome] at hparse
  exact ⟨req, by rw [httpTryParseRequest_block r.isBlock hlen, hparse]; rfl, hka⟩

end RequestBlock

/-! ### The texts the loop looks at -/

/-- The parts of the header lines the loop looks at, `odd` when the first of the lines starts an odd
number of bytes behind the request line: those that start at every second byte of a line, and the
next line is off by one if the length of this one is odd. -/
def lookedAt : Bool → List (List UInt8) → List (List UInt8)
  | _, [] => []
  | false, h :: hs => everySecond h ++ lookedAt (h.length % 2 == 1) hs
  | true, h :: hs => everySecond h.tail ++ lookedAt (h.length % 2 == 0) hs

theorem lastDecision_append (xs ys : List (List UInt8)) (d : Bool) :
    lastDecision (xs ++ ys) d = lastDecision ys (lastDecision xs d) :=
  List.foldl_append

/-- A literal that has no CR is found in front of one, or not at all. -/
theorem beginsWith_append_cr {lit : List UInt8} (hlit : ∀ c ∈ lit, toLower c ≠ 13)
    (s t : List UInt8) : beginsWith lit (s ++ 13 :: t) = beginsWith lit s := by
  induction lit generalizing s with
  | nil => simp [beginsWith]
  | cons c lit ih =>
    obtain ⟨hc, hlit⟩ := List.forall_mem_cons.1 hlit
    cases s with
    | nil =>
      -- the first letter meets the CR
      have hne : (toLower c == toLower 13) = false :=
        beq_eq_false_iff_ne.2 fun h ↦ hc (h.trans (by decide))
      rw [beginsWith, List.nil_append, List.map_cons, List.map_cons, List.isPrefixOf_cons_cons, hne]
      rfl
    | cons b s =>
      have hrest := ih hlit s
      simp only [beginsWith, List.cons_append, List.map_cons, List.isPrefixOf_cons_cons] at hrest ⊢
      rw [hrest]

theorem length_le_of_beginsWith {lit s : List UInt8} (h : beginsWith lit s = true) :
    lit.length ≤ s.length := by
  simpa using (List.isPrefixOf_iff_prefix.1 h).length_le

/-- **A field is decided on its line.** -/
theorem fieldDecision_append_cr (s t : List UInt8) :
    fieldDecision (s ++ 13 :: t) = fieldDecision s := by
  have hclose : ∀ c ∈ ascii "close", toLower c ≠ 13 := by decide +kernel
  have hkeep : ∀ c ∈ ascii "keep-alive", toLower c ≠ 13 := by decide +kernel
  rw [fieldDecision, fieldDecision, beginsWith_append_cr (by decide +kernel)]
  rcases hbegins : beginsWith (ascii "Connection:") s with - | -
  · rfl
  · have hlen : 11 ≤ s.length := length_le_of_beginsWith hbegins
    have hskip : ((s ++ 13 :: t).drop 11).dropWhile isBlank =
        (s.drop 11).dropWhile isBlank ++ 13 :: t := by
      rw [List.drop_append_of_le_length hlen, List.dropWhile_append]
      split
      · rename_i hnil
        rw [List.isEmpty_iff.1 hnil, List.nil_append, List.dropWhile_cons_of_neg (by decide)]
      · rfl
    simp only [hskip, beginsWith_append_cr hclose, beginsWith_append_cr hkeep]

theorem fieldDecision_lf (t : List UInt8) : fieldDecision (10 :: t) = none := by
  have hlf : beginsWith (ascii "Connection:") (10 :: t) = false := by
    rw [beginsWith,
      show (ascii "Connection:").map toLower = 99 :: ascii "onnection:" by decide +kernel,
      List.map_cons, List.isPrefixOf_cons_cons, show ((99 : UInt8) == toLower 10) = false by decide]
    rfl
  rw [fieldDecision, if_neg (by simp [hlf])]

theorem lastDecision_everySecond_two (b c : UInt8) (s : List UInt8) (d : Bool) :
    lastDecision (everySecond (b :: c :: s)) d =
      lastDecision (everySecond s) ((fieldDecision (b :: c :: s)).getD d) := rfl

/-- The texts behind a line feed. -/
theorem lastDecision_everySecond_lf (rest : List UInt8) (d : Bool) :
    lastDecision (everySecond (10 :: rest)) d = lastDecision (everySecond rest.tail) d := by
  cases rest with
  | nil =>
    show (fieldDecision [10]).getD d = d
    rw [fieldDecision_lf]
    rfl
  | cons b rest =>
    rw [lastDecision_everySecond_two, fieldDecision_lf]
    rfl

/-- **A line among the texts at every second byte**: the parts of the line, then the texts of what
follows, off by one if the length of the line is odd. -/
theorem lastDecision_everySecond_line (h rest : List UInt8) (d : Bool) :
    lastDecision (everySecond (h ++ 13 :: 10 :: rest)) d =
      lastDecision (everySecond (if h.length % 2 = 0 then rest else rest.tail))
        (lastDecision (everySecond h) d) := by
  induction h using everySecond.induct generalizing d with
  | case1 =>
    have hcr : fieldDecision (13 :: 10 :: rest) = none := fieldDecision_append_cr [] (10 :: rest)
    rw [List.nil_append, lastDecision_everySecond_two, hcr]
    rfl
  | case2 b =>
    -- the last byte of the line is looked at, and then its line feed
    have hb : fieldDecision (b :: 13 :: 10 :: rest) = fieldDecision [b] :=
      fieldDecision_append_cr [b] (10 :: rest)
    rw [List.cons_append, List.nil_append, lastDecision_everySecond_two, hb,
      lastDecision_everySecond_lf]
    rfl
  | case3 b c s ih =>
    have hodd : (b :: c :: s).length % 2 = s.length % 2 := by
      rw [List.length_cons, List.length_cons]
      omega
    have hb : fieldDecision (b :: c :: (s ++ 13 :: 10 :: rest)) = fieldDecision (b :: c :: s) :=
      fieldDecision_append_cr (b :: c :: s) (10 :: rest)
    rw [hodd, List.cons_append, List.cons_append, lastDecision_everySecond_two, ih, hb,
      lastDecision_everySecond_two]

/-- **The loop decides what the texts it looks at on the header lines decide.** -/
theorem lastDecision_everySecond_unlines {hs : List (List UInt8)} (hhs : ∀ l ∈ hs, IsHeaderLine l)
    (d : Bool) :
    lastDecision (everySecond (unlines hs ++ crlf)) d = lastDecision (lookedAt false hs) d ∧
      lastDecision (everySecond (unlines hs ++ crlf).tail) d =
        lastDecision (lookedAt true hs) d := by
  induction hs generalizing d with
  | nil =>
    exact ⟨(lastDecision_everySecond_line [] [] d).trans rfl, lastDecision_everySecond_lf [] d⟩
  | cons h hs ih =>
    obtain ⟨⟨hne, -, -⟩, hrest⟩ := List.forall_mem_cons.1 hhs
    obtain ⟨b, h, rfl⟩ := List.exists_cons_of_ne_nil hne
    have hsplit : unlines ((b :: h) :: hs) ++ crlf =
        b :: h ++ 13 :: 10 :: (unlines hs ++ crlf) := by simp [unlines, crlf_eq]
    rw [hsplit]
    constructor
    · rw [lastDecision_everySecond_line, lookedAt, lastDecision_append]
      rcases Nat.mod_two_eq_zero_or_one (b :: h).length with heven | hodd
      · rw [if_pos heven, heven]
        exact (ih hrest _).1
      · rw [if_neg (by omega), hodd]
        exact (ih hrest _).2
    · -- without its first byte the length of the line changes parity
      rw [List.cons_append, List.tail_cons, lastDecision_everySecond_line, lookedAt,
        lastDecision_append, List.length_cons, List.tail_cons]
      rcases Nat.mod_two_eq_zero_or_one h.length with heven | hodd
      · rw [if_pos heven, show (h.length + 1) % 2 = 1 by omega]
        exact (ih hrest _).1
      · rw [if_neg (by omega), show (h.length + 1) % 2 = 0 by omega]
        exact (ih hrest _).2

/-- What decides: the last field there is, or the default if there is none. -/
theorem lastDecision_eq_iff {texts : List (List UInt8)} {d v : Bool} :
    lastDecision texts d = v ↔
      (∃ before s after, texts = before ++ s :: after ∧ fieldDecision s = some v ∧
        ∀ x ∈ after, fieldDecision x = none) ∨
      (∀ x ∈ texts, fieldDecision x = none) ∧ d = v := by
  induction texts generalizing d with
  | nil => simp [lastDecision]
  | cons s texts ih =>
    show lastDecision texts ((fieldDecision s).getD d) = v ↔ _
    rw [ih, List.forall_mem_cons]
    constructor
    · rintro (⟨before, x, after, rfl, hx, hafter⟩ | ⟨hnone, hs⟩)
      · exact .inl ⟨s :: before, x, after, rfl, hx, hafter⟩
      · rcases hdec : fieldDecision s with - | w <;> rw [hdec] at hs
        · exact .inr ⟨⟨rfl, hnone⟩, hs⟩
        · exact .inl ⟨[], s, texts, rfl, by rw [hdec, ← hs]; rfl, hnone⟩
    · rintro (⟨before, x, after, heq, hx, hafter⟩ | ⟨⟨hs, hnone⟩, rfl⟩)
      · rcases before with - | ⟨y, before⟩
        · obtain ⟨rfl, rfl⟩ := List.cons.inj heq
          exact .inr ⟨hafter, by rw [hx]; rfl⟩
        · obtain ⟨rfl, rfl⟩ := List.cons.inj heq
          exact .inl ⟨before, x, after, rfl, hx, hafter⟩
      · exact .inr ⟨hnone, by rw [hs]; rfl⟩

/-! ### Exactly when the decision is right -/

/-- **The loop is not misled**: the last field among the texts it looks at says what the header
lines say; if there is none, the header lines say what the version does. -/
def RequestBlock.ReadsRight (r : RequestBlock) : Prop :=
  (∃ before s after, lookedAt false r.headers = before ++ s :: after ∧
      fieldDecision s = some (lastDecision r.headers r.http11) ∧
      ∀ x ∈ after, fieldDecision x = none) ∨
    (∀ x ∈ lookedAt false r.headers, fieldDecision x = none) ∧
      r.http11 = lastDecision r.headers r.http11

/-- **Exactly when the keep-alive decision is the one the header lines give.** -/
theorem keep_alive_iff (r : RequestBlock) {t : List UInt8} (h0 : 0 ∈ r.bytes ++ t) {len : ℕ}
    (hlen : r.bytes.length ≤ len) (out : HttpReq) :
    ∃ req, httpTryParseRequest (r.bytes ++ t) len out = some (true, req) ∧
      (req.keepAlive = lastDecision r.headers r.http11 ↔ r.ReadsRight) := by
  obtain ⟨req, hparse, hka⟩ := r.httpTryParseRequest_bytes h0 hlen out
  refine ⟨req, hparse, ?_⟩
  rw [hka, RequestBlock.headerBytes, (lastDecision_everySecond_unlines r.isHeaderLine _).1]
  exact lastDecision_eq_iff

/-! ### Where the fields are -/

/-- Nothing is decided behind the end. -/
theorem fieldDecision_nil : fieldDecision [] = none := by decide +kernel

/-- What is left of the texts at every second byte, an even number of bytes on. -/
theorem everySecond_drop {s : List UInt8} {p : ℕ} (hp : p % 2 = 0) (hlt : p < s.length) :
    ∃ before, everySecond s = before ++ s.drop p :: everySecond (s.drop (p + 2)) := by
  induction s using everySecond.induct generalizing p with
  | case1 => exact absurd hlt (Nat.not_lt_zero p)
  | case2 b =>
    obtain rfl : p = 0 := Nat.lt_one_iff.1 hlt
    exact ⟨[], rfl⟩
  | case3 b c s ih =>
    match p with
    | 0 => exact ⟨[], rfl⟩
    | 1 => exact absurd hp (by decide)
    | p + 2 =>
      obtain ⟨before, hrest⟩ := ih (p := p) (by omega) (by simpa using hlt)
      exact ⟨(b :: c :: s) :: before, by rw [everySecond, hrest]; rfl⟩

theorem mem_everySecond {s x : List UInt8} (h : x ∈ everySecond s) :
    ∃ p, p % 2 = 0 ∧ x = s.drop p := by
  induction s using everySecond.induct with
  | case1 => exact absurd h List.not_mem_nil
  | case2 b => exact ⟨0, rfl, List.mem_singleton.1 h⟩
  | case3 b c s ih =>
    rcases List.mem_cons.1 h with rfl | h
    · exact ⟨0, rfl, rfl⟩
    · obtain ⟨p, hp, rfl⟩ := ih h
      exact ⟨p + 2, by omega, rfl⟩

theorem lastDecision_of_none {texts : List (List UInt8)} (h : ∀ x ∈ texts, fieldDecision x = none)
    (d : Bool) : lastDecision texts d = d :=
  lastDecision_eq_iff.2 (.inr ⟨h, rfl⟩)

theorem lastDecision_of_last {before after : List (List UInt8)} {s : List UInt8} {v : Bool}
    (hs : fieldDecision s = some v) (hafter : ∀ x ∈ after, fieldDecision x = none) (d : Bool) :
    lastDecision (before ++ s :: after) d = v :=
  lastDecision_eq_iff.2 (.inl ⟨before, s, after, rfl, hs, hafter⟩)

namespace RequestBlock

variable (r : RequestBlock)

/-- A `Connection` field that decides starts `p` bytes behind the first line. -/
def DecidesAt (p : ℕ) : Prop := (fieldDecision (r.headerBytes.drop p)).isSome

/-- A header line starts `p` bytes behind the first line. -/
def LineAt (p : ℕ) : Prop := ∃ i < r.headers.length, (unlines (r.headers.take i)).length = p

/-- A deciding field that starts a line, or that the loop looks at: an even number of bytes behind
the first line. -/
def CountsAt (p : ℕ) : Prop := r.DecidesAt p ∧ (r.LineAt p ∨ p % 2 = 0)

/-- **The loop sees the field that counts**: the last one of them starts a line and is looked at. -/
def SeesField : Prop :=
  ∀ p, r.CountsAt p → (∀ q, p < q → ¬ r.CountsAt q) → r.LineAt p ∧ p % 2 = 0

instance (p : ℕ) : Decidable (r.DecidesAt p) :=
  inferInstanceAs (Decidable ((fieldDecision (r.headerBytes.drop p)).isSome = true))

instance (p : ℕ) : Decidable (r.LineAt p) :=
  inferInstanceAs (Decidable (∃ i < r.headers.length, (unlines (r.headers.take i)).length = p))

instance (p : ℕ) : Decidable (r.CountsAt p) :=
  inferInstanceAs (Decidable (r.DecidesAt p ∧ (r.LineAt p ∨ p % 2 = 0)))

variable {r}

theorem DecidesAt.lt {p : ℕ} (h : r.DecidesAt p) : p < r.headerBytes.length := by
  by_contra hge
  rw [DecidesAt, List.drop_eq_nil_of_le (not_lt.1 hge), fieldDecision_nil] at h
  exact absurd h (by simp)

theorem seesField_iff :
    (∀ p < r.headerBytes.length, r.CountsAt p →
      (∀ q < r.headerBytes.length, p < q → ¬ r.CountsAt q) → r.LineAt p ∧ p % 2 = 0) ↔
        r.SeesField :=
  ⟨fun h p hp hlast ↦ h p hp.1.lt hp fun q _ ↦ hlast q,
    fun h p _ hp hlast ↦ h p hp fun q hpq hq ↦ hlast q hq.1.lt hpq hq⟩

instance : Decidable r.SeesField := decidable_of_iff _ seesField_iff

/-- In particular when the deciding fields at the starts of lines are those at even distances. -/
theorem seesField_of_forall (h : ∀ p, r.DecidesAt p → (r.LineAt p ↔ p % 2 = 0)) :
    r.SeesField := by
  rintro p ⟨hdec, hline | heven⟩ -
  · exact ⟨hline, (h p hdec).1 hline⟩
  · exact ⟨(h p hdec).2 heven, heven⟩

/-- The field at the start of a line is the line's. -/
theorem fieldDecision_line {before after : List (List UInt8)} {h : List UInt8}
    (hsplit : r.headers = before ++ h :: after) :
    r.LineAt (unlines before).length ∧
      fieldDecision (r.headerBytes.drop (unlines before).length) = fieldDecision h := by
  refine ⟨⟨before.length, by rw [hsplit]; simp, by rw [hsplit, List.take_left]⟩, ?_⟩
  have hbytes : r.headerBytes = unlines before ++ (h ++ 13 :: 10 :: (unlines after ++ crlf)) := by
    rw [headerBytes, hsplit]
    simp [unlines, crlf_eq]
  rw [hbytes, List.drop_left, fieldDecision_append_cr]

/-- A line that starts at `p`, with the lines behind it. -/
theorem LineAt.exists_eq_append {p : ℕ} (h : r.LineAt p) :
    ∃ before l after, r.headers = before ++ l :: after ∧ (unlines before).length = p := by
  obtain ⟨i, hi, hp⟩ := h
  refine ⟨r.headers.take i, r.headers[i], r.headers.drop (i + 1), ?_, hp⟩
  rw [← List.drop_eq_getElem_cons hi, List.take_append_drop]

/-- **The last of the fields that start a line** is what the header lines say. -/
theorem lastDecision_headers {p : ℕ} {v : Bool} (hline : r.LineAt p)
    (hv : fieldDecision (r.headerBytes.drop p) = some v)
    (hlast : ∀ q, p < q → r.LineAt q → ¬ r.DecidesAt q) (d : Bool) :
    lastDecision r.headers d = v := by
  obtain ⟨before, l, after, hsplit, rfl⟩ := hline.exists_eq_append
  rw [(fieldDecision_line hsplit).2] at hv
  rw [hsplit]
  refine lastDecision_of_last hv (fun x hx ↦ ?_) d
  obtain ⟨mid, rest, rfl⟩ := List.append_of_mem hx
  have hsplit' : r.headers = (before ++ l :: mid) ++ x :: rest := by rw [hsplit]; simp
  obtain ⟨hat, hdec⟩ := fieldDecision_line hsplit'
  have hlt : (unlines before).length < (unlines (before ++ l :: mid)).length := by
    have hcrlf : crlf.length = 2 := rfl
    rw [unlines, unlines, List.flatMap_append, List.flatMap_cons, List.length_append,
      List.length_append, List.length_append, hcrlf]
    omega
  have hno := hlast _ hlt hat
  rw [DecidesAt, hdec] at hno
  simpa using hno

/-- **The last of the fields at an even distance** is what the loop makes of the headers. -/
theorem lastDecision_everySecond_headerBytes {p : ℕ} {v : Bool} (heven : p % 2 = 0)
    (hv : fieldDecision (r.headerBytes.drop p) = some v)
    (hlast : ∀ q, p < q → q % 2 = 0 → ¬ r.DecidesAt q) (d : Bool) :
    lastDecision (everySecond r.headerBytes) d = v := by
  have hp : r.DecidesAt p := by rw [DecidesAt, hv]; rfl
  obtain ⟨before, hsplit⟩ := everySecond_drop heven hp.lt
  rw [hsplit]
  refine lastDecision_of_last hv (fun x hx ↦ ?_) d
  obtain ⟨q, hq, rfl⟩ := mem_everySecond hx
  rw [List.drop_drop]
  simpa [DecidesAt] using hlast (p + 2 + q) (by omega) (by omega)

/-- **The loop decides what the header lines do** if it sees the field that counts. -/
theorem SeesField.lastDecision_eq (h : r.SeesField) (d : Bool) :
    lastDecision (everySecond r.headerBytes) d = lastDecision r.headers d := by
  by_cases hex : ∃ p, r.CountsAt p
  · -- the last field that counts decides on both sides
    obtain ⟨p₀, hp₀⟩ := hex
    have hp := Nat.findGreatest_spec hp₀.1.lt.le hp₀
    have hlast : ∀ q, Nat.findGreatest r.CountsAt r.headerBytes.length < q → ¬ r.CountsAt q :=
      fun q hlt hq ↦ Nat.findGreatest_is_greatest hlt hq.1.lt.le hq
    generalize Nat.findGreatest r.CountsAt r.headerBytes.length = p at hp hlast
    obtain ⟨hline, heven⟩ := h p hp hlast
    obtain ⟨v, hv⟩ := Option.isSome_iff_exists.1 hp.1
    rw [lastDecision_everySecond_headerBytes heven hv fun q hlt hq hdec ↦
        hlast q hlt ⟨hdec, .inr hq⟩,
      lastDecision_headers hline hv fun q hlt hq hdec ↦ hlast q hlt ⟨hdec, .inl hq⟩]
  · have hnone : ∀ p, r.LineAt p ∨ p % 2 = 0 → fieldDecision (r.headerBytes.drop p) = none := by
      intro p hor
      by_contra hdec
      exact hex ⟨p, Option.isSome_iff_ne_none.2 hdec, hor⟩
    rw [lastDecision_of_none, lastDecision_of_none]
    · intro x hx
      obtain ⟨before, after, hsplit⟩ := List.append_of_mem hx
      obtain ⟨hat, hdec⟩ := fieldDecision_line hsplit
      rw [← hdec, hnone _ (.inl hat)]
    · intro x hx
      obtain ⟨q, hq, rfl⟩ := mem_everySecond hx
      exact hnone q (.inr hq)

end RequestBlock

/-- **The keep-alive decision is the one the header lines give** where the loop sees the field that
counts. -/
theorem keep_alive_of_seesField (r : RequestBlock) (hsees : r.SeesField) {t : List UInt8}
    (h0 : 0 ∈ r.bytes ++ t) {len : ℕ} (hlen : r.bytes.length ≤ len) (out : HttpReq) :
    ∃ req, httpTryParseRequest (r.bytes ++ t) len out = some (true, req) ∧
      req.keepAlive = lastDecision r.headers r.http11 := by
  obtain ⟨req, hparse, hka⟩ := r.httpTryParseRequest_bytes h0 hlen out
  exact ⟨req, hparse, by rw [hka, hsees.lastDecision_eq]⟩

/-- A request with an odd line in front of a `Connection` field. -/
def oddBlock : RequestBlock where
  method := ascii "GET"
  path := ascii "/"
  version := ascii "HTTP/1.1"
  headers := [ascii "A: bc", ascii "Connection: close"]
  isWord_method := ⟨by decide, by decide +kernel⟩
  isWord_path := ⟨by decide, by decide +kernel⟩
  isWord_version := ⟨by decide, by decide +kernel⟩
  method_le := by decide
  path_le := by decide
  version_le := by decide
  no_nul := ⟨by decide, by decide, by decide⟩
  isHeaderLine := by
    rw [List.forall_mem_cons, List.forall_mem_singleton]
    exact ⟨⟨by decide, by decide, by decide⟩, ⟨by decide, by decide, by decide⟩⟩

/-- The field is passed by: the connection is kept although the client asked for its end. -/
theorem close_passed_by :
    ∃ req, httpTryParseRequest (oddBlock.bytes ++ [0]) oddBlock.bytes.length
        ⟨.zeros 8, .zeros 1024, .zeros 16, false, 0⟩ = some (true, req) ∧
      req.keepAlive ≠ lastDecision oddBlock.headers oddBlock.http11 := by
  have hparse : (httpTryParseRequest (oddBlock.bytes ++ [0]) oddBlock.bytes.length
      ⟨.zeros 8, .zeros 1024, .zeros 16, false, 0⟩).map (fun x ↦ (x.1, x.2.keepAlive)) =
        some (true, true) := by decide +kernel
  obtain ⟨⟨ok, req⟩, hreq, heq⟩ := Option.map_eq_some_iff.1 hparse
  obtain ⟨rfl, hka⟩ := Prod.mk.inj heq
  refine ⟨req, hreq, ?_⟩
  rw [show req.keepAlive = true from hka]
  decide +kernel

/-- A request with two lines in front of a `Connection` field that is then seen, and a text like one
in the first of them that is not. -/
def evenBlock : RequestBlock :=
  { oddBlock with
    headers := [ascii "Forwarded: Connection: keep-alive", ascii "A", ascii "Connection: close"]
    isHeaderLine := by
      rw [List.forall_mem_cons, List.forall_mem_cons, List.forall_mem_singleton]
      exact ⟨⟨by decide, by decide, by decide⟩, ⟨by decide, by decide, by decide⟩,
        ⟨by decide, by decide, by decide⟩⟩ }

/-- The field is seen, and the connection closed. -/
theorem keep_alive_of_seesField_even :
    ∃ req, httpTryParseRequest (evenBlock.bytes ++ [0]) evenBlock.bytes.length
        ⟨.zeros 8, .zeros 1024, .zeros 16, false, 0⟩ = some (true, req) ∧
      req.keepAlive = lastDecision evenBlock.headers evenBlock.http11 :=
  keep_alive_of_seesField evenBlock (by decide +kernel) (by simp) le_rfl _

example : lastDecision evenBlock.headers evenBlock.http11 = false := by decide +kernel

/-- A field that is passed by but says what the version does. -/
def agreeingBlock : RequestBlock :=
  { oddBlock with
    headers := [ascii "A: bc", ascii "Connection: keep-alive"]
    isHeaderLine := by
      rw [List.forall_mem_cons, List.forall_mem_singleton]
      exact ⟨⟨by decide, by decide, by decide⟩, ⟨by decide, by decide, by decide⟩⟩ }

example : ¬ agreeingBlock.SeesField ∧ lastDecision (everySecond agreeingBlock.headerBytes) true =
    lastDecision agreeingBlock.headers true := by decide +kernel

end ForgeServer
