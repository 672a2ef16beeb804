import ForgeServer.Bytes.Search
import ForgeServer.Server.Types

/-!
# The request parser

`httpTryParseRequest` is `http_try_parse_request` of `http/parser.c`. Its buffer is the list of the
bytes from `buf` to the end of the array, and every access is checked: `none` is an access outside
the array.

Below the code, one lemma for each of its three scans:

* `terminatorLoop_start` — the loop finds the first CRLFCRLF of the received bytes;
* `sscanfRequest_spec` — the three conversions, as `requestWords` of the string at `buf`;
* `scanHeaders_append` — the headers of a block (`IsBlock`: the first terminator is at the end) do
  not depend on what follows the block.

They are put together in `ForgeServer.Http.Request`.
-/

namespace ForgeServer

open CStr

/-- `"\r\n"`. -/
def crlf : List UInt8 := ascii "\r\n"

/-- `"\r\n\r\n"`, the end of a header block. -/
def crlfcrlf : List UInt8 := ascii "\r\n\r\n"

theorem crlf_eq : crlf = [13, 10] := by decide

theorem crlfcrlf_eq : crlfcrlf = [13, 10, 13, 10] := by decide

/-! ### The code -/

/-- `buf[i-3]=='\r' && buf[i-2]=='\n' && buf[i-1]=='\r' && buf[i]=='\n'`. -/
def crlfcrlfAt (buf : List UInt8) (i : ℕ) : Option Bool :=
  match buf.drop (i - 3) with
  | a :: b :: c :: d :: _ => some (a == 13 && b == 10 && c == 13 && d == 10)
  | _ => none

/-- The loop over `i` with `n` values of `i` still to come: the offset of `end`, if it is found. -/
def terminatorLoop (buf : List UInt8) : ℕ → ℕ → Option (Option ℕ)
  | 0, _ => some none
  | n + 1, i => do
    if ← crlfcrlfAt buf i then pure (some (i + 1)) else terminatorLoop buf n (i + 1)

/-- `strstr`; `none` is a haystack that is not a string. -/
def strstr (s : List UInt8) (pat : List UInt8) : Option (Option ℕ) :=
  (cstr s).map (pat.firstOcc ·)

/-- The widths in `"%7s %1023s %15s"`. -/
def requestWidths : List ℕ := [7, 1023, 15]

/-- `sscanf(buf, "%7s %1023s %15s", out->method, out->path, out->version)` and what it returns;
`-1` is `EOF`. -/
def sscanfRequest (buf : List UInt8) (out : HttpReq) : Option (ℤ × HttpReq) := do
  let s ← cstr buf
  match scanWord 7 s with
  | none => pure (-1, out)
  | some (m, s) =>
    let method ← out.method.putString m
    let out := { out with method := method }
    match scanWord 1023 s with
    | none => pure (1, out)
    | some (p, s) =>
      let path ← out.path.putString p
      let out := { out with path := path }
      match scanWord 15 s with
      | none => pure (2, out)
      | some (v, _) =>
        let version ← out.version.putString v
        pure (3, { out with version := version })

/-- The test of a header at `p`: a `Connection:` field sets the flag. -/
def connectionField (buf : List UInt8) (p : ℕ) (ka : Bool) : Option Bool := do
  if ← matchesNoCase (ascii "Connection:") (buf.drop p) then
    let v ← skipBlanks (buf.drop (p + 11))
    let ka := if ← matchesNoCase (ascii "close") v then false else ka
    if ← matchesNoCase (ascii "keep-alive") v then pure true else pure ka
  else pure ka

/-- The loop `while (p && p < end)`, with `end - p` as its argument: `p` moves two bytes on in
every iteration. -/
def headerLoop (buf : List UInt8) (endOff : ℕ) : ℕ → Bool → Option Bool
  | 0, ka => some ka
  | 1, ka => some ka
  | k + 2, ka =>
    if k = 0 then some ka
    else do
      let ka ← connectionField buf (endOff - k) ka
      headerLoop buf endOff k ka

/-- From `strstr(buf, "\r\n")` to the end of the header loop. -/
def scanHeaders (buf : List UInt8) (endOff : ℕ) (ka : Bool) : Option Bool := do
  match ← strstr buf crlf with
  | none => pure ka
  | some p => headerLoop buf endOff (endOff - p) ka

/-- `http_try_parse_request`: what it returns and what `*out` holds afterwards. -/
def httpTryParseRequest (buf : List UInt8) (len : ℕ) (out : HttpReq) :
    Option (Bool × HttpReq) := do
  match ← terminatorLoop buf (len - 3) 3 with
  | none => pure (false, out)
  | some endOff =>
    let method ← out.method.putString []
    let path ← out.path.putString []
    let version ← out.version.putString []
    let (n, out) ← sscanfRequest buf
      { out with method := method, path := path, version := version }
    if n ≠ 3 then pure (false, out)
    else
      let version ← cstr out.version.bytes
      let ka ← scanHeaders buf endOff (version == ascii "HTTP/1.1")
      pure (true, { out with keepAlive := ka, headerBytes := endOff })

/-! ### What it computes -/

/-- The three words of `sscanf` in a string. -/
def requestWords (s : List UInt8) : Option (List UInt8 × List UInt8 × List UInt8) :=
  match (scanWords requestWidths s).map Prod.fst with
  | some [m, p, v] => some (m, p, v)
  | _ => none

/-! ### The terminator loop -/

/-- The test at `i` is the occurrence of the terminator three bytes earlier. -/
theorem crlfcrlfAt_eq {buf : List UInt8} {i : ℕ} (hi : 3 ≤ i) (hlt : i < buf.length) :
    crlfcrlfAt buf i = some (crlfcrlf.isPrefixOf (buf.drop (i - 3))) := by
  have hlen : 4 ≤ (buf.drop (i - 3)).length := by
    rw [List.length_drop]
    omega
  unfold crlfcrlfAt
  match buf.drop (i - 3), hlen with
  | a :: b :: c :: d :: t, _ =>
    rw [crlfcrlf_eq]
    simp only [List.isPrefixOf, Bool.and_true, Option.some.injEq]
    rw [Bool.beq_comm (a := a), Bool.beq_comm (a := b), Bool.beq_comm (a := c),
      Bool.beq_comm (a := d), Bool.and_assoc, Bool.and_assoc]

/-- **The loop finds the end of the first terminator** in the bytes it looks at, and stays inside
them. -/
theorem terminatorLoop_eq {buf : List UInt8} {n i : ℕ} (hi : 3 ≤ i) (hn : i + n ≤ buf.length) :
    terminatorLoop buf n i =
      some ((crlfcrlf.firstOcc ((buf.drop (i - 3)).take (n + 3))).map (· + i + 1)) := by
  induction n generalizing i with
  | zero =>
    have hshort : ((buf.drop (i - 3)).take (0 + 3)).length < crlfcrlf.length := by
      rw [crlfcrlf_eq, List.length_take]
      simp only [List.length_cons, List.length_nil]
      omega
    rw [terminatorLoop, List.firstOcc_eq_none_iff.2 fun h ↦ absurd h.length_le (by omega)]
    rfl
  | succ n ih =>
    have hdrop : buf.drop (i - 3) = buf[i - 3] :: buf.drop (i + 1 - 3) := by
      rw [List.drop_eq_getElem_cons (by omega), show i - 3 + 1 = i + 1 - 3 by omega]
    have hocc : crlfcrlf <+: buf.drop (i - 3) ↔
        crlfcrlf <+: buf[i - 3] :: (buf.drop (i + 1 - 3)).take (n + 3) := by
      rw [← List.take_succ_cons, ← hdrop, List.prefix_take_iff]
      exact ⟨fun h ↦ ⟨h, by rw [crlfcrlf_eq]; simp⟩, fun h ↦ h.1⟩
    rw [terminatorLoop, crlfcrlfAt_eq hi (by omega), hdrop, show n + 1 + 3 = (n + 3) + 1 by omega,
      List.take_succ_cons, ← hdrop]
    -- the four bytes in front of `i + 1` are the terminator, or the scan goes on
    by_cases hp : crlfcrlf <+: buf.drop (i - 3)
    · have hb : crlfcrlf.isPrefixOf (buf.drop (i - 3)) = true := List.isPrefixOf_iff_prefix.2 hp
      rw [hb, List.firstOcc_cons_of_occ (hocc.1 hp)]
      simp
    · have hb : crlfcrlf.isPrefixOf (buf.drop (i - 3)) = false :=
        Bool.eq_false_iff.2 fun h ↦ hp <| List.isPrefixOf_iff_prefix.1 h
      rw [hb, List.firstOcc_cons_of_not (fun h ↦ hp (hocc.2 h))]
      simp only [Option.bind_eq_bind, Option.bind_some, Bool.false_eq_true, if_false,
        ih (by omega : 3 ≤ i + 1) (by omega), Option.map_map]
      refine congrArg (fun f ↦ some (Option.map f _)) (funext fun k ↦ ?_)
      simp only [Function.comp_apply]
      omega

/-- `end` of a buffer of which `len` bytes were received. -/
theorem terminatorLoop_start {buf : List UInt8} {len : ℕ} (hlen : len ≤ buf.length) :
    terminatorLoop buf (len - 3) 3 =
      some ((crlfcrlf.firstOcc (buf.take len)).map (· + 4)) := by
  rcases Nat.lt_or_ge len 3 with hlt | hge
  · have hshort : (buf.take len).length < crlfcrlf.length := by
      rw [crlfcrlf_eq, List.length_take]
      simp only [List.length_cons, List.length_nil]
      omega
    rw [show len - 3 = 0 by omega, terminatorLoop,
      List.firstOcc_eq_none_iff.2 fun h ↦ absurd h.length_le (by omega)]
    rfl
  · rw [terminatorLoop_eq le_rfl (by omega), show len - 3 + 3 = len by omega]
    rfl

/-! ### The words of the request line -/

/-- The arrays of an `http_req_t` are NUL-terminated. -/
def HttpReq.Terminated (r : HttpReq) : Prop :=
  0 ∈ r.method.bytes ∧ 0 ∈ r.path.bytes ∧ 0 ∈ r.version.bytes

theorem requestWords_eq_some {s m p v : List UInt8} :
    requestWords s = some (m, p, v) ↔
      ∃ r₁ r₂ r₃, scanWord 7 s = some (m, r₁) ∧ scanWord 1023 r₁ = some (p, r₂) ∧
        scanWord 15 r₂ = some (v, r₃) := by
  constructor
  · intro h
    unfold requestWords at h
    split at h
    · rename_i m' p' v' hmap
      simp only [Option.some.injEq, Prod.mk.injEq] at h
      obtain ⟨rfl, rfl, rfl⟩ := h
      obtain ⟨⟨us, r⟩, heq, rfl⟩ := Option.map_eq_some_iff.1 hmap
      obtain ⟨u₁, r₁, us₁, h₁, hs₁, e₁⟩ := scanWords_cons_eq_some.1 heq
      obtain ⟨u₂, r₂, us₂, h₂, hs₂, e₂⟩ := scanWords_cons_eq_some.1 hs₁
      obtain ⟨u₃, r₃, us₃, h₃, -, e₃⟩ := scanWords_cons_eq_some.1 hs₂
      rw [e₂, e₃] at e₁
      simp only [List.cons.injEq] at e₁
      obtain ⟨rfl, rfl, rfl, -⟩ := e₁
      exact ⟨r₁, r₂, r₃, h₁, h₂, h₃⟩
    · exact absurd h (by simp)
  · rintro ⟨r₁, r₂, r₃, h₁, h₂, h₃⟩
    have hscan : scanWords requestWidths s = some ([m, p, v], r₃) :=
      scanWords_cons_eq_some.2 ⟨m, r₁, [p, v], h₁, scanWords_cons_eq_some.2
        ⟨p, r₂, [v], h₂, scanWords_cons_eq_some.2 ⟨v, r₃, [], h₃, rfl, rfl⟩, rfl⟩, rfl⟩
    rw [requestWords, hscan]
    rfl

/-- A word of a string put into an array it fits in, NUL included. -/
theorem putString_word {n w : ℕ} (a : Buf n) {s u r : List UInt8} (hs : 0 ∉ s) (hw : 0 < w)
    (hn : w < n) (h : scanWord w s = some (u, r)) :
    ∃ b, a.putString u = some b ∧ cstr b.bytes = some u ∧ 0 ∈ b.bytes ∧ 0 ∉ r := by
  obtain ⟨-, hlen, -, hsub, hsuff⟩ := scanWord_spec hw h
  obtain ⟨b, hb, t, hbytes⟩ := a.putString_eq_some (by omega : u.length < n)
  refine ⟨b, hb, ?_, by rw [hbytes]; simp, fun h0 ↦ hs (hsuff.subset h0)⟩
  rw [hbytes, cstr_append_zero fun h0 ↦ hs (hsub h0)]

/-- **`sscanf` returns 3 exactly when the string has the three words**, which are then in the
arrays; and the arrays stay terminated on every exit. -/
theorem sscanfRequest_spec {buf s : List UInt8} (hs : cstr buf = some s) {out : HttpReq}
    (hout : out.Terminated) :
    ∃ n out', sscanfRequest buf out = some (n, out') ∧ out'.Terminated ∧
      (n = 3 ↔ (requestWords s).isSome) ∧
      ∀ m p v, requestWords s = some (m, p, v) → cstr out'.method.bytes = some m ∧
        cstr out'.path.bytes = some p ∧ cstr out'.version.bytes = some v := by
  have h0 := not_mem_of_cstr hs
  obtain ⟨hm, hp, hv⟩ := hout
  have hnone : ∀ {P : Prop}, (∀ m p v, requestWords s = some (m, p, v) → False) →
      (P ↔ False) → (P ↔ (requestWords s).isSome) := by
    intro P hw hP
    rw [hP, false_iff, Option.isSome_iff_exists]
    rintro ⟨⟨m, p, v⟩, h⟩
    exact hw m p v h
  unfold sscanfRequest
  rw [hs, Option.bind_eq_bind, Option.bind_some]
  -- one case for each conversion that may fail
  rcases h₁ : scanWord 7 s with - | ⟨m, r₁⟩
  · -- no method: `sscanf` is at the end of the string and returns `EOF`
    have hw : ∀ m p v, requestWords s = some (m, p, v) → False := fun m p v h ↦ by
      obtain ⟨r₁, r₂, r₃, h', -⟩ := requestWords_eq_some.1 h
      rw [h₁] at h'
      exact absurd h' (by simp)
    exact ⟨-1, out, rfl, ⟨hm, hp, hv⟩, hnone hw (by simp), fun m p v h ↦ (hw m p v h).elim⟩
  obtain ⟨method, hmput, hmstr, hm', h0₁⟩ := putString_word out.method h0 (by simp) (by simp) h₁
  simp only [hmput, Option.bind_eq_bind, Option.bind_some]
  rcases h₂ : scanWord 1023 r₁ with - | ⟨p, r₂⟩
  · -- the method is stored already, `path` and `version` are as they were
    have hw : ∀ m p v, requestWords s = some (m, p, v) → False := fun m p v h ↦ by
      obtain ⟨r₁', r₂, r₃, h', h'', -⟩ := requestWords_eq_some.1 h
      rw [h₁, Option.some.injEq, Prod.mk.injEq] at h'
      rw [← h'.2, h₂] at h''
      exact absurd h'' (by simp)
    exact ⟨1, _, rfl, ⟨hm', hp, hv⟩, hnone hw (by simp), fun m p v h ↦ (hw m p v h).elim⟩
  obtain ⟨path, hpput, hpstr, hp', h0₂⟩ := putString_word out.path h0₁ (by simp) (by simp) h₂
  simp only [hpput, Option.bind_some]
  rcases h₃ : scanWord 15 r₂ with - | ⟨v, r₃⟩
  · have hw : ∀ m p v, requestWords s = some (m, p, v) → False := fun m p v h ↦ by
      obtain ⟨r₁', r₂', r₃, h', h'', h'''⟩ := requestWords_eq_some.1 h
      rw [h₁, Option.some.injEq, Prod.mk.injEq] at h'
      rw [← h'.2, h₂, Option.some.injEq, Prod.mk.injEq] at h''
      rw [← h''.2, h₃] at h'''
      exact absurd h''' (by simp)
    exact ⟨2, _, rfl, ⟨hm', hp', hv⟩, hnone hw (by simp), fun m p v h ↦ (hw m p v h).elim⟩
  -- all three conversions match
  obtain ⟨version, hvput, hvstr, hv', -⟩ := putString_word out.version h0₂ (by simp) (by simp) h₃
  have hwords : requestWords s = some (m, p, v) := requestWords_eq_some.2 ⟨r₁, r₂, r₃, h₁, h₂, h₃⟩
  simp only [hvput, Option.bind_some]
  refine ⟨3, _, rfl, ⟨hm', hp', hv'⟩, by simp [hwords], fun m' p' v' h ↦ ?_⟩
  rw [hwords, Option.some.injEq, Prod.mk.injEq, Prod.mk.injEq] at h
  obtain ⟨rfl, rfl, rfl⟩ := h
  exact ⟨hmstr, hpstr, hvstr⟩

/-! ### The header loop stays in the block -/

/-- No letter of the literals of the header loop is a line feed. -/
theorem toLower_lf_ne {lit : String} (h : ∀ c ∈ ascii lit, toLower c ≠ 10) :
    ∀ c ∈ ascii lit, toLower 10 ≠ toLower c :=
  fun c hc ↦ (h c hc).symm

/-- **A header test is decided by the line it looks at**: a line feed at or after `p` stops every
scan. -/
theorem connectionField_append {b : List UInt8} {p : ℕ} (hlf : 10 ∈ b.drop p) (ka : Bool) :
    ∃ r, ∀ t, connectionField (b ++ t) p ka = some r := by
  have hp : p ≤ b.length := by
    by_contra hgt
    rw [List.drop_eq_nil_of_le (by omega)] at hlf
    exact absurd hlf List.not_mem_nil
  have hname := toLower_lf_ne (show ∀ c ∈ ascii "Connection:", toLower c ≠ 10 by decide +kernel)
  have hclose := toLower_lf_ne (show ∀ c ∈ ascii "close", toLower c ≠ 10 by decide +kernel)
  have hkeep := toLower_lf_ne (show ∀ c ∈ ascii "keep-alive", toLower c ≠ 10 by decide +kernel)
  obtain ⟨r₁, hr₁⟩ := matchesNoCase_append hlf hname
  rcases r₁ with - | -
  · refine ⟨ka, fun t ↦ ?_⟩
    rw [connectionField, List.drop_append_of_le_length hp, hr₁]
    rfl
  · -- the name has no line feed, so the one that stops the scans is behind it
    have hlf' : 10 ∈ b.drop (p + 11) := by
      have := mem_drop_of_matchesNoCase hlf hname (by simpa using hr₁ [])
      rwa [List.drop_drop] at this
    have hp' : p + 11 ≤ b.length := by
      by_contra hgt
      rw [List.drop_eq_nil_of_le (by omega)] at hlf'
      exact absurd hlf' List.not_mem_nil
    obtain ⟨v, hv, hskip⟩ := skipBlanks_append hlf' (by decide)
    obtain ⟨r₂, hr₂⟩ := matchesNoCase_append hv hclose
    obtain ⟨r₃, hr₃⟩ := matchesNoCase_append hv hkeep
    refine ⟨if r₃ then true else if r₂ then false else ka, fun t ↦ ?_⟩
    rw [connectionField, List.drop_append_of_le_length hp, hr₁,
      List.drop_append_of_le_length hp', hskip]
    simp only [Option.bind_eq_bind, Option.bind_some, if_true, hr₂, hr₃]
    cases r₃ <;> rfl

/-- The header loop of a block whose last byte is a line feed. -/
theorem headerLoop_append {b : List UInt8} (hlf : ∀ p < b.length, 10 ∈ b.drop p) :
    ∀ (k : ℕ), k ≤ b.length → ∀ ka, ∃ r, ∀ t, headerLoop (b ++ t) b.length k ka = some r
  | 0, _, ka => ⟨ka, fun _ ↦ rfl⟩
  | 1, _, ka => ⟨ka, fun _ ↦ rfl⟩
  | k + 2, hk, ka => by
    rcases Nat.eq_zero_or_pos k with rfl | hpos
    · exact ⟨ka, fun _ ↦ rfl⟩
    · obtain ⟨ka', hka'⟩ := connectionField_append (hlf (b.length - k) (by omega)) ka
      obtain ⟨r, hr⟩ := headerLoop_append hlf k (by omega) ka'
      refine ⟨r, fun t ↦ ?_⟩
      rw [headerLoop, if_neg (by omega), hka', Option.bind_eq_bind, Option.bind_some, hr]

/-- A block: its first terminator is at its end. -/
def IsBlock (b : List UInt8) : Prop := crlfcrlf.firstOcc b = some (b.length - 4)

instance (b : List UInt8) : Decidable (IsBlock b) :=
  inferInstanceAs (Decidable (crlfcrlf.firstOcc b = some (b.length - 4)))

theorem length_crlfcrlf : crlfcrlf.length = 4 := by decide

/-- A block ends in the terminator. -/
theorem IsBlock.exists_eq_append {b : List UInt8} (hb : IsBlock b) : ∃ u, b = u ++ crlfcrlf := by
  have hfit := List.firstOcc_add_length_le hb
  rw [length_crlfcrlf] at hfit
  obtain ⟨-, hocc, -⟩ := List.firstOcc_eq_some_iff.1 hb
  have hlen : (b.drop (b.length - 4)).length = crlfcrlf.length := by
    rw [List.length_drop, length_crlfcrlf]
    omega
  refine ⟨b.take (b.length - 4), ?_⟩
  rw [hocc.eq_of_length hlen.symm, List.take_append_drop]

theorem IsBlock.four_le_length {b : List UInt8} (hb : IsBlock b) : 4 ≤ b.length := by
  obtain ⟨u, rfl⟩ := hb.exists_eq_append
  rw [List.length_append, length_crlfcrlf]
  omega

theorem IsBlock.lf_mem_drop {b : List UInt8} (hb : IsBlock b) {p : ℕ} (hp : p < b.length) :
    10 ∈ b.drop p := by
  obtain ⟨u, rfl⟩ := hb.exists_eq_append
  have hne : (u ++ crlfcrlf).drop p ≠ [] := fun h ↦ by
    rw [List.drop_eq_nil_iff] at h
    omega
  have hlast : ((u ++ crlfcrlf).drop p).getLast hne = 10 := by
    rw [(List.drop_suffix p (u ++ crlfcrlf)).getLast hne]
    simp [crlfcrlf_eq]
  exact hlast ▸ List.getLast_mem hne

theorem IsBlock.crlf_infix {b : List UInt8} (hb : IsBlock b) : crlf <:+: b := by
  obtain ⟨u, rfl⟩ := hb.exists_eq_append
  have hcrlf : crlf <:+: crlfcrlf := by decide
  exact hcrlf.trans (List.suffix_append u crlfcrlf).isInfix

/-- **The headers of a block do not depend on what follows it.** -/
theorem scanHeaders_append {b : List UInt8} (hb : IsBlock b) (ka : Bool) :
    ∃ r, ∀ t, 0 ∈ b ++ t → scanHeaders (b ++ t) b.length ka = some r := by
  -- the first line ends in the block, or a NUL of the block comes before
  obtain ⟨q, hq⟩ : ∃ q : Option ℕ, ∀ t, 0 ∈ b ++ t → strstr (b ++ t) crlf = some q := by
    by_cases h0 : 0 ∈ b
    · obtain ⟨s, hs⟩ := exists_cstr h0
      exact ⟨crlf.firstOcc s, fun t _ ↦ by rw [strstr, cstr_append_of_mem h0, hs]; rfl⟩
    · obtain ⟨q, hq⟩ := Option.isSome_iff_exists.1 (List.isSome_firstOcc_iff.2 hb.crlf_infix)
      refine ⟨some q, fun t ht ↦ ?_⟩
      obtain ⟨s, hs⟩ := exists_cstr ((List.mem_append.1 ht).resolve_left h0)
      rw [strstr, cstr_append_of_not_mem h0, hs]
      simp only [Option.map_some, List.firstOcc_append hq]
  rcases q with - | p
  · exact ⟨ka, fun t ht ↦ by rw [scanHeaders, hq t ht]; rfl⟩
  · obtain ⟨r, hr⟩ := headerLoop_append (fun p hp ↦ hb.lf_mem_drop hp) (b.length - p) (by omega) ka
    refine ⟨r, fun t ht ↦ ?_⟩
    rw [scanHeaders, hq t ht, Option.bind_eq_bind, Option.bind_some]
    exact hr t

end ForgeServer
