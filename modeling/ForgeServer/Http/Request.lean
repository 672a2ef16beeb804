import ForgeServer.Http.Parser

/-!
# The request a buffer holds

`requestOf buf len` is the request in a buffer of which `len` bytes were received, as a pure
function. `httpTryParseRequest_spec` says that the code computes it, and stays inside the array, on
every buffer that holds a NUL.

**Locality.** Past the first terminator nothing is read but the words of `sscanf`
(`exists_requestOf_block`). So a request is determined by the received bytes as soon as the words
are (`WordsDecided`, `requestOf_congr`), and a block accepted on its own is accepted, as the same
request, whatever follows it (`requestOf_append`).
-/

namespace ForgeServer

open CStr

/-- The request in a buffer of which `len` bytes were received. -/
def requestOf (buf : List UInt8) (len : ℕ) : Option Request := do
  let i ← crlfcrlf.firstOcc (buf.take len)
  let s ← cstr buf
  let (m, p, v) ← requestWords s
  let ka ← scanHeaders buf (i + 4) (v == ascii "HTTP/1.1")
  pure ⟨m, p, v, ka, i + 4⟩

/-! ### Blocks in a buffer -/

/-- The bytes up to the first terminator, that included, are a block. -/
theorem isBlock_take {s : List UInt8} {i : ℕ} (h : crlfcrlf.firstOcc s = some i) :
    IsBlock (s.take (i + 4)) ∧ (s.take (i + 4)).length = i + 4 := by
  have hfit := List.firstOcc_add_length_le h
  rw [length_crlfcrlf] at hfit
  have hlen : (s.take (i + 4)).length = i + 4 := by
    rw [List.length_take]
    omega
  refine ⟨?_, hlen⟩
  rw [IsBlock, hlen, Nat.add_sub_cancel]
  exact List.firstOcc_take h (by rw [length_crlfcrlf])

/-- Received bytes with a terminator are a block and what came behind it. -/
theorem exists_block {s : List UInt8} (h : crlfcrlf <:+: s) :
    ∃ b u, s = b ++ u ∧ IsBlock b := by
  obtain ⟨i, hi⟩ := Option.isSome_iff_exists.1 (List.isSome_firstOcc_iff.2 h)
  exact ⟨s.take (i + 4), s.drop (i + 4), (List.take_append_drop _ _).symm, (isBlock_take hi).1⟩

/-- **In a buffer that starts with a block only the words are read past it.** -/
theorem exists_requestOf_block {b : List UInt8} (hb : IsBlock b) :
    ∃ ka : List UInt8 → Bool, ∀ t len, 0 ∈ b ++ t → b.length ≤ len →
      requestOf (b ++ t) len = ((cstr (b ++ t)).bind requestWords).map fun w ↦
        ⟨w.1, w.2.1, w.2.2, ka w.2.2, b.length⟩ := by
  choose ka hka using fun v : List UInt8 ↦ scanHeaders_append hb (v == ascii "HTTP/1.1")
  refine ⟨ka, fun t len h0 hlen ↦ ?_⟩
  have hfirst : crlfcrlf.firstOcc ((b ++ t).take len) = some (b.length - 4) := by
    rw [List.take_append, List.take_of_length_le hlen]
    exact List.firstOcc_append hb _
  have h4 : b.length - 4 + 4 = b.length := by
    have := hb.four_le_length
    omega
  rw [requestOf, hfirst]
  obtain ⟨s, hs⟩ := exists_cstr h0
  simp only [hs, Option.bind_eq_bind, Option.bind_some, h4]
  rcases hw : requestWords s with - | ⟨m, p, v⟩
  · rfl
  · simp only [Option.bind_some, hka v t h0, Option.map_some]
    rfl

theorem requestOf_of_not_mem {buf : List UInt8} {len : ℕ} (h : ¬ crlfcrlf <:+: buf.take len) :
    requestOf buf len = none := by
  rw [requestOf, List.firstOcc_eq_none_iff.2 h]
  rfl

/-- With a terminator in the received bytes, a request is missing exactly when the words are. -/
theorem isSome_requestOf_iff {buf : List UInt8} {len : ℕ} (hlen : len ≤ buf.length) (h0 : 0 ∈ buf)
    (hend : crlfcrlf <:+: buf.take len) :
    (requestOf buf len).isSome ↔ ((cstr buf).bind requestWords).isSome := by
  obtain ⟨b, u, hbu, hb⟩ := exists_block hend
  have hbuf : buf = b ++ (u ++ buf.drop len) := by
    rw [← List.append_assoc, ← hbu, List.take_append_drop]
  have hble : b.length ≤ len := by
    have := congrArg List.length hbu
    rw [List.length_take, List.length_append] at this
    omega
  obtain ⟨ka, hka⟩ := exists_requestOf_block hb
  rw [hbuf] at h0 ⊢
  rw [hka _ _ h0 hble, Option.isSome_map]

/-! ### The code computes it -/

theorem terminated_putString {n : ℕ} (a : Buf n) (hn : 0 < n) :
    ∃ b, a.putString [] = some b ∧ 0 ∈ b.bytes := by
  obtain ⟨b, hb, t, hbytes⟩ := a.putString_eq_some (show ([] : List UInt8).length < n from hn)
  exact ⟨b, hb, by rw [hbytes]; simp⟩

/-- **The parser computes `requestOf`**: on a buffer that holds a NUL no access leaves the array;
`true` is returned exactly when there is a request, which `*out` then holds; and once the terminator
is found the arrays of `*out` are NUL-terminated, whatever is returned. -/
theorem httpTryParseRequest_spec {buf : List UInt8} {len : ℕ} (hlen : len ≤ buf.length)
    (h0 : 0 ∈ buf) (out : HttpReq) :
    ∃ out', httpTryParseRequest buf len out = some ((requestOf buf len).isSome, out') ∧
      (∀ r, requestOf buf len = some r → out'.request = some r) ∧
      (crlfcrlf <:+: buf.take len → out'.Terminated) := by
  by_cases hend : crlfcrlf <:+: buf.take len
  · obtain ⟨i, hi⟩ := Option.isSome_iff_exists.1 (List.isSome_firstOcc_iff.2 hend)
    obtain ⟨s, hs⟩ := exists_cstr h0
    obtain ⟨method, hmethod, hm⟩ := terminated_putString out.method (by simp)
    obtain ⟨path, hpath, hp⟩ := terminated_putString out.path (by simp)
    obtain ⟨version, hversion, hv⟩ := terminated_putString out.version (by simp)
    have hclear : HttpReq.Terminated
        { out with method := method, path := path, version := version } := ⟨hm, hp, hv⟩
    obtain ⟨n, out', hscan, hout', hn, hwords⟩ := sscanfRequest_spec hs hclear
    -- the header scan stays in the block in front of the buffer
    have hheaders : ∀ ka, ∃ r, scanHeaders buf (i + 4) ka = some r := by
      intro ka
      obtain ⟨hb, hblen⟩ := isBlock_take hi
      obtain ⟨r, hr⟩ := scanHeaders_append hb ka
      have hbuf : buf = (buf.take len).take (i + 4) ++ buf.drop (i + 4) := by
        rw [List.take_take, min_eq_left, List.take_append_drop]
        have := hblen ▸ List.length_take_le' (i + 4) (buf.take len)
        rw [List.length_take] at this
        omega
      refine ⟨r, ?_⟩
      have := hr (buf.drop (i + 4)) (hbuf ▸ h0)
      rwa [← hbuf, hblen] at this
    unfold httpTryParseRequest
    rw [terminatorLoop_start hlen, hi]
    simp only [Option.map_some, Option.bind_eq_bind, Option.bind_some, hmethod, hpath, hversion,
      hscan]
    rcases hw : requestWords s with - | ⟨m, p, v⟩
    · have hne : n ≠ 3 := fun h ↦ by
        have := hn.1 h
        simp [hw] at this
      have hnone : requestOf buf len = none := by
        simp only [requestOf, hi, hs, hw, Option.bind_eq_bind, Option.bind_some, Option.bind_none]
      refine ⟨out', by rw [if_pos hne, hnone]; rfl, fun r hr ↦ ?_, fun _ ↦ hout'⟩
      rw [hnone] at hr
      exact absurd hr (by simp)
    · obtain ⟨hm', hp', hv'⟩ := hwords m p v hw
      obtain ⟨ka, hka⟩ := hheaders (v == ascii "HTTP/1.1")
      have hsome : requestOf buf len = some ⟨m, p, v, ka, i + 4⟩ := by
        simp only [requestOf, hi, hs, hw, hka, Option.bind_eq_bind, Option.bind_some]
        rfl
      refine ⟨{ out' with keepAlive := ka, headerBytes := i + 4 }, ?_, fun r hr ↦ ?_, fun _ ↦ hout'⟩
      · rw [if_neg (by simp [hn, hw]), hv', hsome]
        simp only [Option.bind_some, hka]
        rfl
      · rw [hsome, Option.some.injEq] at hr
        simp only [HttpReq.request, hm', hp', hv', Option.bind_eq_bind, Option.bind_some, ← hr]
        rfl
  · refine ⟨out, ?_, fun r hr ↦ ?_, fun h ↦ absurd h hend⟩
    · unfold httpTryParseRequest
      rw [terminatorLoop_start hlen, List.firstOcc_eq_none_iff.2 hend, requestOf_of_not_mem hend]
      rfl
    · rw [requestOf_of_not_mem hend] at hr
      exact absurd hr (by simp)

/-- Buffers on which the parser returns `true`, whatever `*out` held, with the same request. -/
theorem requestOf_of_accepts {buf : List UInt8} {len : ℕ} {r : Request} (hlen : len ≤ buf.length)
    (h0 : 0 ∈ buf) (h : ∀ out, ∃ req, httpTryParseRequest buf len out = some (true, req) ∧
      req.request = some r) : requestOf buf len = some r := by
  let out : HttpReq := ⟨Buf.zeros 8, Buf.zeros 1024, Buf.zeros 16, false, 0⟩
  obtain ⟨req, hparse, hreq⟩ := h out
  obtain ⟨req', hparse', hreq', -⟩ := httpTryParseRequest_spec hlen h0 out
  rw [hparse, Option.some.injEq, Prod.mk.injEq] at hparse'
  obtain ⟨hok, rfl⟩ := hparse'
  obtain ⟨r', hr'⟩ := Option.isSome_iff_exists.1 hok.symm
  rw [hr', ← hreq' r' hr', hreq]

/-! ### What a request says -/

/-- The parts of a request: words of the string at `buf`, and a header block inside the received
bytes. -/
theorem requestOf_spec {buf : List UInt8} {len : ℕ} {r : Request} (h : requestOf buf len = some r) :
    4 ≤ r.headerBytes ∧ r.headerBytes ≤ len ∧
      ∃ s, cstr buf = some s ∧ requestWords s = some (r.method, r.path, r.version) := by
  unfold requestOf at h
  simp only [Option.bind_eq_bind, Option.bind_eq_some_iff, Prod.exists] at h
  obtain ⟨i, hi, s, hs, m, p, v, hw, ka, -, hr⟩ := h
  have hfit := List.firstOcc_add_length_le hi
  rw [length_crlfcrlf, List.length_take] at hfit
  obtain rfl := Option.some.inj hr
  exact ⟨Nat.le_add_left 4 i, by simp only; omega, s, hs, hw⟩

/-! ### Locality -/

/-- `sscanf` is decided inside the bytes `r`: they hold a NUL, or all three words and the end of the
last one. -/
def WordsDecided (r : List UInt8) : Prop := 0 ∈ r ∨ ScanEnds requestWidths r

instance (r : List UInt8) : Decidable (WordsDecided r) :=
  inferInstanceAs (Decidable (0 ∈ r ∨ ScanEnds requestWidths r))

/-- **Decided words do not depend on what follows.** -/
theorem WordsDecided.words_congr {r : List UInt8} (h : WordsDecided r) {t t' : List UInt8}
    (ht : 0 ∈ r ++ t) (ht' : 0 ∈ r ++ t') :
    (cstr (r ++ t)).bind requestWords = (cstr (r ++ t')).bind requestWords := by
  by_cases h0 : 0 ∈ r
  · rw [cstr_append_of_mem h0, cstr_append_of_mem h0]
  · obtain ⟨us, rest, hscan, hend⟩ := h.resolve_left h0
    have hone : ∀ t, 0 ∈ r ++ t →
        (cstr (r ++ t)).bind requestWords = requestWords r := by
      intro t ht
      obtain ⟨s, hs⟩ := exists_cstr ((List.mem_append.1 ht).resolve_left h0)
      rw [cstr_append_of_not_mem h0, hs]
      simp only [Option.map_some, Option.bind_some, requestWords, hscan,
        scanWords_append hscan hend]
    rw [hone t ht, hone t' ht']

/-- **The received bytes determine the request** once they decide the words. -/
theorem requestOf_congr {r : List UInt8} (h : WordsDecided r ∨ ¬ crlfcrlf <:+: r)
    {t t' : List UInt8} (ht : 0 ∈ r ++ t) (ht' : 0 ∈ r ++ t') :
    requestOf (r ++ t) r.length = requestOf (r ++ t') r.length := by
  by_cases hend : crlfcrlf <:+: r
  · obtain ⟨b, u, rfl, hb⟩ := exists_block hend
    obtain ⟨ka, hka⟩ := exists_requestOf_block hb
    have hwords := (h.resolve_right (not_not.2 hend)).words_congr ht ht'
    rw [List.append_assoc] at ht ht' hwords ⊢
    rw [List.append_assoc] at hwords ⊢
    rw [hka _ _ ht (by simp), hka _ _ ht' (by simp), hwords]
  · rw [requestOf_of_not_mem (by simpa using hend), requestOf_of_not_mem (by simpa using hend)]

/-- The words of `sscanf` are those of its three conversions. -/
theorem words_requestWords (s : List UInt8) :
    (scanWords requestWidths s).map Prod.fst =
      (requestWords s).map fun w ↦ [w.1, w.2.1, w.2.2] := by
  unfold requestWords
  rcases hscan : scanWords requestWidths s with - | ⟨us, r⟩
  · rfl
  · match us, length_scanWords hscan with
    | [m, p, v], _ => rfl

/-- **Words that are not decided are others** if a buffer goes on with letters. -/
theorem requestOf_ne {r : List UInt8} (hend : crlfcrlf <:+: r) (h : ¬ WordsDecided r)
    {t : List UInt8} (ht : 0 ∈ t) (t' : List UInt8) :
    requestOf (r ++ (letters 3 ++ t)) r.length ≠ requestOf (r ++ 0 :: t') r.length := by
  obtain ⟨h0, hscan⟩ := not_or.1 h
  obtain ⟨s, hs⟩ := exists_cstr ht
  have hletters : 0 ∉ letters 3 := by decide
  have hcstr : cstr (r ++ (letters 3 ++ t)) = some (r ++ (letters 3 ++ s)) := by
    rw [cstr_append_of_not_mem h0, cstr_append_of_not_mem hletters, hs]
    rfl
  have hcstr' : cstr (r ++ 0 :: t') = some r := cstr_append_zero h0 t'
  have hwords : requestWords (r ++ (letters 3 ++ s)) ≠ requestWords r := by
    intro heq
    have hne := scanWords_letters_ne (show ∀ w ∈ requestWidths, 0 < w by decide)
      (show requestWidths.length ≤ 3 from le_rfl) hscan s
    rw [words_requestWords, words_requestWords, heq] at hne
    exact hne rfl
  -- both buffers start with the same block, so the words are all that can differ
  obtain ⟨b, u, rfl, hb⟩ := exists_block hend
  obtain ⟨ka, hka⟩ := exists_requestOf_block hb
  intro heq
  have hmem : 0 ∈ b ++ (u ++ (letters 3 ++ t)) := by simp [ht]
  rw [List.append_assoc] at hcstr hcstr'
  rw [List.append_assoc, List.append_assoc, hka _ _ hmem (by simp), hka _ _ (by simp) (by simp),
    hcstr, hcstr', Option.bind_some, Option.bind_some] at heq
  refine hwords (Option.map_injective ?_ heq)
  rintro ⟨m, p, v⟩ ⟨m', p', v'⟩ hreq
  obtain ⟨rfl, rfl, rfl, -⟩ := Request.mk.inj hreq
  rfl

/-- A block with three words decides them: its last byte is white space. -/
theorem IsBlock.wordsDecided {b : List UInt8} (hb : IsBlock b) {r : Request}
    (h : requestOf (b ++ [0]) b.length = some r) : WordsDecided b := by
  by_cases h0 : 0 ∈ b
  · exact Or.inl h0
  · obtain ⟨-, -, s, hs, hw⟩ := requestOf_spec h
    rw [cstr_append_zero h0, Option.some.injEq] at hs
    subst hs
    obtain ⟨r₁, r₂, r₃, h₁, h₂, h₃⟩ := requestWords_eq_some.1 hw
    have hscan : scanWords requestWidths b = some ([r.method, r.path, r.version], r₃) :=
      scanWords_cons_eq_some.2 ⟨_, r₁, _, h₁, scanWords_cons_eq_some.2
        ⟨_, r₂, _, h₂, scanWords_cons_eq_some.2 ⟨_, r₃, [], h₃, rfl, rfl⟩, rfl⟩, rfl⟩
    obtain ⟨u, rfl⟩ := hb.exists_eq_append
    have hlast : u ++ crlfcrlf = (u ++ [13, 10, 13]) ++ [10] := by simp [crlfcrlf_eq]
    refine Or.inr ⟨_, r₃, hscan, Or.inl ?_⟩
    rw [hlast] at hscan
    exact ne_nil_of_scanWords (by decide) (by decide) hscan

/-- **A block accepted on its own is accepted, as the same request, whatever follows it** in the
received bytes or in memory. -/
theorem requestOf_append {b : List UInt8} (hb : IsBlock b) {r : Request}
    (h : requestOf (b ++ [0]) b.length = some r) {t : List UInt8} {len : ℕ} (ht : 0 ∈ b ++ t)
    (hlen : b.length ≤ len) : requestOf (b ++ t) len = some r := by
  obtain ⟨ka, hka⟩ := exists_requestOf_block hb
  have h0 : 0 ∈ b ++ [0] := by simp
  rw [hka t len ht hlen, (hb.wordsDecided h).words_congr ht h0, ← hka [0] b.length h0 le_rfl, h]

/-- The header of a request that starts with a block is the block. -/
theorem headerBytes_of_block {b t : List UInt8} (hb : IsBlock b) {len : ℕ} (ht : 0 ∈ b ++ t)
    (hlen : b.length ≤ len) {r : Request} (h : requestOf (b ++ t) len = some r) :
    r.headerBytes = b.length := by
  obtain ⟨ka, hka⟩ := exists_requestOf_block hb
  rw [hka t len ht hlen, Option.map_eq_some_iff] at h
  obtain ⟨w, -, rfl⟩ := h
  rfl

/-- A terminator that is found is found with more bytes to look at. -/
theorem terminatorLoop_mono {buf : List UInt8} {n i j : ℕ}
    (h : terminatorLoop buf n i = some (some j)) (m : ℕ) :
    terminatorLoop buf (n + m) i = some (some j) := by
  induction n generalizing i with
  | zero => exact absurd h (by simp [terminatorLoop])
  | succ n ih =>
    rw [Nat.add_right_comm, terminatorLoop]
    rw [terminatorLoop] at h
    rcases htest : crlfcrlfAt buf i with - | - | - <;> rw [htest] at h
    · exact absurd h (by simp)
    · exact ih h
    · exact h

/-- **In a buffer that starts with a block the received bytes behind it are not looked at.** -/
theorem httpTryParseRequest_block {b t : List UInt8} (hb : IsBlock b) {len : ℕ}
    (hlen : b.length ≤ len) (out : HttpReq) :
    httpTryParseRequest (b ++ t) len out = httpTryParseRequest (b ++ t) b.length out := by
  have h4 := hb.four_le_length
  have hfound : terminatorLoop (b ++ t) (b.length - 3) 3 = some (some (b.length - 4 + 4)) := by
    rw [terminatorLoop_start (by simp), List.take_left, show crlfcrlf.firstOcc b = _ from hb]
    rfl
  have hmore := terminatorLoop_mono hfound (len - b.length)
  rw [show b.length - 3 + (len - b.length) = len - 3 by omega] at hmore
  unfold httpTryParseRequest
  rw [hfound, hmore]

/-- **What is accepted is unaffected by what follows it.** A block that is accepted in front of a
NUL is accepted, as the same request, in front of any bytes of a string, however many of these were
received. -/
theorem accepted_whatever_follows {b : List UInt8} (hb : IsBlock b) {out₀ req₀ : HttpReq}
    (h : httpTryParseRequest (b ++ [0]) b.length out₀ = some (true, req₀)) (t : List UInt8)
    (ht : 0 ∈ b ++ t) (len : ℕ) (hlen : b.length ≤ len) (out : HttpReq) :
    ∃ req r, httpTryParseRequest (b ++ t) len out = some (true, req) ∧ req.request = some r ∧
      req₀.request = some r ∧ r.headerBytes = b.length := by
  have h0 : 0 ∈ b ++ [0] := by simp
  have hle : ∀ u : List UInt8, b.length ≤ (b ++ u).length := fun u ↦ by simp
  obtain ⟨req₁, hparse₁, hreq₁, -⟩ := httpTryParseRequest_spec (hle [0]) h0 out₀
  rw [h, Option.some.injEq, Prod.mk.injEq] at hparse₁
  obtain ⟨hok, rfl⟩ := hparse₁
  obtain ⟨r, hr⟩ := Option.isSome_iff_exists.1 hok.symm
  have hr' : requestOf (b ++ t) b.length = some r := requestOf_append hb hr ht le_rfl
  obtain ⟨req, hparse, hreq, -⟩ := httpTryParseRequest_spec (hle t) ht out
  rw [hr'] at hparse
  exact ⟨req, r, by rw [httpTryParseRequest_block hb hlen, hparse]; rfl, hreq r hr', hreq₁ r hr,
    headerBytes_of_block hb h0 le_rfl hr⟩

/-- A request in front of a second one, of which a part was received. -/
theorem accepted_whatever_follows_get :
    ∃ req r, httpTryParseRequest
        (ascii "GET / HTTP/1.1\r\n\r\n" ++ ascii "GET /b HTTP/1.1\r\n" ++ [0])
        20 ⟨.zeros 8, .zeros 1024, .zeros 16, false, 0⟩ = some (true, req) ∧
      req.request = some r ∧ r.headerBytes = 18 := by
  have hsome : ((httpTryParseRequest (ascii "GET / HTTP/1.1\r\n\r\n" ++ [0]) 18
      ⟨.zeros 8, .zeros 1024, .zeros 16, false, 0⟩).map Prod.fst) = some true := by decide +kernel
  obtain ⟨⟨ok, req₀⟩, hparse, rfl⟩ := Option.map_eq_some_iff.1 hsome
  obtain ⟨req, r, hreq, hr, -, hlen⟩ := accepted_whatever_follows (by decide) hparse
    (ascii "GET /b HTTP/1.1\r\n" ++ [0]) (by simp) 20 (by decide)
    ⟨.zeros 8, .zeros 1024, .zeros 16, false, 0⟩
  exact ⟨req, r, by rw [List.append_assoc]; exact hreq, hr, hlen⟩

end ForgeServer
