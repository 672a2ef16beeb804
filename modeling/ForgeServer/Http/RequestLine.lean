import ForgeServer.Http.Request

/-!
# The request line

What the words of `sscanf` have to do with the first line of the buffer. White space of `sscanf`
includes the line break, a word that is too long goes on in the next conversion, and a NUL ends the
text; so an accepted request has the three words of its first line exactly when these are short
enough and the line holds no NUL (`request_line_iff`).
-/

namespace ForgeServer

open CStr

/-! ### Three words on a line -/

/-- A word: not empty, and no white space in it. -/
def IsWord (u : List UInt8) : Prop := u ≠ [] ∧ ∀ b ∈ u, isSpace b = false

/-- What separates two words of a line: spaces and tabs, at least one. -/
def IsGap (s : List UInt8) : Prop := s ≠ [] ∧ ∀ b ∈ s, isBlank b = true

/-- **A line of three words**, and nothing else on it. -/
structure IsRequestLine (line m p v : List UInt8) : Prop where
  method : IsWord m
  path : IsWord p
  version : IsWord v
  eq : ∃ s₁ s₂, IsGap s₁ ∧ IsGap s₂ ∧ line = m ++ s₁ ++ p ++ s₂ ++ v

/-- The line from the start of the buffer up to its first CRLF consists of the words `m`, `p`
and `v`. -/
def FirstLine (buf m p v : List UInt8) : Prop :=
  ∃ i, crlf.firstOcc buf = some i ∧ IsRequestLine (buf.take i) m p v

theorem isSpace_of_isBlank {b : UInt8} (h : isBlank b = true) : isSpace b = true := by
  simp only [isBlank, Bool.or_eq_true, beq_iff_eq] at h
  rcases h with rfl | rfl <;> decide

/-! ### Scanning a word that is there -/

/-- A word that fits is taken whole. -/
theorem takeWord_word {u t : List UInt8} {x : UInt8} {w : ℕ} (hu : ∀ b ∈ u, isSpace b = false)
    (hw : u.length ≤ w) (hx : isSpace x = true) :
    takeWord w (u ++ x :: t) = (u, x :: t) := by
  induction u generalizing w with
  | nil =>
    cases w with
    | zero => rfl
    | succ w => rw [List.nil_append, takeWord, if_pos hx]
  | cons b u ih =>
    obtain ⟨hb, hu⟩ := List.forall_mem_cons.1 hu
    cases w with
    | zero => exact absurd hw (by simp)
    | succ w =>
      rw [List.cons_append, takeWord, if_neg (by rw [hb]; simp), ih hu (Nat.le_of_succ_le_succ hw)]

/-- **A conversion finds a word that fits**, with white space in front of it and behind it. -/
theorem scanWord_word {s u t : List UInt8} {x : UInt8} {w : ℕ} (hs : ∀ b ∈ s, isSpace b = true)
    (hu : IsWord u) (hw : u.length ≤ w) (hx : isSpace x = true) :
    scanWord w (s ++ (u ++ x :: t)) = some (u, x :: t) := by
  obtain ⟨hne, hu⟩ := hu
  obtain ⟨b, u', rfl⟩ := List.exists_cons_of_ne_nil hne
  have hb : isSpace b = false := hu b List.mem_cons_self
  have hskip : (s ++ (b :: u' ++ x :: t)).dropWhile isSpace = b :: (u' ++ x :: t) := by
    rw [List.dropWhile_append_of_pos hs, List.cons_append,
      List.dropWhile_cons_of_neg (by simp [hb])]
  rw [scanWord, hskip]
  exact congrArg some (takeWord_word hu hw hx)

/-- **The words of a line** are found in any string it starts, if they fit. -/
theorem requestWords_line {line m p v t : List UInt8} {x : UInt8} (h : IsRequestLine line m p v)
    (hm : m.length ≤ 7) (hp : p.length ≤ 1023) (hv : v.length ≤ 15) (hx : isSpace x = true) :
    requestWords (line ++ x :: t) = some (m, p, v) := by
  obtain ⟨s₁, s₂, ⟨hne₁, hs₁⟩, ⟨hne₂, hs₂⟩, rfl⟩ := h.eq
  obtain ⟨y, s₁, rfl⟩ := List.exists_cons_of_ne_nil hne₁
  obtain ⟨z, s₂, rfl⟩ := List.exists_cons_of_ne_nil hne₂
  have hspace₁ : ∀ b ∈ y :: s₁, isSpace b = true := fun b hb ↦ isSpace_of_isBlank (hs₁ b hb)
  have hspace₂ : ∀ b ∈ z :: s₂, isSpace b = true := fun b hb ↦ isSpace_of_isBlank (hs₂ b hb)
  have h₁ := scanWord_word (s := []) (t := s₁ ++ (p ++ z :: (s₂ ++ (v ++ x :: t))))
    (fun _ h ↦ absurd h List.not_mem_nil) h.method hm (hspace₁ y List.mem_cons_self)
  have h₂ := scanWord_word (t := s₂ ++ (v ++ x :: t)) hspace₁ h.path hp
    (hspace₂ z List.mem_cons_self)
  have h₃ := scanWord_word (t := t) hspace₂ h.version hv hx
  refine requestWords_eq_some.2 ⟨_, _, _, ?_, h₂, h₃⟩
  simpa using h₁

/-- The words `sscanf` finds are short enough for their arrays and made of bytes of the string. -/
theorem requestWords_spec {s m p v : List UInt8} (h : requestWords s = some (m, p, v)) :
    (m.length ≤ 7 ∧ m ⊆ s) ∧ (p.length ≤ 1023 ∧ p ⊆ s) ∧ v.length ≤ 15 ∧ v ⊆ s := by
  obtain ⟨r₁, r₂, r₃, h₁, h₂, h₃⟩ := requestWords_eq_some.1 h
  obtain ⟨-, hm, -, hms, hr₁⟩ := scanWord_spec (by omega) h₁
  obtain ⟨-, hp, -, hps, hr₂⟩ := scanWord_spec (by omega) h₂
  obtain ⟨-, hv, -, hvs, -⟩ := scanWord_spec (by omega) h₃
  exact ⟨⟨hm, hms⟩, ⟨hp, List.Subset.trans hps hr₁.subset⟩, hv,
    List.Subset.trans hvs (hr₂.trans hr₁).subset⟩

/-! ### What is accepted -/

/-- The words of an accepted request are those of the string at `buf`. -/
theorem words_of_accepted {buf : List UInt8} {len : ℕ} {out req : HttpReq}
    (h : httpTryParseRequest buf len out = some (true, req)) :
    ∃ r s, req.request = some r ∧ cstr buf = some s ∧
      requestWords s = some (r.method, r.path, r.version) := by
  unfold httpTryParseRequest at h
  rcases hend : terminatorLoop buf (len - 3) 3 with - | - | endOff <;>
    rw [hend, Option.bind_eq_bind] at h
  · exact absurd h (by simp)
  · exact absurd h (by simp)
  obtain ⟨method, hmethod, hm⟩ := terminated_putString out.method (by simp)
  obtain ⟨path, hpath, hp⟩ := terminated_putString out.path (by simp)
  obtain ⟨version, hversion, hv⟩ := terminated_putString out.version (by simp)
  simp only [Option.bind_some, hmethod, hpath, hversion, Option.bind_eq_bind] at h
  obtain ⟨⟨n, out'⟩, hscan, h⟩ := Option.bind_eq_some_iff.1 h
  obtain ⟨s, hs⟩ : ∃ s, cstr buf = some s := by
    rcases hs : cstr buf with - | s
    · rw [sscanfRequest, hs] at hscan
      exact absurd hscan (by simp)
    · exact ⟨s, rfl⟩
  have hclear : HttpReq.Terminated
      { out with method := method, path := path, version := version } := ⟨hm, hp, hv⟩
  obtain ⟨n', out'', hscan', -, hn, hwords⟩ := sscanfRequest_spec hs hclear
  obtain ⟨rfl, rfl⟩ := Prod.mk.inj (Option.some.inj (hscan.symm.trans hscan'))
  dsimp only at h
  split at h
  · exact absurd h (by simp)
  · rename_i hthree
    obtain ⟨⟨m, p, v⟩, hw⟩ := Option.isSome_iff_exists.1 (hn.1 (not_not.1 hthree))
    obtain ⟨hm', hp', hv'⟩ := hwords m p v hw
    obtain ⟨v', -, h⟩ := Option.bind_eq_some_iff.1 h
    obtain ⟨ka, -, h⟩ := Option.bind_eq_some_iff.1 h
    obtain ⟨-, rfl⟩ := Prod.mk.inj (Option.some.inj h)
    exact ⟨⟨m, p, v, ka, endOff⟩, s, HttpReq.request_eq_some.2 ⟨hm', hp', hv', rfl, rfl⟩, hs, hw⟩

/-- The string at a buffer whose first line has no NUL starts with the line and its CR. -/
theorem cstr_line {buf s : List UInt8} {i : ℕ} (hi : crlf.firstOcc buf = some i)
    (h0 : 0 ∉ buf.take i) (hs : cstr buf = some s) : ∃ t, s = buf.take i ++ 13 :: t := by
  obtain ⟨-, ⟨t, ht⟩, -⟩ := List.firstOcc_eq_some_iff.1 hi
  rw [crlf_eq, List.cons_append, List.cons_append, List.nil_append] at ht
  rw [← List.take_append_drop i buf, cstr_append_of_not_mem h0, ← ht] at hs
  obtain ⟨s', hs', rfl⟩ := Option.map_eq_some_iff.1 hs
  rw [cstr, if_neg (by decide)] at hs'
  obtain ⟨t', -, rfl⟩ := Option.map_eq_some_iff.1 hs'
  exact ⟨t', rfl⟩

/-- **Exactly when an accepted request has the words of its first line**: when the line up to the
first CRLF consists of three words that fit in their arrays, and holds no NUL. -/
theorem request_line_iff {buf : List UInt8} {len : ℕ} {out req : HttpReq}
    (h : httpTryParseRequest buf len out = some (true, req)) :
    ∃ r, req.request = some r ∧
      (FirstLine buf r.method r.path r.version ↔
        ∃ i m p v, crlf.firstOcc buf = some i ∧ IsRequestLine (buf.take i) m p v ∧
          m.length ≤ 7 ∧ p.length ≤ 1023 ∧ v.length ≤ 15 ∧ 0 ∉ buf.take i) := by
  obtain ⟨r, s, hr, hs, hw⟩ := words_of_accepted h
  refine ⟨r, hr, ?_, ?_⟩
  · rintro ⟨i, hi, hline⟩
    obtain ⟨⟨hm, hms⟩, ⟨hp, hps⟩, hv, hvs⟩ := requestWords_spec hw
    refine ⟨i, _, _, _, hi, hline, hm, hp, hv, fun h0 ↦ ?_⟩
    have h0s := not_mem_of_cstr hs
    obtain ⟨s₁, s₂, ⟨-, hs₁⟩, ⟨-, hs₂⟩, heq⟩ := hline.eq
    rw [heq] at h0
    simp only [List.mem_append] at h0
    rcases h0 with (((h0 | h0) | h0) | h0) | h0
    · exact h0s (hms h0)
    · exact absurd (hs₁ 0 h0) (by decide)
    · exact h0s (hps h0)
    · exact absurd (hs₂ 0 h0) (by decide)
    · exact h0s (hvs h0)
  · rintro ⟨i, m, p, v, hi, hline, hm, hp, hv, h0⟩
    obtain ⟨t, rfl⟩ := cstr_line hi h0 hs
    rw [requestWords_line hline hm hp hv (by decide), Option.some.injEq, Prod.mk.injEq,
      Prod.mk.injEq] at hw
    obtain ⟨rfl, rfl, rfl⟩ := hw
    exact ⟨i, hi, hline⟩

/-- A request line of two words: the third is taken from the line behind it. -/
theorem version_from_header_line :
    ∃ req r, httpTryParseRequest (ascii "GET /a\r\nHost: x\r\n\r\n" ++ [0]) 19
        ⟨.zeros 8, .zeros 1024, .zeros 16, false, 0⟩ = some (true, req) ∧ req.request = some r ∧
      ¬ FirstLine (ascii "GET /a\r\nHost: x\r\n\r\n" ++ [0]) r.method r.path r.version := by
  have hparse : (httpTryParseRequest (ascii "GET /a\r\nHost: x\r\n\r\n" ++ [0]) 19
      ⟨.zeros 8, .zeros 1024, .zeros 16, false, 0⟩).map (fun x ↦ (x.1, x.2.request)) =
        some (true, some ⟨ascii "GET", ascii "/a", ascii "Host:", false, 19⟩) := by decide +kernel
  obtain ⟨⟨ok, req⟩, hreq, heq⟩ := Option.map_eq_some_iff.1 hparse
  obtain ⟨rfl, hr⟩ := Prod.mk.inj heq
  refine ⟨req, _, hreq, hr, ?_⟩
  rintro ⟨i, hi, hline⟩
  obtain rfl : i = 6 := Option.some.inj (hi.symm.trans (by decide))
  obtain ⟨s₁, s₂, -, -, heq⟩ := hline.eq
  have hcolon : (58 : UInt8) ∈ (ascii "GET /a\r\nHost: x\r\n\r\n" ++ [0]).take 6 := by
    rw [heq]
    exact List.mem_append_right _ (by decide)
  exact absurd hcolon (by decide)

/-- A request line as it should be. -/
theorem request_line_iff_get :
    ∃ req r, httpTryParseRequest (ascii "GET / HTTP/1.1\r\n\r\n" ++ [0]) 18
        ⟨.zeros 8, .zeros 1024, .zeros 16, false, 0⟩ = some (true, req) ∧ req.request = some r ∧
      (FirstLine (ascii "GET / HTTP/1.1\r\n\r\n" ++ [0]) r.method r.path r.version ↔
        ∃ i m p v, crlf.firstOcc (ascii "GET / HTTP/1.1\r\n\r\n" ++ [0]) = some i ∧
          IsRequestLine ((ascii "GET / HTTP/1.1\r\n\r\n" ++ [0]).take i) m p v ∧
          m.length ≤ 7 ∧ p.length ≤ 1023 ∧ v.length ≤ 15 ∧
          0 ∉ (ascii "GET / HTTP/1.1\r\n\r\n" ++ [0]).take i) := by
  have hsome : (httpTryParseRequest (ascii "GET / HTTP/1.1\r\n\r\n" ++ [0]) 18
      ⟨.zeros 8, .zeros 1024, .zeros 16, false, 0⟩).map Prod.fst = some true := by decide +kernel
  obtain ⟨⟨ok, req⟩, hparse, rfl⟩ := Option.map_eq_some_iff.1 hsome
  obtain ⟨r, hr, hiff⟩ := request_line_iff hparse
  exact ⟨req, r, hparse, hr, hiff⟩

end ForgeServer
