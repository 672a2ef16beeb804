import Mathlib.Algebra.Group.Nat.Defs
import Mathlib.Data.List.Basic
import Mathlib.Data.List.Infix
import Mathlib.Data.List.TakeWhile
import Mathlib.Order.Basic

/-!
# C strings in bounded objects

A pointer into an object is modelled by the bytes from the pointer to the end of the object, a
`List UInt8`. A scan that reads past the last byte has left the object: it returns `none`, so
"stays inside the object" is the theorem that a scan returns `some`, not an assumption of the model.

* `cstr` is the string a pointer points to, the bytes up to the first NUL;
* `matchesNoCase` is `strncasecmp(p, lit, strlen(lit)) == 0` for a literal;
* `skipBlanks` is the loop `while (*v == ' ' || *v == '\t') v++`;
* `scanWord` is one `%<w>s` conversion of `scanf` on a string, `scanWords` a sequence of them.

`Buf n` is an array of `n` bytes; `Buf.store` writes inside it or fails.

What the stream arguments need is locality. Each scan has a lemma saying which bytes it has to meet
to be decided before it leaves its prefix: a NUL for `cstr`, a byte that matches no letter of the
literal for `matchesNoCase`, a non-blank for `skipBlanks`, the end of the last word for `scanWords`.
For the words the converse is here as well: what is not decided does depend on what follows
(`scanWords_letters_ne`).
-/

namespace CStr

/-- The bytes of a text. -/
def ascii (s : String) : List UInt8 := s.toList.map fun c ↦ UInt8.ofNat c.toNat

/-- `isspace` in the C locale. -/
def isSpace (b : UInt8) : Bool := b == 32 || (9 ≤ b && b ≤ 13)

/-- `tolower` in the C locale. -/
def toLower (b : UInt8) : UInt8 := if 65 ≤ b ∧ b ≤ 90 then b + 32 else b

/-! ### Arrays -/

/-- An array of `n` bytes. -/
@[ext] structure Buf (n : ℕ) where
  /-- Its contents. -/
  bytes : List UInt8
  length_bytes : bytes.length = n
deriving DecidableEq

namespace Buf

variable {n : ℕ}

/-- The array `calloc` hands out. -/
def zeros (n : ℕ) : Buf n := ⟨List.replicate n 0, List.length_replicate⟩

/-- Write bytes from offset `off` on; `none` when they do not fit. -/
def store (a : Buf n) (off : ℕ) (bs : List UInt8) : Option (Buf n) :=
  if h : off + bs.length ≤ n then
    some ⟨a.bytes.take off ++ bs ++ a.bytes.drop (off + bs.length), by
      simp only [List.length_append, List.length_take, List.length_drop, a.length_bytes]
      omega⟩
  else none

theorem store_eq_some (a : Buf n) (off : ℕ) (bs : List UInt8) (h : off + bs.length ≤ n) :
    ∃ b, a.store off bs = some b ∧
      b.bytes = a.bytes.take off ++ bs ++ a.bytes.drop (off + bs.length) := by
  exact ⟨_, dif_pos h, rfl⟩

/-- `memmove` of `n` bytes inside the array; `none` when either end is outside. -/
def memmove (a : Buf n) (dst src m : ℕ) : Option (Buf n) :=
  if src + m ≤ n then a.store dst ((a.bytes.drop src).take m) else none

theorem memmove_eq_some (a : Buf n) (dst src m : ℕ) (hdst : dst + m ≤ n) (hsrc : src + m ≤ n) :
    ∃ b, a.memmove dst src m = some b ∧
      b.bytes = a.bytes.take dst ++ (a.bytes.drop src).take m ++ a.bytes.drop (dst + m) := by
  have hlen : ((a.bytes.drop src).take m).length = m := by
    rw [List.length_take, List.length_drop, a.length_bytes]
    omega
  obtain ⟨b, hb, hbytes⟩ :=
    a.store_eq_some dst ((a.bytes.drop src).take m) (by rw [hlen]; exact hdst)
  exact ⟨b, by rw [memmove, if_pos hsrc, hb], by rw [hbytes, hlen]⟩

/-- Write a string with its terminating NUL at the start of the array. -/
def putString (a : Buf n) (s : List UInt8) : Option (Buf n) := a.store 0 (s ++ [0])

end Buf

/-! ### The string at a pointer -/

/-- The string a pointer points to; `none` when the object holds no NUL from there on. -/
def cstr : List UInt8 → Option (List UInt8)
  | [] => none
  | b :: bs => if b = 0 then some [] else (cstr bs).map (b :: ·)

theorem cstr_eq_some_iff {m s : List UInt8} : cstr m = some s ↔ 0 ∉ s ∧ s ++ [0] <+: m := by
  induction m generalizing s with
  | nil => simp [cstr]
  | cons b bs ih =>
    by_cases hb : b = 0
    · subst hb
      rw [cstr, if_pos rfl, Option.some.injEq]
      constructor
      · rintro rfl
        exact ⟨List.not_mem_nil, by simp⟩
      · rintro ⟨hs, hp⟩
        cases s with
        | nil => rfl
        | cons c cs =>
          rw [List.cons_append, List.cons_prefix_cons] at hp
          exact absurd (by simp [hp.1]) hs
    · rw [cstr, if_neg hb, Option.map_eq_some_iff]
      constructor
      · rintro ⟨t, ht, rfl⟩
        obtain ⟨hnot, hp⟩ := ih.1 ht
        refine ⟨?_, by rw [List.cons_append, List.cons_prefix_cons]; exact ⟨rfl, hp⟩⟩
        rw [List.mem_cons, not_or]
        exact ⟨Ne.symm hb, hnot⟩
      · rintro ⟨hs, hp⟩
        cases s with
        | nil =>
          rw [List.nil_append, List.cons_prefix_cons] at hp
          exact absurd hp.1.symm hb
        | cons c cs =>
          rw [List.cons_append, List.cons_prefix_cons] at hp
          rw [List.mem_cons, not_or] at hs
          exact ⟨cs, ih.2 ⟨hs.2, hp.2⟩, by rw [hp.1]⟩

theorem isSome_cstr_iff {m : List UInt8} : (cstr m).isSome ↔ 0 ∈ m := by
  induction m with
  | nil => simp [cstr]
  | cons b bs ih =>
    by_cases hb : b = 0
    · simp [cstr, hb]
    · simp [cstr, hb, ih, Ne.symm hb]

theorem exists_cstr {m : List UInt8} (h : 0 ∈ m) : ∃ s, cstr m = some s :=
  Option.isSome_iff_exists.1 (isSome_cstr_iff.2 h)

theorem not_mem_of_cstr {m s : List UInt8} (h : cstr m = some s) : 0 ∉ s :=
  (cstr_eq_some_iff.1 h).1

/-- A string that ends inside a prefix is not affected by what follows the prefix. -/
theorem cstr_append_of_mem {b : List UInt8} (h : 0 ∈ b) (t : List UInt8) :
    cstr (b ++ t) = cstr b := by
  obtain ⟨s, hs⟩ := exists_cstr h
  obtain ⟨hnot, hp⟩ := cstr_eq_some_iff.1 hs
  rw [hs]
  exact cstr_eq_some_iff.2 ⟨hnot, hp.trans (List.prefix_append _ _)⟩

/-- A NUL-free prefix is a prefix of the string. -/
theorem cstr_append_of_not_mem {b : List UInt8} (h : 0 ∉ b) (t : List UInt8) :
    cstr (b ++ t) = (cstr t).map (b ++ ·) := by
  induction b with
  | nil => simp
  | cons x xs ih =>
    rw [List.mem_cons, not_or] at h
    rw [List.cons_append, cstr, if_neg (Ne.symm h.1), ih h.2, Option.map_map]
    rfl

@[simp] theorem cstr_append_zero {s : List UInt8} (h : 0 ∉ s) (t : List UInt8) :
    cstr (s ++ 0 :: t) = some s := by
  rw [cstr_append_of_not_mem h]
  simp [cstr]

/-- What a string occupies in an array it was put into. -/
theorem Buf.putString_eq_some {n : ℕ} (a : Buf n) {s : List UInt8} (h : s.length < n) :
    ∃ b, a.putString s = some b ∧ ∃ t, b.bytes = s ++ 0 :: t := by
  obtain ⟨b, hb, hbytes⟩ := a.store_eq_some 0 (s ++ [0])
    (by rw [List.length_append, List.length_singleton]; omega)
  exact ⟨b, hb, _, by simpa using hbytes⟩

/-! ### Literals, blanks -/

/-- `strncasecmp(p, lit, strlen(lit)) == 0`: byte by byte, up to the first difference. -/
def matchesNoCase : List UInt8 → List UInt8 → Option Bool
  | [], _ => some true
  | _ :: _, [] => none
  | c :: lit, b :: bs =>
    if toLower b = toLower c then matchesNoCase lit bs else some false

/-- **A byte that matches no letter of the literal decides the comparison.** -/
theorem matchesNoCase_append {lit m : List UInt8} {x : UInt8} (hx : x ∈ m)
    (hlit : ∀ c ∈ lit, toLower x ≠ toLower c) :
    ∃ r, ∀ t, matchesNoCase lit (m ++ t) = some r := by
  induction lit generalizing m with
  | nil => exact ⟨true, fun _ ↦ by simp [matchesNoCase]⟩
  | cons c lit ih =>
    cases m with
    | nil => exact absurd hx List.not_mem_nil
    | cons b bs =>
      by_cases hb : toLower b = toLower c
      · have hne : x ≠ b := fun h ↦ hlit c List.mem_cons_self (h ▸ hb)
        obtain ⟨r, hr⟩ := ih ((List.mem_cons.1 hx).resolve_left hne)
          fun c' hc' ↦ hlit c' (List.mem_cons_of_mem c hc')
        exact ⟨r, fun t ↦ by rw [List.cons_append, matchesNoCase, if_pos hb, hr]⟩
      · exact ⟨false, fun t ↦ by rw [List.cons_append, matchesNoCase, if_neg hb]⟩

/-- A match does not reach the byte that matches no letter of the literal: the byte is still there
after the matched ones. -/
theorem mem_drop_of_matchesNoCase {lit m : List UInt8} {x : UInt8} (hx : x ∈ m)
    (hlit : ∀ c ∈ lit, toLower x ≠ toLower c) (h : matchesNoCase lit m = some true) :
    x ∈ m.drop lit.length := by
  induction lit generalizing m with
  | nil => simpa using hx
  | cons c lit ih =>
    cases m with
    | nil => exact absurd hx List.not_mem_nil
    | cons b bs =>
      by_cases hb : toLower b = toLower c
      · have hne : x ≠ b := fun h ↦ hlit c List.mem_cons_self (h ▸ hb)
        rw [matchesNoCase, if_pos hb] at h
        exact ih ((List.mem_cons.1 hx).resolve_left hne)
          (fun c' hc' ↦ hlit c' (List.mem_cons_of_mem c hc')) h
      · rw [matchesNoCase, if_neg hb] at h
        exact absurd h (by simp)

/-- A space or a tab. -/
def isBlank (b : UInt8) : Bool := b == 32 || b == 9

/-- `while (*v == ' ' || *v == '\t') v++`: the pointer after the blanks. -/
def skipBlanks : List UInt8 → Option (List UInt8)
  | [] => none
  | b :: bs => if isBlank b then skipBlanks bs else some (b :: bs)

/-- **A non-blank decides the loop**, which stops at it or before. -/
theorem skipBlanks_append {m : List UInt8} {x : UInt8} (hx : x ∈ m) (hb : isBlank x = false) :
    ∃ v, x ∈ v ∧ ∀ t, skipBlanks (m ++ t) = some (v ++ t) := by
  induction m with
  | nil => exact absurd hx List.not_mem_nil
  | cons b bs ih =>
    by_cases hblank : isBlank b
    · have hne : x ≠ b := fun h ↦ by rw [h, hblank] at hb; exact absurd hb (by simp)
      obtain ⟨v, hv, hskip⟩ := ih ((List.mem_cons.1 hx).resolve_left hne)
      exact ⟨v, hv, fun t ↦ by rw [List.cons_append, skipBlanks, if_pos hblank, hskip]⟩
    · exact ⟨b :: bs, hx, fun t ↦ by rw [List.cons_append, skipBlanks, if_neg hblank]⟩

/-! ### Words -/

/-- The non-space bytes in front of a string, at most `w` of them, and what is left. -/
def takeWord : ℕ → List UInt8 → List UInt8 × List UInt8
  | 0, s => ([], s)
  | _ + 1, [] => ([], [])
  | w + 1, b :: s => if isSpace b then ([], b :: s) else
    let r := takeWord w s
    (b :: r.1, r.2)

/-- One `%<w>s` conversion: white space is skipped, then at most `w` non-space bytes are the word.
`none` is the input failure at the end of the string. -/
def scanWord (w : ℕ) (s : List UInt8) : Option (List UInt8 × List UInt8) :=
  match s.dropWhile isSpace with
  | [] => none
  | b :: t => some (takeWord w (b :: t))

/-- Conversions in sequence: the words and what is left, `none` when one of them fails. -/
def scanWords : List ℕ → List UInt8 → Option (List (List UInt8) × List UInt8)
  | [], s => some ([], s)
  | w :: ws, s => do
    let (u, r) ← scanWord w s
    let (us, r') ← scanWords ws r
    some (u :: us, r')

theorem takeWord_append_eq (w : ℕ) (s : List UInt8) :
    (takeWord w s).1 ++ (takeWord w s).2 = s := by
  induction s generalizing w with
  | nil => cases w <;> rfl
  | cons b s ih =>
    cases w with
    | zero => rfl
    | succ w =>
      by_cases hb : isSpace b
      · simp [takeWord, hb]
      · simp [takeWord, hb, ih w]

theorem length_takeWord_le (w : ℕ) (s : List UInt8) : (takeWord w s).1.length ≤ w := by
  induction s generalizing w with
  | nil => cases w <;> simp [takeWord]
  | cons b s ih =>
    cases w with
    | zero => simp [takeWord]
    | succ w =>
      by_cases hb : isSpace b
      · simp [takeWord, hb]
      · simpa [takeWord, hb] using ih w

theorem isSpace_of_mem_takeWord (w : ℕ) (s : List UInt8) :
    ∀ b ∈ (takeWord w s).1, isSpace b = false := by
  induction s generalizing w with
  | nil => cases w <;> simp [takeWord]
  | cons b s ih =>
    cases w with
    | zero => simp [takeWord]
    | succ w =>
      by_cases hb : isSpace b
      · simp [takeWord, hb]
      · intro c hc
        simp only [takeWord, hb] at hc
        rcases List.mem_cons.1 hc with rfl | hc
        · simpa using hb
        · exact ih w c hc

/-- A word that ended inside a string, at a space or at its width, is not affected by what
follows. -/
theorem takeWord_append {w : ℕ} {s : List UInt8}
    (h : (takeWord w s).2 ≠ [] ∨ (takeWord w s).1.length = w) (t : List UInt8) :
    takeWord w (s ++ t) = ((takeWord w s).1, (takeWord w s).2 ++ t) := by
  induction s generalizing w with
  | nil =>
    cases w with
    | zero => simp [takeWord]
    | succ w => simp [takeWord] at h
  | cons b s ih =>
    cases w with
    | zero => simp [takeWord]
    | succ w =>
      by_cases hb : isSpace b
      · simp [takeWord, hb]
      · simp only [takeWord, hb, Bool.false_eq_true, if_false, List.length_cons,
          Nat.add_right_cancel_iff] at h
        simp [takeWord, hb, ih h]

theorem dropWhile_isSpace_append {s : List UInt8} {b : UInt8} {s' : List UInt8}
    (h : s.dropWhile isSpace = b :: s') (t : List UInt8) :
    (s ++ t).dropWhile isSpace = b :: s' ++ t := by
  rw [List.dropWhile_append, h]
  simp

/-- The parts of a conversion: skipped space, the word, the rest. -/
theorem scanWord_eq_some {w : ℕ} {s u r : List UInt8} (h : scanWord w s = some (u, r)) :
    ∃ b t, s.dropWhile isSpace = b :: t ∧ takeWord w (b :: t) = (u, r) ∧ isSpace b = false := by
  unfold scanWord at h
  split at h
  · exact absurd h (by simp)
  · rename_i b t heq
    refine ⟨b, t, heq, Option.some.inj h, ?_⟩
    have hne : s.dropWhile isSpace ≠ [] := by rw [heq]; simp
    simpa [heq] using List.head_dropWhile_not isSpace hne

/-- A converted word: nonempty, no longer than the width, free of white space and made of bytes of
the string, of which the rest is a suffix. -/
theorem scanWord_spec {w : ℕ} (hw : 0 < w) {s u r : List UInt8} (h : scanWord w s = some (u, r)) :
    u ≠ [] ∧ u.length ≤ w ∧ (∀ b ∈ u, isSpace b = false) ∧ u ⊆ s ∧ r <:+ s := by
  obtain ⟨b, t, hdrop, htake, hb⟩ := scanWord_eq_some h
  have hsuff : b :: t <:+ s := hdrop ▸ List.dropWhile_suffix isSpace
  have happ : u ++ r = b :: t := by
    simpa [htake] using takeWord_append_eq w (b :: t)
  refine ⟨?_, ?_, ?_, ?_, ?_⟩
  · obtain ⟨w, rfl⟩ := Nat.exists_eq_succ_of_ne_zero hw.ne'
    rintro rfl
    simp [takeWord, hb] at htake
  · simpa [htake] using length_takeWord_le w (b :: t)
  · simpa [htake] using isSpace_of_mem_takeWord w (b :: t)
  · exact fun x hx ↦ hsuff.subset (happ ▸ List.mem_append_left r hx)
  · exact (happ ▸ List.suffix_append u r : r <:+ b :: t).trans hsuff

theorem scanWord_append {w : ℕ} {s u r : List UInt8} (h : scanWord w s = some (u, r))
    (hend : r ≠ [] ∨ u.length = w) (t : List UInt8) :
    scanWord w (s ++ t) = some (u, r ++ t) := by
  obtain ⟨b, t', hdrop, htake, -⟩ := scanWord_eq_some h
  have hends : (takeWord w (b :: t')).2 ≠ [] ∨ (takeWord w (b :: t')).1.length = w := by
    rw [htake]
    exact hend
  have hword := takeWord_append hends t
  rw [scanWord, dropWhile_isSpace_append hdrop t]
  simpa [htake] using hword

theorem scanWords_cons_eq_some {w : ℕ} {ws : List ℕ} {s r : List UInt8} {us : List (List UInt8)} :
    scanWords (w :: ws) s = some (us, r) ↔
      ∃ u r₁ us', scanWord w s = some (u, r₁) ∧ scanWords ws r₁ = some (us', r) ∧
        us = u :: us' := by
  simp only [scanWords, Option.bind_eq_bind, Option.bind_eq_some_iff, Prod.exists,
    Option.some.injEq, Prod.mk.injEq]
  constructor
  · rintro ⟨u, r₁, h₁, us', r₂, h₂, rfl, rfl⟩
    exact ⟨u, r₁, us', h₁, h₂, rfl⟩
  · rintro ⟨u, r₁, us', h₁, h₂, rfl⟩
    exact ⟨u, r₁, h₁, us', r, h₂, rfl, rfl⟩

/-- The conversions are all done inside the string: all words are there and the last one ended at
a space or at its width, before the end of the string. -/
def ScanEnds (ws : List ℕ) (s : List UInt8) : Prop :=
  ∃ us r, scanWords ws s = some (us, r) ∧
    (r ≠ [] ∨ (us.getLast?.map List.length) = ws.getLast?)

instance (ws : List ℕ) (s : List UInt8) : Decidable (ScanEnds ws s) :=
  match h : scanWords ws s with
  | none => isFalse fun ⟨_, _, h', _⟩ ↦ by rw [h] at h'; exact absurd h' (by simp)
  | some (us, r) =>
    decidable_of_iff (r ≠ [] ∨ (us.getLast?.map List.length) = ws.getLast?)
      ⟨fun h' ↦ ⟨us, r, h, h'⟩, fun ⟨us', r', h', hend⟩ ↦ by
        rw [h, Option.some.injEq, Prod.mk.injEq] at h'
        rwa [h'.1, h'.2]⟩

theorem length_scanWords {ws : List ℕ} {s r : List UInt8} {us : List (List UInt8)}
    (h : scanWords ws s = some (us, r)) : us.length = ws.length := by
  induction ws generalizing s us with
  | nil =>
    simp only [scanWords, Option.some.injEq, Prod.mk.injEq] at h
    simp [← h.1]
  | cons w ws ih =>
    obtain ⟨u, r₁, us', -, h₂, rfl⟩ := scanWords_cons_eq_some.1 h
    simp [ih h₂]

/-- **Conversions that are all done inside a string are not affected by what follows it.** -/
theorem scanWords_append {ws : List ℕ} {s r : List UInt8} {us : List (List UInt8)}
    (h : scanWords ws s = some (us, r))
    (hend : r ≠ [] ∨ (us.getLast?.map List.length) = ws.getLast?) (t : List UInt8) :
    scanWords ws (s ++ t) = some (us, r ++ t) := by
  induction ws generalizing s us with
  | nil =>
    simp only [scanWords, Option.some.injEq, Prod.mk.injEq] at h ⊢
    exact ⟨h.1, by rw [h.2]⟩
  | cons w ws ih =>
    obtain ⟨u, r₁, us', h₁, h₂, rfl⟩ := scanWords_cons_eq_some.1 h
    cases ws with
    | nil =>
      simp only [scanWords, Option.some.injEq, Prod.mk.injEq] at h₂
      obtain ⟨rfl, rfl⟩ := h₂
      exact scanWords_cons_eq_some.2
        ⟨u, r₁ ++ t, [], scanWord_append h₁ (by simpa using hend) t, rfl, rfl⟩
    | cons w' ws =>
      -- the next word started in `r₁`, so this one ended at a space
      have hr₁ : r₁ ≠ [] := by
        rintro rfl
        obtain ⟨v, r₂, vs, hv, -, -⟩ := scanWords_cons_eq_some.1 h₂
        exact absurd hv (by simp [scanWord])
      have hlast : (u :: us').getLast? = us'.getLast? := by
        have := length_scanWords h₂
        cases us' with
        | nil => simp at this
        | cons v vs => simp
      rw [hlast, List.getLast?_cons_cons] at hend
      exact scanWords_cons_eq_some.2
        ⟨u, r₁ ++ t, us', scanWord_append h₁ (Or.inl hr₁) t, ih h₂ hend, rfl⟩

/-- A space at the end of a string is not used up by its words. -/
theorem ne_nil_of_scanWords {w : ℕ} {ws : List ℕ} (hws : ∀ v ∈ w :: ws, 0 < v)
    {s r : List UInt8} {b : UInt8} {us : List (List UInt8)} (hb : isSpace b)
    (h : scanWords (w :: ws) (s ++ [b]) = some (us, r)) : r ≠ [] := by
  -- a word ends before the final space: the rest of each conversion keeps it as its last byte
  have hone : ∀ {v : ℕ} {s' u r' : List UInt8}, 0 < v → scanWord v (s' ++ [b]) = some (u, r') →
      ∃ r'', r' = r'' ++ [b] := by
    intro v s' u r' hv h'
    obtain ⟨x, t, hdrop, htake, -⟩ := scanWord_eq_some h'
    obtain ⟨-, -, hnot, -, hsuff⟩ := scanWord_spec hv h'
    have happ : u ++ r' = x :: t := by
      simpa [htake] using takeWord_append_eq v (x :: t)
    have hne : r' ≠ [] := by
      rintro rfl
      have hu : u <:+ s' ++ [b] := by
        rw [List.append_nil] at happ
        rw [happ, ← hdrop]
        exact List.dropWhile_suffix isSpace
      have hune := (scanWord_spec hv h').1
      have hlast : u.getLast hune = b := by
        have := hu.getLast hune
        simpa using this
      have := hnot _ (List.getLast_mem hune)
      rw [hlast, hb] at this
      exact absurd this (by simp)
    refine ⟨r'.dropLast, ?_⟩
    have hlast : r'.getLast hne = b := by simpa using hsuff.getLast hne
    rw [← hlast, List.dropLast_append_getLast]
  induction ws generalizing w s us with
  | nil =>
    obtain ⟨u, r₁, us', h₁, h₂, rfl⟩ := scanWords_cons_eq_some.1 h
    obtain ⟨r'', rfl⟩ := hone (hws w List.mem_cons_self) h₁
    simp only [scanWords, Option.some.injEq, Prod.mk.injEq] at h₂
    simp [← h₂.2]
  | cons w' ws ih =>
    obtain ⟨u, r₁, us', h₁, h₂, rfl⟩ := scanWords_cons_eq_some.1 h
    obtain ⟨r'', rfl⟩ := hone (hws w List.mem_cons_self) h₁
    exact ih (fun v hv ↦ hws v (List.mem_cons_of_mem w hv)) h₂

/-! ### Words that are not decided -/

/-- The text `a a a ...`, a word for each of the letters. -/
def letters (n : ℕ) : List UInt8 := (List.replicate n [97, 32]).flatten

theorem letters_succ (n : ℕ) : letters (n + 1) = 97 :: 32 :: letters n := rfl

/-- A word that is open at the end of a string takes a letter that follows. -/
theorem takeWord_open {w : ℕ} {s u : List UInt8} (h : takeWord w s = (u, [])) (hlt : u.length < w)
    (t : List UInt8) : takeWord w (s ++ 97 :: 32 :: t) = (u ++ [97], 32 :: t) := by
  induction s generalizing w u with
  | nil =>
    match w, hlt with
    | w + 1, _ =>
      obtain rfl : [] = u := (Prod.mk.inj h).1
      cases w <;> rfl
  | cons b s ih =>
    match w, hlt with
    | w + 1, hlt =>
      rw [takeWord] at h
      split at h
      · exact absurd (Prod.mk.inj h).2 (by simp)
      · rename_i hb
        obtain ⟨rfl, hrest⟩ := Prod.mk.inj h
        rw [List.cons_append, takeWord, if_neg hb,
          ih (Prod.ext rfl hrest) (Nat.lt_of_succ_lt_succ hlt)]
        rfl

theorem scanWord_eq_none {w : ℕ} {s : List UInt8} (h : scanWord w s = none) :
    ∀ b ∈ s, isSpace b = true := by
  unfold scanWord at h
  split at h
  · rename_i hnil
    exact List.dropWhile_eq_nil_iff.1 hnil
  · exact absurd h (by simp)

/-- A letter behind white space is a word. -/
theorem scanWord_letter {w : ℕ} (hw : 0 < w) {s : List UInt8} (hs : ∀ b ∈ s, isSpace b = true)
    (t : List UInt8) : scanWord w (s ++ 97 :: 32 :: t) = some ([97], 32 :: t) := by
  have hnil : takeWord w [] = ([], []) := by cases w <;> rfl
  rw [scanWord, List.dropWhile_append_of_pos hs, List.dropWhile_cons_of_neg (by decide)]
  exact congrArg some (takeWord_open hnil hw t)

/-- A word open at the end of a string, with letters behind the string. -/
theorem scanWord_open {w : ℕ} {s u : List UInt8} (h : scanWord w s = some (u, []))
    (hlt : u.length < w) (t : List UInt8) :
    scanWord w (s ++ 97 :: 32 :: t) = some (u ++ [97], 32 :: t) := by
  obtain ⟨b, t', hdrop, htake, -⟩ := scanWord_eq_some h
  rw [scanWord, dropWhile_isSpace_append hdrop]
  exact congrArg some (takeWord_open htake hlt t)

theorem forall_isSpace_blank : ∀ b ∈ ([32] : List UInt8), isSpace b = true :=
  List.forall_mem_singleton.2 rfl

/-- There is a word for each of the letters. -/
theorem isSome_scanWords_letters {ws : List ℕ} (hws : ∀ w ∈ ws, 0 < w) {n : ℕ}
    (hn : ws.length ≤ n) {s : List UInt8} (hs : ∀ b ∈ s, isSpace b = true) (t : List UInt8) :
    (scanWords ws (s ++ (letters n ++ t))).isSome := by
  induction ws generalizing n s with
  | nil => rfl
  | cons w ws ih =>
    obtain ⟨hw, hws⟩ := List.forall_mem_cons.1 hws
    match n, hn with
    | n + 1, hn =>
      have hrest := ih hws (Nat.le_of_succ_le_succ hn) forall_isSpace_blank
      rw [letters_succ, List.cons_append, List.cons_append, scanWords, scanWord_letter hw hs]
      simp only [Option.bind_eq_bind, Option.bind_some, Option.isSome_bind]
      obtain ⟨r, hr⟩ := Option.isSome_iff_exists.1 hrest
      rw [List.singleton_append] at hr
      rw [hr]
      rfl

/-- The words of a conversion that is done, and the others. -/
theorem words_scanWords {w : ℕ} {ws : List ℕ} {s u r : List UInt8}
    (h : scanWord w s = some (u, r)) :
    (scanWords (w :: ws) s).map Prod.fst = ((scanWords ws r).map Prod.fst).map (u :: ·) := by
  simp only [scanWords, h, Option.bind_eq_bind, Option.bind_some]
  cases scanWords ws r <;> rfl

/-- Words are decided when the first one is and the others are. -/
theorem scanEnds_cons {w : ℕ} {ws : List ℕ} {s u r : List UInt8} (h : scanWord w s = some (u, r))
    (hend : r ≠ [] ∨ u.length = w) (hrest : ScanEnds ws r) : ScanEnds (w :: ws) s := by
  obtain ⟨us, r', hscan, hus⟩ := hrest
  refine ⟨u :: us, r', scanWords_cons_eq_some.2 ⟨u, r, us, h, hscan, rfl⟩, ?_⟩
  cases ws with
  | nil =>
    obtain ⟨rfl, rfl⟩ := Prod.mk.inj (Option.some.inj hscan)
    simpa using hend
  | cons w' ws =>
    obtain ⟨v, vs, rfl⟩ := List.exists_cons_of_ne_nil
      (List.ne_nil_of_length_pos (l := us) (by rw [length_scanWords hscan]; simp))
    simpa using hus

/-- **Words that are not decided inside a string depend on what follows it**: with letters behind
the string there are others. -/
theorem scanWords_letters_ne {ws : List ℕ} (hws : ∀ w ∈ ws, 0 < w) {n : ℕ} (hn : ws.length ≤ n)
    {s : List UInt8} (h : ¬ ScanEnds ws s) (t : List UInt8) :
    (scanWords ws (s ++ (letters n ++ t))).map Prod.fst ≠ (scanWords ws s).map Prod.fst := by
  induction ws generalizing s with
  | nil => exact absurd ⟨[], s, rfl, .inr rfl⟩ h
  | cons w ws ih =>
    have hletters := fun s ↦ isSome_scanWords_letters (s := s) hws hn
    obtain ⟨hw, hws⟩ := List.forall_mem_cons.1 hws
    have hn' : ws.length ≤ n := (Nat.le_succ _).trans hn
    rcases hscan : scanWord w s with - | ⟨u, r⟩
    · -- no word has begun
      have hnone : scanWords (w :: ws) s = none := by rw [scanWords, hscan]; rfl
      obtain ⟨x, hx⟩ := Option.isSome_iff_exists.1 (hletters s (scanWord_eq_none hscan) t)
      rw [hnone, hx]
      simp
    by_cases hend : r ≠ [] ∨ u.length = w
    · -- the first word is decided, so one of the others is not
      have hrest := ih hws hn' fun hr ↦ h (scanEnds_cons hscan hend hr)
      rw [words_scanWords hscan, words_scanWords (scanWord_append hscan hend _)]
      exact fun heq ↦ hrest (Option.map_injective List.cons_injective heq)
    · -- the first word goes on with a letter
      obtain ⟨hr, hne⟩ := not_or.1 hend
      obtain rfl : r = [] := not_not.1 hr
      have hlt : u.length < w := Nat.lt_of_le_of_ne (scanWord_spec hw hscan).2.1 hne
      match n, hn with
      | n + 1, hn =>
        have hopen := scanWord_open hscan hlt (letters n ++ t)
        rw [letters_succ, List.cons_append, List.cons_append, scanWords, scanWords, hopen, hscan]
        simp only [Option.bind_eq_bind, Option.bind_some]
        cases ws with
        | nil => simp [scanWords]
        | cons w' ws =>
          obtain ⟨x, hx⟩ := Option.isSome_iff_exists.1 <|
            isSome_scanWords_letters hws (Nat.le_of_succ_le_succ hn) forall_isSpace_blank t
          rw [List.singleton_append] at hx
          have hnil : scanWords (w' :: ws) [] = none := rfl
          rw [hx, hnil]
          simp

end CStr
