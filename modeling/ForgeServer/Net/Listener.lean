import ForgeServer.Bytes.Atoi
import ForgeServer.Http.Static

/-!
# The listening socket

`forge_create_listener`: the text of `-l` is copied into an array of 128 bytes, cut at the last
colon there, and its two parts go to `inet_pton` and to `atoi`.

The address is read exactly or refused, by `inet_pton`. The port is not: `atoi` ignores what is no
digit, the conversion to 16 bits drops what does not fit, and of a text of 128 bytes or more the
array has only the beginning. `exactOrRefused_iff` says which texts this leaves: those whose address
is refused anyway, and those whose port is written in full.
-/

namespace ForgeServer

open CStr CInt

/-- The size of the array `host`. -/
def hostBuf : ℕ := 128

/-! ### Addresses -/

/-- `struct in_addr`: the four numbers of the dotted notation. -/
structure InAddr where
  a : UInt8
  b : UInt8
  c : UInt8
  d : UInt8
deriving DecidableEq

/-- The part of `struct sockaddr_in` that is not constant; the port is in host byte order, so
`htons` does not show. -/
structure SockaddrIn where
  sinAddr : InAddr
  sinPort : ℕ
deriving DecidableEq

/-- One of the numbers of an address: decimal, without a leading zero, and at most 255. -/
def octet (ds : List UInt8) : Option UInt8 :=
  if ds ≠ [] ∧ ds.all isDigit ∧ (ds.head? = some 48 → ds.length = 1) ∧ digitsValue ds ≤ 255 then
    some (UInt8.ofNat (digitsValue ds))
  else none

/-- `inet_pton` for `AF_INET`. -/
def inetPton (s : List UInt8) : Option InAddr :=
  match s.splitOn 46 with
  | [a, b, c, d] => do
    let a ← octet a
    let b ← octet b
    let c ← octet c
    let d ← octet d
    pure ⟨a, b, c, d⟩
  | _ => none

example : inetPton (ascii "127.0.0.01") = none := by decide

/-! ### The code -/

/-- What the kernel answers while the socket is set up, errors as `strerror` prints them. What
`setsockopt` answers is not looked at. -/
structure ListenKernel where
  socket : Except (List UInt8) ℕ := .ok 3
  bind : Option (List UInt8) := none
  listen : Option (List UInt8) := none

/-- How `forge_create_listener` ends. -/
inductive Listener
  /-- In `forge_die`, with this text. -/
  | died (text : List UInt8)
  /-- With a socket that is bound to an address. -/
  | listening (fd : ℕ) (addr : SockaddrIn)
deriving DecidableEq

/-- `forge_create_listener`. -/
def forgeCreateListener (k : ListenKernel) (hostport : List UInt8) : Listener :=
  let host := (snprintf hostBuf hostport).stored
  match strrchr host 58 with
  | none => .died (ascii "bad -l host:port")
  | some colon =>
    let port := atoi colon.tail
    -- `*colon = '\0'` leaves the part in front of it
    let host := host.take (host.length - colon.length)
    match k.socket with
    | .error e => .died (ascii "socket: " ++ e)
    | .ok fd =>
      match inetPton host with
      | none => .died (ascii "inet_pton failed")
      | some sinAddr =>
        match k.bind, k.listen with
        | some e, _ => .died (ascii "bind: " ++ e)
        | none, some e => .died (ascii "listen: " ++ e)
        | none, none => .listening fd ⟨sinAddr, toUInt16 port⟩

theorem isDigit_of_octet {ds : List UInt8} {n : UInt8} (h : octet ds = some n) :
    ∀ d ∈ ds, isDigit d := by
  obtain ⟨⟨-, hdigits, -⟩, -⟩ := Option.ite_none_right_eq_some.1 h
  exact List.all_eq_true.1 hdigits

theorem length_le_of_octet {ds : List UInt8} {n : UInt8} (h : octet ds = some n) :
    ds.length ≤ 3 := by
  obtain ⟨⟨-, hdigits, hzero, hle⟩, -⟩ := Option.ite_none_right_eq_some.1 h
  rcases ds with - | ⟨d, ds⟩
  · exact Nat.zero_le _
  by_contra hlen
  rw [List.length_cons] at hlen
  have hd : d ≠ 48 := by
    rintro rfl
    have := hzero rfl
    rw [List.length_cons] at this
    omega
  have hpow := pow_length_le_digitsValue (List.all_eq_true.1 hdigits d List.mem_cons_self) hd ds
  have hthree : 10 ^ 3 ≤ 10 ^ ds.length := Nat.pow_le_pow_right (by decide) (by omega)
  omega

/-- An address has no colon, and is short. -/
theorem of_inetPton {s : List UInt8} {addr : InAddr} (h : inetPton s = some addr) :
    58 ∉ s ∧ s.length ≤ 15 := by
  unfold inetPton at h
  split at h
  case h_2 => exact absurd h (by simp)
  rename_i a b c d hsplit
  have hs : s = [46].intercalate [a, b, c, d] := by rw [← hsplit, List.intercalate_splitOn]
  simp only [Option.bind_eq_bind, Option.bind_eq_some_iff] at h
  obtain ⟨_, ha, _, hb, _, hc, _, hd, -⟩ := h
  have hno : ∀ {ds : List UInt8} {n : UInt8}, octet ds = some n → 58 ∉ ds := fun hds hmem ↦
    absurd (isDigit_of_octet hds 58 hmem) (by decide)
  constructor
  · rw [hs]
    simp [List.intercalate, hno ha, hno hb, hno hc, hno hd]
  · have hlen := congrArg List.length hs
    have hlena := length_le_of_octet ha
    have hlenb := length_le_of_octet hb
    have hlenc := length_le_of_octet hc
    have hlend := length_le_of_octet hd
    simp [List.intercalate] at hlen
    omega

/-- **When a socket comes out**, and the address it is bound to. -/
theorem forgeCreateListener_eq_listening {k : ListenKernel} {hostport : List UInt8} {fd : ℕ}
    {addr : SockaddrIn} :
    forgeCreateListener k hostport = .listening fd addr ↔
      k.socket = .ok fd ∧ k.bind = none ∧ k.listen = none ∧
        ∃ name port a, hostport.take 127 = name ++ 58 :: port ∧ 58 ∉ port ∧
          inetPton name = some a ∧ addr = ⟨a, toUInt16 (atoi port)⟩ := by
  have hhost : (snprintf hostBuf hostport).stored = hostport.take 127 := rfl
  have hcut : ∀ name port : List UInt8,
      (name ++ 58 :: port).take ((name ++ 58 :: port).length - (58 :: port).length) = name := by
    intro name port
    rw [List.length_append, Nat.add_sub_cancel, List.take_left]
  simp only [forgeCreateListener, hhost]
  constructor
  · intro h
    split at h
    case h_1 => exact absurd h (by simp)
    rename_i colon hcolon
    obtain ⟨name, port, htake, rfl, hport⟩ := exists_of_strrchr hcolon
    rw [htake, hcut] at h
    split at h
    case h_1 => exact absurd h (by simp)
    rename_i fd' hsocket
    split at h
    case h_1 => exact absurd h (by simp)
    rename_i a ha
    split at h
    case h_1 | h_2 => exact absurd h (by simp)
    rename_i hbind hlisten
    obtain ⟨rfl, rfl⟩ := Listener.listening.inj h
    exact ⟨hsocket, hbind, hlisten, name, port, a, htake, hport, ha, rfl⟩
  · rintro ⟨hsocket, hbind, hlisten, name, port, a, htake, hport, ha, rfl⟩
    rw [htake, strrchr_append hport]
    simp only [hcut, hsocket, ha, hbind, hlisten, List.tail_cons]

/-! ### What a text denotes -/

/-- A port in full: a nonempty run of decimal digits with a value that 16 bits hold. -/
structure IsPort (ds : List UInt8) : Prop where
  ne_nil : ds ≠ []
  isDigit : ∀ d ∈ ds, isDigit d
  le : digitsValue ds ≤ 65535

/-- The address a text denotes: an IPv4 address, a colon, and a port up to the end. -/
def Denotes (hostport : List UInt8) (addr : SockaddrIn) : Prop :=
  ∃ name port, hostport = name ++ 58 :: port ∧ inetPton name = some addr.sinAddr ∧ IsPort port ∧
    addr.sinPort = digitsValue port

/-- **The listen address is parsed exactly or refused**: whatever the kernel answers, a socket that
comes out is bound to the address the text denotes. -/
def ExactOrRefused (hostport : List UInt8) : Prop :=
  ∀ k fd addr, forgeCreateListener k hostport = .listening fd addr → Denotes hostport addr

/-- A text is split in one way only at its first colon. -/
theorem colon_inj {name name' port port' : List UInt8} (hname : 58 ∉ name) (hname' : 58 ∉ name')
    (h : name ++ 58 :: port = name' ++ 58 :: port') : name = name' ∧ port = port' := by
  have hfirst : ∀ l r : List UInt8, 58 ∉ l → (l ++ 58 :: r).takeWhile (· ≠ 58) = l := by
    intro l r hl
    rw [List.takeWhile_append_of_pos fun b hb ↦ by simpa using ne_of_mem_of_not_mem hb hl,
      List.takeWhile_cons_of_neg (by simp), List.append_nil]
  have heq : name = name' := by rw [← hfirst name port hname, h, hfirst name' port' hname']
  subst heq
  exact ⟨rfl, (List.cons.inj (List.append_cancel_left h)).2⟩

/-- What the array holds of a text with an address in front of a colon. -/
theorem take_hostport {name port : List UInt8} (hname : name.length ≤ 15) :
    (name ++ 58 :: port).take 127 = name ++ 58 :: port.take (126 - name.length) := by
  rw [List.take_append, List.take_of_length_le (by omega),
    show 127 - name.length = (126 - name.length) + 1 by omega, List.take_succ_cons]

/-- A port that is cut is read as another one, unless it is 0. -/
theorem sinPort_take_iff {port : List UInt8} (hport : IsPort port) {n : ℕ}
    (hn : n < port.length) :
    toUInt16 (atoi (port.take n)) = digitsValue port ↔ digitsValue port = 0 := by
  have happend : port.take n ++ port.drop n = port := List.take_append_drop n port
  have hne : port.drop n ≠ [] := by
    rw [Ne, List.drop_eq_nil_iff]
    omega
  have hle : digitsValue (port.take n) ≤ digitsValue port :=
    (digitsValue_le_append (port.take n) (port.drop n)).trans_eq (congrArg digitsValue happend)
  have hcut := digitsValue_append_eq_iff (port.take n) hne
  rw [happend] at hcut
  rw [toUInt16_atoi (fun d hd ↦ hport.isDigit d (List.mem_of_mem_take hd)) (hle.trans hport.le),
    ← hcut, eq_comm]

/-- **Exactly when the listen address is parsed exactly or refused**: when an address that
`inet_pton` accepts, and that stands in front of the last colon the array holds, is followed by a
port in full, which is 0 if the text does not fit into the array. -/
theorem exactOrRefused_iff (hostport : List UInt8) :
    ExactOrRefused hostport ↔
      ∀ name port, hostport = name ++ 58 :: port → 58 ∉ port.take (126 - name.length) →
        (inetPton name).isSome →
          IsPort port ∧ (127 < hostport.length → digitsValue port = 0) := by
  constructor
  · rintro h name port rfl hcolon hsome
    obtain ⟨a, ha⟩ := Option.isSome_iff_exists.1 hsome
    obtain ⟨hno, hlen⟩ := of_inetPton ha
    have hlisten : forgeCreateListener {} (name ++ 58 :: port) =
        .listening 3 ⟨a, toUInt16 (atoi (port.take (126 - name.length)))⟩ :=
      forgeCreateListener_eq_listening.2
        ⟨rfl, rfl, rfl, name, _, a, take_hostport hlen, hcolon, ha, rfl⟩
    obtain ⟨name', port', heq, ha', hport, hvalue⟩ := h {} 3 _ hlisten
    obtain ⟨rfl, rfl⟩ := colon_inj hno (of_inetPton ha').1 heq
    exact ⟨hport, fun hlong ↦ (sinPort_take_iff hport (by simp at hlong; omega)).1 hvalue⟩
  · rintro h k fd addr hlisten
    obtain ⟨-, -, -, name, rest, a, htake, hrest, ha, rfl⟩ :=
      forgeCreateListener_eq_listening.1 hlisten
    -- `rest` is the part of the port that is in the array
    obtain ⟨port, hport⟩ : ∃ port, hostport = name ++ 58 :: port := by
      refine ⟨rest ++ hostport.drop 127, ?_⟩
      rw [← List.cons_append, ← List.append_assoc, ← htake, List.take_append_drop]
    subst hport
    obtain ⟨hno, hlen⟩ := of_inetPton ha
    rw [take_hostport hlen] at htake
    obtain rfl := (List.cons.inj (List.append_cancel_left htake)).2
    obtain ⟨hisPort, hzero⟩ := h name port rfl hrest (by rw [ha]; rfl)
    refine ⟨name, port, rfl, ha, hisPort, ?_⟩
    by_cases hlong : 126 - name.length < port.length
    · exact (sinPort_take_iff hisPort hlong).2 (hzero (by simp; omega))
    · show toUInt16 (atoi (port.take _)) = _
      rw [List.take_of_length_le (by omega), toUInt16_atoi hisPort.isDigit hisPort.le]

/-- The port 65616 does not fit into 16 bits: the socket is bound to port 80. -/
theorem bound_to_other_port :
    forgeCreateListener {} (ascii "127.0.0.1:65616") = .listening 3 ⟨⟨127, 0, 0, 1⟩, 80⟩ ∧
      ¬ ExactOrRefused (ascii "127.0.0.1:65616") := by
  have hlisten : forgeCreateListener {} (ascii "127.0.0.1:65616") =
      .listening 3 ⟨⟨127, 0, 0, 1⟩, 80⟩ := by decide
  refine ⟨hlisten, fun h ↦ ?_⟩
  obtain ⟨name, port, heq, hname, -, hvalue⟩ := h {} 3 _ hlisten
  have hsplit : ascii "127.0.0.1:65616" = ascii "127.0.0.1" ++ 58 :: ascii "65616" := by decide
  obtain ⟨-, rfl⟩ := colon_inj (by decide) (of_inetPton hname).1 (hsplit.symm.trans heq)
  exact absurd hvalue (by decide)

example : forgeCreateListener {} (ascii "127.0.0.1:") = .listening 3 ⟨⟨127, 0, 0, 1⟩, 0⟩ := by
  decide
example : forgeCreateListener {} (ascii "127.0.0.1:80x") = .listening 3 ⟨⟨127, 0, 0, 1⟩, 80⟩ := by
  decide

end ForgeServer
