import ForgeServer.Bytes.Object
import ForgeServer.Master.Dispatch

/-!
# Passing a descriptor

`forge_send_fd` and `forge_recv_fd` down to the bytes of their control buffers, in the layout of a
64-bit system: a `struct cmsghdr` is a `size_t` and two `int`s, and `CMSG_ALIGN` rounds up to 8.

The kernel is between the two: `passed` is what it reads off a message that is sent, `Reply.rights`
what it writes for the descriptors it has installed in the receiver. `fd_passing` is the round trip,
and what makes the datagrams of `System` the ones the code sends: for every descriptor the message
passes just this one, and `forge_recv_fd` returns the number under which it is installed, or -1 when
there is none left. `recvFd_eq` is the part of it that holds of any reply, well-formed or not.

A control buffer of `CMSG_SPACE(sizeof(int))` bytes has room for a second descriptor (`roomFor_eq`),
which `forge_recv_fd` would not see; `forge_send_fd` never sends one.
-/

namespace ForgeServer

open CStr CInt

/-! ### Control messages -/

/-- `SOL_SOCKET`. -/
def solSocket : ℤ := 1

/-- `SCM_RIGHTS`. -/
def scmRights : ℤ := 1

/-- The size of `struct cmsghdr`: `cmsg_len` is at offset 0, `cmsg_level` at 8 and `cmsg_type`
at 12. -/
def cmsghdrSize : ℕ := 16

/-- `CMSG_ALIGN`. -/
def cmsgAlign (n : ℕ) : ℕ := (n + 7) / 8 * 8

/-- `CMSG_LEN`. -/
def cmsgLen (n : ℕ) : ℕ := cmsgAlign cmsghdrSize + n

/-- `CMSG_SPACE`. -/
def cmsgSpace (n : ℕ) : ℕ := cmsgAlign cmsghdrSize + cmsgAlign n

/-- The size of the arrays `buf` and `c_buffer`: `CMSG_SPACE(sizeof(int))`. -/
def controlBuf : ℕ := cmsgSpace 4

/-- `CMSG_FIRSTHDR`, as an offset; `none` is the null pointer. -/
def cmsgFirsthdr (controllen : ℕ) : Option ℕ := if cmsghdrSize ≤ controllen then some 0 else none

/-- `CMSG_DATA`, as an offset. -/
def cmsgData (cmsg : ℕ) : ℕ := cmsg + cmsgAlign cmsghdrSize

/-- The `int` at an offset of an array; `none` when it is not inside. -/
def loadIntAt {n : ℕ} (buf : Buf n) (off : ℕ) : Option ℤ :=
  if off + 4 ≤ n then some (loadInt ((buf.bytes.drop off).take 4)) else none

/-! ### `net.c` -/

/-- A `struct msghdr` as `sendmsg` gets it: the bytes of its one `iovec`, and the control buffer up
to `msg_controllen`. -/
structure Msghdr where
  iov : List UInt8
  control : List UInt8
deriving DecidableEq

/-- `forge_send_fd` up to its `sendmsg`; `none` is a write outside `buf`. -/
def sendMsghdr (fdToSend : ℤ) : Option Msghdr := do
  let buf := Buf.zeros controlBuf
  let cmsg ← cmsgFirsthdr controlBuf
  let buf ← buf.store (cmsg + 8) (storeInt solSocket)
  let buf ← buf.store (cmsg + 12) (storeInt scmRights)
  let buf ← buf.store cmsg (storeNat 8 (cmsgLen 4))
  let buf ← buf.store (cmsgData cmsg) (storeInt fdToSend)
  -- `msg.msg_controllen = cmsg->cmsg_len`
  pure ⟨ascii "F", buf.bytes.take (loadNat ((buf.bytes.drop cmsg).take 8))⟩

/-- What `recvmsg` has done: its result, the bytes it has written to the control buffer, and
`msg_controllen`. -/
structure Reply where
  n : ℤ
  written : List UInt8
  controllen : ℕ
deriving DecidableEq

/-- `forge_recv_fd` from its `recvmsg` on; `none` is a read outside `c_buffer`. -/
def recvFd (r : Reply) : Option ℤ := do
  let buf ← (Buf.zeros controlBuf).store 0 r.written
  if r.n ≤ 0 then pure (-1)
  else
    match cmsgFirsthdr r.controllen with
    | none => pure (-1)
    | some cmsg =>
      let level ← loadIntAt buf (cmsg + 8)
      let type ← loadIntAt buf (cmsg + 12)
      if level ≠ solSocket || type ≠ scmRights then pure (-1)
      else loadIntAt buf (cmsgData cmsg)

/-! ### The kernel -/

/-- What `sendmsg` passes, by the control buffer it is given: the `int`s of a message of the type
`SCM_RIGHTS`. -/
def passed (control : List UInt8) : Option (List ℤ) :=
  let len := loadNat (control.take 8)
  if cmsghdrSize ≤ len ∧ len ≤ control.length ∧ loadInt ((control.drop 8).take 4) = solSocket ∧
      loadInt ((control.drop 12).take 4) = scmRights then
    some ((List.range ((len - cmsghdrSize) / 4)).map fun i ↦
      loadInt ((control.drop (cmsghdrSize + 4 * i)).take 4))
  else none

/-- The number of descriptors a control buffer has room for. -/
def roomFor (controllen : ℕ) : ℕ := (controllen - cmsghdrSize) / 4

/-- The numbers under which `recvmsg` installs the descriptors of a datagram that passes `count` of
them, when `free` are the numbers it can hand out. -/
def installed (count : ℕ) (free : List ℤ) : List ℤ := (free.take count).take (roomFor controlBuf)

/-- What `recvmsg` leaves behind when it has installed descriptors; without any there is no control
message. -/
def Reply.rights (fds : List ℤ) : Reply :=
  if fds = [] then ⟨1, [], 0⟩
  else ⟨1, storeNat 8 (cmsgLen (4 * fds.length)) ++ storeInt solSocket ++ storeInt scmRights ++
    fds.flatMap storeInt, min controlBuf (cmsgSpace (4 * fds.length))⟩

/-- The `int` a reply has at an offset of the control buffer, where what is not written is 0. -/
def Reply.intAt (r : Reply) (off : ℕ) : ℤ :=
  loadInt (((r.written ++ List.replicate (controlBuf - r.written.length) 0).drop off).take 4)

/-- A reply as the loop of the worker takes it: `id` is the socket the descriptor refers to. -/
def Reply.message (r : Reply) (id : ConnId) : RecvMsg :=
  if r.n ≤ 0 then .failed
  else if r.controllen < cmsghdrSize then .message none
  else .message (some ⟨r.intAt 8 == solSocket, r.intAt 12 == scmRights, r.intAt 16, id⟩)

/-! ### The two ends -/

theorem roomFor_eq : roomFor controlBuf = 2 := by decide

/-- The control message of one descriptor. -/
def rightsMessage (fd : ℤ) : List UInt8 :=
  storeNat 8 (cmsgLen 4) ++ storeInt solSocket ++ storeInt scmRights ++ storeInt fd

theorem length_rightsMessage (fd : ℤ) : (rightsMessage fd).length = cmsgLen 4 := by
  simp only [rightsMessage, List.length_append, length_storeNat, length_storeInt]
  rfl

/-- The message `forge_send_fd` builds: all its writes are inside `buf`. -/
theorem sendMsghdr_eq (fd : ℤ) : sendMsghdr fd = some ⟨ascii "F", rightsMessage fd⟩ := by
  let pad (n : ℕ) : List UInt8 := List.replicate n 0
  have hzeros : (Buf.zeros controlBuf).bytes = pad 8 ++ pad 4 ++ pad 12 := rfl
  -- the fields in the order of the code: level, type, length, descriptor
  obtain ⟨b₁, h₁, hb₁⟩ : ∃ b, (Buf.zeros controlBuf).store 8 (storeInt solSocket) = some b ∧
      b.bytes = pad 8 ++ storeInt solSocket ++ pad 12 := Buf.store_split hzeros rfl rfl
  have hsplit₁ : b₁.bytes = (pad 8 ++ storeInt solSocket) ++ pad 4 ++ pad 8 := by
    rw [hb₁, List.append_assoc _ (pad 4)]
    rfl
  obtain ⟨b₂, h₂, hb₂⟩ : ∃ b, b₁.store 12 (storeInt scmRights) = some b ∧
      b.bytes = (pad 8 ++ storeInt solSocket) ++ storeInt scmRights ++ pad 8 :=
    Buf.store_split hsplit₁ rfl rfl
  have hsplit₂ : b₂.bytes = [] ++ pad 8 ++ (storeInt solSocket ++ storeInt scmRights ++ pad 8) := by
    simp only [hb₂, List.nil_append, List.append_assoc]
  obtain ⟨b₃, h₃, hb₃⟩ : ∃ b, b₂.store 0 (storeNat 8 (cmsgLen 4)) = some b ∧
      b.bytes = [] ++ storeNat 8 (cmsgLen 4) ++
        (storeInt solSocket ++ storeInt scmRights ++ pad 8) :=
    Buf.store_split hsplit₂ rfl rfl
  have hsplit₃ : b₃.bytes = (storeNat 8 (cmsgLen 4) ++ storeInt solSocket ++ storeInt scmRights) ++
      pad 4 ++ pad 4 := by
    simp only [hb₃, List.nil_append, List.append_assoc]
    rfl
  obtain ⟨b₄, h₄, hb₄⟩ : ∃ b, b₃.store 16 (storeInt fd) = some b ∧
      b.bytes = rightsMessage fd ++ pad 4 :=
    Buf.store_split hsplit₃ rfl rfl
  have hlen : loadNat ((b₄.bytes.drop 0).take 8) = cmsgLen 4 := by
    have htake : (b₄.bytes.drop 0).take 8 = storeNat 8 (cmsgLen 4) := by
      rw [List.drop_zero, hb₄, rightsMessage]
      simp only [List.append_assoc]
      exact List.take_left' (length_storeNat ..)
    rw [htake]
    exact loadNat_storeNat_of_lt (by decide)
  have hcontrol : b₄.bytes.take (loadNat ((b₄.bytes.drop 0).take 8)) = rightsMessage fd := by
    rw [hlen, hb₄]
    exact List.take_left' (length_rightsMessage fd)
  have hfirst : cmsgFirsthdr controlBuf = some 0 := rfl
  have hdata : cmsgData 0 = 16 := rfl
  simp only [sendMsghdr, hfirst, hdata, Option.bind_eq_bind, Option.bind_some, Nat.zero_add, h₁, h₂,
    h₃, h₄, hcontrol, Option.pure_def]

/-- Where the fields of a control message are. -/
theorem fields {len : List UInt8} (hlen : len.length = 8) (level type : ℤ) (data : List UInt8) :
    let control := len ++ storeInt level ++ storeInt type ++ data
    control.take 8 = len ∧ (control.drop 8).take 4 = storeInt level ∧
      (control.drop 12).take 4 = storeInt type ∧ control.drop 16 = data := by
  refine ⟨?_, ?_, ?_, ?_⟩
  · simp only [List.append_assoc]
    exact List.take_left' hlen
  · simp only [List.append_assoc]
    rw [List.drop_left' hlen]
    exact List.take_left' (length_storeInt _)
  · rw [List.append_assoc (len ++ storeInt level), List.drop_left' (by simp [hlen])]
    exact List.take_left' (length_storeInt _)
  · exact List.drop_left' (by simp [hlen])

/-- **What `forge_send_fd` passes** is its descriptor, and that alone. -/
theorem passed_rightsMessage {fd : ℤ} (hfd : IsInt fd) : passed (rightsMessage fd) = some [fd] := by
  obtain ⟨hlen, hlevel, htype, hdata⟩ :=
    fields (length_storeNat 8 (cmsgLen 4)) solSocket scmRights (storeInt fd)
  have hnat : loadNat ((rightsMessage fd).take 8) = cmsgLen 4 := by
    rw [rightsMessage, hlen]
    exact loadNat_storeNat_of_lt (by decide)
  have hcond : cmsghdrSize ≤ cmsgLen 4 ∧ cmsgLen 4 ≤ (rightsMessage fd).length ∧
      loadInt (((rightsMessage fd).drop 8).take 4) = solSocket ∧
      loadInt (((rightsMessage fd).drop 12).take 4) = scmRights := by
    rw [length_rightsMessage, rightsMessage, hlevel, htype]
    exact ⟨by decide, le_rfl, loadInt_storeInt (by decide), loadInt_storeInt (by decide)⟩
  have hint : loadInt (((rightsMessage fd).drop 16).take 4) = fd := by
    rw [rightsMessage, hdata, List.take_of_length_le (length_storeInt fd).le]
    exact loadInt_storeInt hfd
  simp only [passed, hnat, if_pos hcond]
  show some [loadInt (((rightsMessage fd).drop 16).take 4)] = some [fd]
  rw [hint]

/-- An `int` of the control buffer, after `recvmsg`. -/
theorem loadIntAt_written {r : Reply} {buf : Buf controlBuf}
    (hbuf : buf.bytes = r.written ++ List.replicate (controlBuf - r.written.length) 0) {off : ℕ}
    (hoff : off + 4 ≤ controlBuf) : loadIntAt buf off = some (r.intAt off) := by
  rw [loadIntAt, if_pos hoff, hbuf, Reply.intAt]

/-- **`forge_recv_fd` is what the worker's loop takes it for**, whatever `recvmsg` has written: all
its reads are inside `c_buffer`. -/
theorem recvFd_eq (r : Reply) (hr : r.written.length ≤ controlBuf) (id : ConnId) :
    recvFd r = some (forgeRecvFd (r.message id)) := by
  obtain ⟨buf, hstore, hbuf⟩ :=
    (Buf.zeros controlBuf).store_eq_some 0 r.written (by rwa [Nat.zero_add])
  have hbytes : buf.bytes = r.written ++ List.replicate (controlBuf - r.written.length) 0 := by
    have hdrop : (Buf.zeros controlBuf).bytes.drop r.written.length =
        List.replicate (controlBuf - r.written.length) 0 := List.drop_replicate
    rw [hbuf, List.take_zero, List.nil_append, Nat.zero_add, hdrop]
  simp only [recvFd, hstore, Option.bind_eq_bind, Option.bind_some]
  unfold Reply.message
  split
  · rfl
  · rw [cmsgFirsthdr]
    rcases Nat.lt_or_ge r.controllen cmsghdrSize with hlt | hle
    · rw [if_neg (not_le.2 hlt), if_pos hlt]
      rfl
    · rw [if_pos hle, if_neg (not_lt.2 hle)]
      have hlevel : loadIntAt buf 8 = some (r.intAt 8) := loadIntAt_written hbytes (by decide)
      have htype : loadIntAt buf 12 = some (r.intAt 12) := loadIntAt_written hbytes (by decide)
      have hfd : loadIntAt buf 16 = some (r.intAt 16) := loadIntAt_written hbytes (by decide)
      show (loadIntAt buf 8).bind _ = _
      rw [hlevel, Option.bind_some]
      show (loadIntAt buf 12).bind _ = _
      rw [htype, Option.bind_some]
      rw [show loadIntAt buf (cmsgData 0) = _ from hfd, forgeRecvFd]
      by_cases hl : r.intAt 8 = solSocket <;> by_cases ht : r.intAt 12 = scmRights <;> simp [hl, ht]

/-! ### The round trip -/

/-- The fields of a reply that begins with a control message. -/
theorem intAt_fields {r : Reply} {len rest : List UInt8} {level type fd : ℤ} (hlen : len.length = 8)
    (hr : r.written = len ++ storeInt level ++ storeInt type ++ (storeInt fd ++ rest))
    (hlevel : IsInt level) (htype : IsInt type) (hfd : IsInt fd) :
    r.intAt 8 = level ∧ r.intAt 12 = type ∧ r.intAt 16 = fd := by
  have hbytes : r.written ++ List.replicate (controlBuf - r.written.length) 0 =
      len ++ storeInt level ++ storeInt type ++ (storeInt fd ++ (rest ++
        List.replicate (controlBuf - r.written.length) 0)) := by
    rw [← List.append_assoc (storeInt fd), ← List.append_assoc _ (storeInt fd ++ rest), ← hr]
  obtain ⟨-, hfield₈, hfield₁₂, hfield₁₆⟩ := fields hlen level type
    (storeInt fd ++ (rest ++ List.replicate (controlBuf - r.written.length) 0))
  simp only [Reply.intAt, hbytes]
  refine ⟨?_, ?_, ?_⟩
  · rw [hfield₈, loadInt_storeInt hlevel]
  · rw [hfield₁₂, loadInt_storeInt htype]
  · rw [hfield₁₆, List.take_left' (length_storeInt fd), loadInt_storeInt hfd]

/-- **A reply with descriptors is read as the first of them.** -/
theorem message_rights {fd : ℤ} (hfd : IsInt fd) (fds : List ℤ) (id : ConnId) :
    (Reply.rights (fd :: fds)).message id = .message (some ⟨true, true, fd, id⟩) := by
  have hrights : Reply.rights (fd :: fds) = ⟨1, storeNat 8 (cmsgLen (4 * (fd :: fds).length)) ++
      storeInt solSocket ++ storeInt scmRights ++ (storeInt fd ++ fds.flatMap storeInt),
      min controlBuf (cmsgSpace (4 * (fd :: fds).length))⟩ := if_neg (List.cons_ne_nil _ _)
  have hroom : ¬ min controlBuf (cmsgSpace (4 * (fd :: fds).length)) < cmsghdrSize :=
    not_lt.2 (le_min (by decide) (Nat.le_add_right _ _))
  obtain ⟨hlevel, htype, hint⟩ := intAt_fields (r := Reply.rights (fd :: fds))
    (length_storeNat ..) (by rw [hrights]) (by decide) (by decide) hfd
  have hn : ¬ (Reply.rights (fd :: fds)).n ≤ 0 := by
    rw [hrights]
    exact not_le.2 Int.one_pos
  have hcontrollen : ¬ (Reply.rights (fd :: fds)).controllen < cmsghdrSize := by
    rw [hrights]
    exact hroom
  rw [Reply.message, if_neg hn, if_neg hcontrollen, hlevel, htype, hint]
  rfl

/-- What is installed fits into the control buffer. -/
theorem length_written_rights {fds : List ℤ} (h : fds.length ≤ roomFor controlBuf) :
    (Reply.rights fds).written.length ≤ controlBuf := by
  have hflat : ∀ fds : List ℤ, (fds.flatMap storeInt).length = 4 * fds.length := by
    intro fds
    simp [List.length_flatMap, Nat.mul_comm]
  have hroom : cmsghdrSize + 4 * roomFor controlBuf ≤ controlBuf := by decide
  rw [Reply.rights]
  split
  · exact Nat.zero_le _
  · simp only [List.length_append, length_storeNat, length_storeInt, hflat]
    have hsize : cmsghdrSize = 16 := rfl
    omega

/-- **Passing a descriptor, end to end.** For every descriptor, `forge_send_fd` writes its message
inside its buffer, and the message passes this descriptor alone. When `recvmsg` delivers it, under
the first number that is free or with none left, at most one number is installed; `forge_recv_fd`
reads inside its buffer and returns that number, or -1; and the worker's loop sees the datagram of
the connection, or what is left of it. -/
theorem fd_passing (fd : ℤ) (hfd : IsInt fd) (id : ConnId) (free : List ℤ)
    (hfree : ∀ z ∈ free, IsInt z) :
    ∃ msg, sendMsghdr fd = some msg ∧ passed msg.control = some [fd] ∧
      installed 1 free = free.head?.toList ∧
      recvFd (.rights (installed 1 free)) = some (free.headD (-1)) ∧
      (Reply.rights (installed 1 free)).message id =
        (free.head?.elim Datagram.cut Datagram.msg) (.rights id) := by
  refine ⟨_, sendMsghdr_eq fd, passed_rightsMessage hfd, ?_⟩
  rcases free with - | ⟨z, free⟩
  · exact ⟨rfl, rfl, rfl⟩
  · have hz := hfree z List.mem_cons_self
    have hone : installed 1 (z :: free) = [z] := by
      rw [installed, List.take_succ_cons, List.take_zero, roomFor_eq]
      rfl
    have hmsg := message_rights hz [] id
    have hfit : (Reply.rights [z]).written.length ≤ controlBuf :=
      length_written_rights (roomFor_eq ▸ Nat.le_succ 1)
    rw [hone]
    refine ⟨rfl, ?_, hmsg⟩
    rw [recvFd_eq _ hfit id, hmsg]
    rfl

/-- Descriptor 9 of the master becomes descriptor 5 of the worker. -/
theorem fd_passing_nine :
    ∃ msg, sendMsghdr 9 = some msg ∧ passed msg.control = some [9] ∧
      recvFd (.rights (installed 1 [5])) = some 5 := by
  obtain ⟨msg, hsend, hpassed, -, hrecv, -⟩ := fd_passing 9 (by decide) 0 [5] (by decide)
  exact ⟨msg, hsend, hpassed, hrecv⟩

/-- **A second descriptor in a datagram would be lost**: it is installed too, and `forge_recv_fd`
returns the first. -/
theorem second_unseen {a b : ℤ} (ha : IsInt a) {count : ℕ} (hcount : 2 ≤ count) (free : List ℤ) :
    installed count (a :: b :: free) = [a, b] ∧
      recvFd (.rights (installed count (a :: b :: free))) = some a := by
  obtain ⟨k, rfl⟩ := Nat.exists_eq_add_of_le' hcount
  have htwo : installed (k + 2) (a :: b :: free) = [a, b] := by
    rw [installed, roomFor_eq, List.take_succ_cons, List.take_succ_cons]
    rfl
  have hfit : (Reply.rights [a, b]).written.length ≤ controlBuf :=
    length_written_rights (roomFor_eq ▸ Nat.le_refl 2)
  refine ⟨htwo, ?_⟩
  rw [htwo, recvFd_eq _ hfit 0, message_rights ha]
  rfl

end ForgeServer
