import ForgeServer.Bytes.CString

/-!
# The data of the server

The constants and structures of `forge.h`, what the kernel answers to one call of the server, and
the trace of system calls a call leaves.

Machine arithmetic that can wrap is explicit: `sizeSub` is subtraction of `size_t`. A descriptor is
an `int`, as in the source, since `conn_close` tests `c->fd >= 0`.

**What the kernel answers.** A `Kernel` is everything the outside decides during one call of
`handle_read`: the bytes or error of the one `read`, the result of `open` and `fstat` for any name,
the result of the one `write`, and the results of the successive `sendfile` calls. A count is an
offer: the call is answered with the offer cut down to the length asked for, which is what POSIX
promises of `read`, `write` and `sendfile` and no more. A list of `sendfile` results that runs out
while the loop still sends is a call that has not returned yet.
-/

namespace ForgeServer

open CStr

/-- `RECV_BUF`. -/
def recvBuf : ℕ := 8192

/-- `HDR_BUF`. -/
def hdrBuf : ℕ := 2048

/-- The size of the array `fs` in `http_send_static_file`. -/
def fsBuf : ℕ := 2048

theorem recvBuf_eq : recvBuf = 8192 := rfl

theorem hdrBuf_eq : hdrBuf = 2048 := rfl

/-- Subtraction of two values of type `size_t`. -/
def sizeSub (a b : ℕ) : ℕ := if b ≤ a then a - b else a + 2 ^ 64 - b

theorem sizeSub_eq {a b : ℕ} (h : b ≤ a) : sizeSub a b = a - b := if_pos h

/-! ### `forge.h` -/

/-- `http_req_t`. -/
structure HttpReq where
  method : Buf 8
  path : Buf 1024
  version : Buf 16
  keepAlive : Bool
  headerBytes : ℕ
deriving DecidableEq

/-- What the strings and fields of an `http_req_t` say. -/
structure Request where
  method : List UInt8
  path : List UInt8
  version : List UInt8
  keepAlive : Bool
  headerBytes : ℕ
deriving DecidableEq

/-- The request an `http_req_t` holds, `none` when one of its arrays is not NUL-terminated. -/
def HttpReq.request (r : HttpReq) : Option Request := do
  let method ← cstr r.method.bytes
  let path ← cstr r.path.bytes
  let version ← cstr r.version.bytes
  pure ⟨method, path, version, r.keepAlive, r.headerBytes⟩

theorem HttpReq.request_eq_some {req : HttpReq} {r : Request} :
    req.request = some r ↔ cstr req.method.bytes = some r.method ∧
      cstr req.path.bytes = some r.path ∧ cstr req.version.bytes = some r.version ∧
      req.keepAlive = r.keepAlive ∧ req.headerBytes = r.headerBytes := by
  simp only [HttpReq.request, Option.bind_eq_bind, Option.bind_eq_some_iff, Option.pure_def,
    Option.some.injEq]
  constructor
  · rintro ⟨m, hm, p, hp, v, hv, rfl⟩
    exact ⟨hm, hp, hv, rfl, rfl⟩
  · rintro ⟨hm, hp, hv, hka, hhb⟩
    exact ⟨_, hm, _, hp, _, hv, by rw [hka, hhb]⟩

/-- `forge_conn_t`. -/
structure ForgeConn where
  fd : ℤ
  rbuf : Buf recvBuf
  rlen : ℕ
  keepAlive : Bool
deriving DecidableEq

/-- A connection as the event loop sets it up: `calloc`, then the three assignments. -/
def ForgeConn.fresh (fd : ℤ) : ForgeConn where
  fd := fd
  rbuf := Buf.zeros recvBuf
  rlen := 0
  keepAlive := true

/-- The bytes received and not yet consumed. -/
def ForgeConn.received (c : ForgeConn) : List UInt8 := c.rbuf.bytes.take c.rlen

/-- `forge_cfg_t`, with the values `main` starts from. -/
structure ForgeCfg where
  listenHostport : List UInt8 := ascii "0.0.0.0:8080"
  docRoot : List UInt8 := ascii "./public"
  workers : ℤ := 4
  listenFd : ℤ := -1
  controlFd : ℤ := -1

/-! ### What the kernel answers -/

/-- The values of `errno` the code distinguishes, and the others. -/
inductive Errno
  | eagain
  | eintr
  | other (n : ℕ)
deriving DecidableEq

/-- `errno == EAGAIN || errno == EWOULDBLOCK`. -/
def Errno.wouldBlock (e : Errno) : Bool := e = .eagain

/-- The answer to a `read`: bytes, none of them at the end of the stream, or an error. -/
inductive ReadResult
  | bytes (bs : List UInt8)
  | error (e : Errno)
deriving DecidableEq

/-- The answer to a `write` or `sendfile`: a count or an error. -/
inductive IoResult
  | count (n : ℕ)
  | error (e : Errno)
deriving DecidableEq

/-- What an offer comes to when `asked` bytes were asked for. -/
def IoResult.upTo (asked : ℕ) : IoResult → IoResult
  | .count n => .count (min n asked)
  | .error e => .error e

/-- The count, `0` for an error. -/
def IoResult.done : IoResult → ℕ
  | .count n => n
  | .error _ => 0

/-- What `fstat` reports: `S_ISREG` and `st_size`, a nonnegative `off_t`. -/
structure Stat where
  isReg : Bool
  size : ℕ
  size_lt : size < 2 ^ 63
deriving DecidableEq

/-- An opened file: its descriptor, the answer of `fstat` (`none` when it fails), its bytes. -/
structure File where
  fd : ℤ
  stat : Option Stat
  byteAt : ℕ → UInt8

/-- The bytes of a file from offset `off` on. -/
def File.slice (f : File) (off n : ℕ) : List UInt8 := (List.range n).map fun i ↦ f.byteAt (off + i)

/-- Everything the outside decides during one call of `handle_read`. `stack` is what the
uninitialised local `http_req_t req` holds. -/
structure Kernel where
  read : ReadResult
  openFile : List UInt8 → Option File
  write : IoResult
  sendfile : List IoResult
  stack : HttpReq

/-- The answers of the concrete runs below: bytes are handed over, no file opens, every write is
done in full. -/
def Kernel.offering (bs : List UInt8) : Kernel where
  read := .bytes bs
  openFile _ := none
  write := .count hdrBuf
  sendfile := []
  stack := ⟨Buf.zeros 8, Buf.zeros 1024, Buf.zeros 16, false, 0⟩

/-- An empty regular file. -/
def emptyFile : File := ⟨7, some ⟨true, 0, by decide⟩, fun _ ↦ 0⟩

/-- The same answers, but every name opens an empty file. -/
def Kernel.serving (bs : List UInt8) : Kernel :=
  { Kernel.offering bs with openFile := fun _ ↦ some emptyFile }

/-! ### The trace -/

/-- A system call with its answer. A `write` carries the characters stored in the buffer it is
given and the length passed; a `sendfile` the bytes it moved. -/
inductive Sys
  | read (fd : ℤ) (off count : ℕ) (res : ReadResult)
  | openFile (name : List UInt8) (res : Option ℤ)
  | fstat (fd : ℤ) (res : Option Stat)
  | write (fd : ℤ) (buf : List UInt8) (n : ℕ) (res : IoResult)
  | sendfile (out : ℤ) (file : ℤ) (off count : ℕ) (res : IoResult) (moved : List UInt8)
  | cork (fd : ℤ) (on : Bool)
  | close (fd : ℤ)
  | epollDel (fd : ℤ)
  | free
deriving DecidableEq

/-- The bytes a system call puts on a socket. -/
def Sys.sent (sock : ℤ) : Sys → List UInt8
  | .write fd buf n res => if fd = sock then (buf.take n).take res.done else []
  | .sendfile out _ _ _ _ moved => if out = sock then moved else []
  | _ => []

/-- The bytes a list of system calls puts on a socket. -/
def written (sock : ℤ) (calls : List Sys) : List UInt8 := calls.flatMap (Sys.sent sock)

@[simp] theorem written_nil (sock : ℤ) : written sock [] = [] := rfl

@[simp] theorem written_cons (sock : ℤ) (x : Sys) (calls : List Sys) :
    written sock (x :: calls) = x.sent sock ++ written sock calls := rfl

@[simp] theorem written_append (sock : ℤ) (xs ys : List Sys) :
    written sock (xs ++ ys) = written sock xs ++ written sock ys :=
  List.flatMap_append

/-- The names a list of system calls opens. -/
def opened (calls : List Sys) : List (List UInt8) :=
  calls.filterMap fun
    | .openFile name _ => some name
    | _ => none

@[simp] theorem opened_nil : opened [] = [] := rfl

@[simp] theorem opened_append (xs ys : List Sys) :
    opened (xs ++ ys) = opened xs ++ opened ys :=
  List.filterMap_append

/-- The descriptors a list of system calls opens. -/
def openedFds (calls : List Sys) : List ℤ :=
  calls.filterMap fun
    | .openFile _ (some fd) => some fd
    | _ => none

@[simp] theorem openedFds_append (xs ys : List Sys) :
    openedFds (xs ++ ys) = openedFds xs ++ openedFds ys :=
  List.filterMap_append

end ForgeServer
