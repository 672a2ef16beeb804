import ForgeServer.Bytes.Frames
import ForgeServer.Http.KeepAlive

/-!
# Streams of requests

The parser as the reader of a stream: `readRequest` calls `http_try_parse_request` on what was
received, with the NUL behind it, and goes on `header_bytes` further, where the `memmove` of
`handle_read` puts the next request. `requests_read_back` says that accepted blocks one behind the
other, and then anything without a complete block, read back as exactly their requests; so there is
one way only to cut a stream into requests, and no bytes of one can be taken for the start of the
next.

It rests on `requestOf_append`: what follows an accepted block has no part in it.
-/

namespace ForgeServer

open CStr

/-- A block that `http_try_parse_request` accepts, with the request it is. -/
structure AcceptedBlock where
  bytes : List UInt8
  request : Request
  isBlock : IsBlock bytes
  accepted : ∀ out, ∃ req, httpTryParseRequest (bytes ++ [0]) bytes.length out = some (true, req) ∧
    req.request = some request

/-- An `http_req_t` before it is filled in. -/
def HttpReq.blank : HttpReq := ⟨Buf.zeros 8, Buf.zeros 1024, Buf.zeros 16, false, 0⟩

/-- The request at the front of what was received, and what is behind its header. -/
def readRequest (s : List UInt8) : Option (Request × List UInt8) :=
  match httpTryParseRequest (s ++ [0]) s.length HttpReq.blank with
  | some (true, req) => req.request.map fun r ↦ (r, s.drop r.headerBytes)
  | _ => none

/-- The requests of a stream, and what is left behind the last complete one. -/
def readRequests (s : List UInt8) : List Request × List UInt8 :=
  List.readFrames readRequest s.length s

theorem readRequest_eq (s : List UInt8) :
    readRequest s = (requestOf (s ++ [0]) s.length).map fun r ↦ (r, s.drop r.headerBytes) := by
  obtain ⟨out, hparse, hreq, -⟩ :=
    httpTryParseRequest_spec (show s.length ≤ (s ++ [0]).length by simp) (by simp) HttpReq.blank
  rw [readRequest, hparse]
  rcases h : requestOf (s ++ [0]) s.length with - | r
  · rfl
  · simp only [Option.isSome_some, hreq r h]

namespace AcceptedBlock

variable (b : AcceptedBlock)

theorem requestOf_eq : requestOf (b.bytes ++ [0]) b.bytes.length = some b.request :=
  requestOf_of_accepts (by simp) (by simp) b.accepted

/-- **An accepted block reads back**, whatever follows it. -/
theorem readRequest_append (t : List UInt8) : readRequest (b.bytes ++ t) = some (b.request, t) := by
  have h0 : 0 ∈ b.bytes ++ (t ++ [0]) := by simp
  have hreq : requestOf (b.bytes ++ (t ++ [0])) (b.bytes ++ t).length = some b.request :=
    requestOf_append b.isBlock b.requestOf_eq h0 (by simp)
  have hbytes : b.request.headerBytes = b.bytes.length :=
    headerBytes_of_block b.isBlock h0 (by simp) hreq
  rw [readRequest_eq, List.append_assoc, hreq, Option.map_some, hbytes, List.drop_left]

end AcceptedBlock

/-- Every well-formed block is accepted, with a request that has its words. -/
def RequestBlock.accepted (b : RequestBlock) : AcceptedBlock where
  bytes := b.bytes
  request := ⟨b.method, b.path, b.version, lastDecision (everySecond b.headerBytes) b.http11,
    b.bytes.length⟩
  isBlock := b.isBlock
  accepted out := by
    obtain ⟨req, hparse, hreq, -⟩ :=
      httpTryParseRequest_spec (show b.bytes.length ≤ (b.bytes ++ [0]).length by simp) (by simp) out
    rw [b.requestOf_bytes [0] (by simp)] at hparse hreq
    exact ⟨req, hparse, hreq _ rfl⟩

/-- Without a complete block nothing is read. -/
theorem readRequest_of_open {s : List UInt8} (h : ¬ crlfcrlf <:+: s) : readRequest s = none := by
  rw [readRequest_eq, requestOf_of_not_mem (by rwa [List.take_left]), Option.map_none]

theorem readRequests_append {bs : List AcceptedBlock} {tail : List UInt8}
    (htail : ¬ crlfcrlf <:+: tail) :
    readRequests (bs.flatMap AcceptedBlock.bytes ++ tail) =
      (bs.map AcceptedBlock.request, tail) := by
  refine List.readFrames_flatMap AcceptedBlock.request (fun b _ hnil ↦ ?_)
    (fun b _ t ↦ b.readRequest_append t) (readRequest_of_open htail) le_rfl
  have hfour := b.isBlock.four_le_length
  rw [hnil, List.length_nil] at hfour
  omega

/-- **A stream of requests reads back**, and in one way only: accepted blocks, and then anything
without a complete block, are read as exactly the requests of the blocks, with the rest left over;
and if the same bytes are cut into accepted blocks and a rest once more, it is the same cut. -/
theorem requests_read_back (bs : List AcceptedBlock) (tail : List UInt8)
    (htail : ¬ crlfcrlf <:+: tail) :
    readRequests (bs.flatMap AcceptedBlock.bytes ++ tail) =
        (bs.map AcceptedBlock.request, tail) ∧
      ∀ (bs' : List AcceptedBlock) (tail' : List UInt8), ¬ crlfcrlf <:+: tail' →
        bs'.flatMap AcceptedBlock.bytes ++ tail' = bs.flatMap AcceptedBlock.bytes ++ tail →
        bs'.map AcceptedBlock.bytes = bs.map AcceptedBlock.bytes ∧ tail' = tail := by
  refine ⟨readRequests_append htail, fun bs' tail' htail' heq ↦ ?_⟩
  have hread : readRequests (bs'.flatMap AcceptedBlock.bytes ++ tail') =
      (bs'.map AcceptedBlock.request, tail') := readRequests_append htail'
  rw [heq, readRequests_append htail, Prod.mk.injEq] at hread
  obtain ⟨hrequests, rfl⟩ := hread
  refine ⟨List.eq_iff_flatten_eq.2 ⟨?_, ?_⟩, rfl⟩
  · exact List.append_cancel_right heq
  · -- where a block ends is in its request
    have hlen : ∀ b : AcceptedBlock, b.bytes.length = b.request.headerBytes := fun b ↦
      (headerBytes_of_block b.isBlock (by simp) le_rfl b.requestOf_eq).symm
    have hlens : ∀ bs : List AcceptedBlock, (bs.map AcceptedBlock.bytes).map List.length =
        (bs.map AcceptedBlock.request).map Request.headerBytes := fun bs ↦ by
      rw [List.map_map, List.map_map]
      exact List.map_congr_left fun b _ ↦ hlen b
    rw [hlens, hlens, hrequests]

/-- A request for `/a`, with no header. -/
def blockA : RequestBlock :=
  { oddBlock with
    path := ascii "/a"
    headers := []
    isWord_path := ⟨by decide, by decide +kernel⟩
    path_le := by decide
    no_nul := ⟨oddBlock.no_nul.1, by decide, oddBlock.no_nul.2.2⟩
    isHeaderLine := by simp }

/-- Two requests, and the start of a third. -/
theorem requests_read_back_two :
    readRequests ((blockA.bytes ++ blockA.bytes) ++ ascii "GET /") =
      ([blockA.accepted.request, blockA.accepted.request], ascii "GET /") :=
  (requests_read_back [blockA.accepted, blockA.accepted] (ascii "GET /") (by decide)).1

end ForgeServer
