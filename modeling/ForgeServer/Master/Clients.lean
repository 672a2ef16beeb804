import ForgeServer.Http.Reading
import ForgeServer.Http.RequestStream
import ForgeServer.Server.DocumentRoot
import ForgeServer.Server.FileName
import ForgeServer.Server.Pipelining
import ForgeServer.Server.Replies
import ForgeServer.Master.Lifecycle

/-!
# What a client of the server gets

The results on a single connection, carried over to the whole server by its refinement
(`life_run_start`): the master, the control sockets, the workers and all other clients are in the
run, in any order of their steps.

* `clients_do_not_interfere`: the calls made for a connection are a function of the events that are
  handled for it and of the descriptor it is registered under, in any two runs of any two servers
  with the same document root.
* `client_reads_replies`: what a client reads off its connection, by the bytes alone, is one
  response for each of its requests, in their order, header and body.
* `client_gets_files`: a client that sends requests for files, and has each answered before it sends
  the next, reads back the files it asked for.
-/

namespace ForgeServer

open CStr Machine PathWalk

/-! ### The connection in the run -/

variable {cfg : ForgeCfg} {cap : ℕ} {fds : List ℤ} {is : List SysInput} {outs : List SysOutput}
  {s : System} {id : ConnId}

/-- **A connection in the server is served as if it were alone**, from its registration on. -/
theorem served_alone
    (hrun : (forgeMachine cfg cap).run (.start cfg fds) is = some (outs, s)) (id : ConnId) :
    ((∀ fd, .taken (some fd) ∉ lifeOf cfg cap fds id is) ∧
        servedEvents (lifeOf cfg cap fds id is) = [] ∧ servedTurns id outs = []) ∨
      ∃ fd cs, (∀ fd', .taken (some fd') ∈ lifeOf cfg cap fds id is ↔ fd' = fd) ∧
        (connMachine cfg).run (.registered (.fresh fd)) (servedEvents (lifeOf cfg cap fds id is)) =
          some (servedTurns id outs, cs) := by
  obtain ⟨os, stage, hstage, hturns, -⟩ := life_run_start hrun id
  rw [← hturns]
  exact run_unserved (fun _ ↦ Stage.noConfusion) hstage

/-- What is done for a connection that was registered under `fd`. -/
theorem served_run (hrun : (forgeMachine cfg cap).run (.start cfg fds) is = some (outs, s))
    {fd : ℤ} (hfd : .taken (some fd) ∈ lifeOf cfg cap fds id is) :
    ∃ cs, (connMachine cfg).run (.registered (.fresh fd))
      (servedEvents (lifeOf cfg cap fds id is)) = some (servedTurns id outs, cs) := by
  rcases served_alone hrun id with ⟨hno, -⟩ | ⟨fd', cs, honly, hconn⟩
  · exact absurd hfd (hno fd)
  · obtain rfl := (honly fd).1 hfd
    exact ⟨cs, hconn⟩

/-! ### One client and the others -/

/-- The document root is all that a connection needs of the configuration. -/
theorem connMachine_congr {cfg' : ForgeCfg} (h : cfg.docRoot = cfg'.docRoot) :
    connMachine cfg = connMachine cfg' := by
  have hread : handleRead cfg = handleRead cfg' := by
    funext k c
    simp only [handleRead, afterRead, serveGet, h]
  have hevent : clientEvent cfg = clientEvent cfg' := by
    funext e c
    rw [clientEvent, clientEvent, hread]
  rw [connMachine, connMachine, hevent]

/-- **Clients do not interfere.** In any two runs of any two servers with the same document root,
whatever their workers and other clients are and do, two connections that are registered under the
same descriptor, and for which the same events are handled, are served alike. -/
theorem clients_do_not_interfere (cfg cfg' : ForgeCfg) (hroot : cfg.docRoot = cfg'.docRoot)
    (cap cap' : ℕ) (fds fds' : List ℤ) (is is' : List SysInput) (outs outs' : List SysOutput)
    (s s' : System) (hrun : (forgeMachine cfg cap).run (.start cfg fds) is = some (outs, s))
    (hrun' : (forgeMachine cfg' cap').run (.start cfg' fds') is' = some (outs', s'))
    (id id' : ConnId)
    (hevents : servedEvents (lifeOf cfg cap fds id is) =
      servedEvents (lifeOf cfg' cap' fds' id' is'))
    (hfd : ∀ fd fd', .taken (some fd) ∈ lifeOf cfg cap fds id is →
      .taken (some fd') ∈ lifeOf cfg' cap' fds' id' is' → fd = fd') :
    servedTurns id outs = servedTurns id' outs' := by
  have hnil : ∀ {fd : ℤ} {ts : List Turn} {cs : ConnState} {es : List ConnEvent}, es = [] →
      (connMachine cfg).run (.registered (.fresh fd)) es = some (ts, cs) → ts = [] := by
    rintro fd ts cs _ rfl hconn
    exact (Prod.mk.inj (Option.some.inj hconn)).1.symm
  rcases served_alone hrun id with ⟨-, hev, hturns⟩ | ⟨fd, cs, honly, hconn⟩ <;>
    rcases served_alone hrun' id' with ⟨-, hev', hturns'⟩ | ⟨fd', cs', honly', hconn'⟩
  · rw [hturns, hturns']
  · rw [← connMachine_congr hroot] at hconn'
    rw [hturns, hnil (hevents.symm.trans hev) hconn']
  · rw [hturns', hnil (hevents.trans hev') hconn]
  · obtain rfl := hfd fd fd' ((honly fd).2 rfl) ((honly' fd').2 rfl)
    rw [← connMachine_congr hroot, ← hevents, hconn, Option.some.injEq] at hconn'
    exact (Prod.mk.inj hconn').1

/-- A server with one worker, where the first client could not be sent to it and the second one is
registered as the client of `oneRegistered` is. -/
def secondRegistered : List SysInput :=
  [.master (.epollWait (.events 1)), .master (.accept4 (.client 9)), .master (.sendFd true),
    .master .close, .master (.accept4 (.client 9)), .master (.sendFd false),
    .worker 0 (.wait [.control]), .worker 0 .enter, .recv 0 (.installed 5) (some 32) true,
    .recv 0 .failed none false, .worker 0 (.wait [.client 5 ⟨true, false, false, false⟩])]

def secondClient (k : Kernel) : List SysInput := secondRegistered ++ [.worker 0 (.client k)]

theorem lifeOf_secondClient (k : Kernel) :
    lifeOf { workers := 1 } 1 [3, 4] 1 (secondClient k) =
      [.accepted, .offered true, .taken (some 5), .event (.readable k)] := by
  obtain ⟨outs, s, hrun, hview⟩ : ∃ outs s,
      (forgeMachine { workers := 1 } 1).run (.start { workers := 1 } [3, 4]) secondRegistered =
          some (outs, s) ∧
        s.view { workers := 1 } 1 1 (.worker 0 (.client k)) = [.event (.readable k)] :=
    ⟨_, _, rfl, rfl⟩
  rw [lifeOf, secondClient, viewed_concat hrun, hview]
  rfl

theorem clients_do_not_interfere_two :
    ∃ outs s outs' s',
      (forgeMachine {} 10).run (.start {} [3, 4])
        (oneClient (.serving (ascii "GET /a HTTP/1.1\r\n\r\n"))) = some (outs, s) ∧
      (forgeMachine { workers := 1 } 1).run (.start { workers := 1 } [3, 4])
        (secondClient (.serving (ascii "GET /a HTTP/1.1\r\n\r\n"))) = some (outs', s') ∧
      servedTurns 0 outs = servedTurns 1 outs' := by
  obtain ⟨outs, s, hrun⟩ := run_oneClient
  have hsome : ((forgeMachine { workers := 1 } 1).run (.start { workers := 1 } [3, 4])
      (secondClient (.serving (ascii "GET /a HTTP/1.1\r\n\r\n")))).isSome := by
    decide +kernel
  obtain ⟨⟨outs', s'⟩, hrun'⟩ := Option.isSome_iff_exists.1 hsome
  refine ⟨outs, s, outs', s', hrun, hrun', clients_do_not_interfere {} { workers := 1 } rfl 10 1
    [3, 4] [3, 4] _ _ outs outs' s s' hrun hrun' 0 1 ?_ fun fd fd' hfd hfd' ↦ ?_⟩
  · rw [lifeOf_oneClient, lifeOf_secondClient]
  · rw [lifeOf_oneClient] at hfd
    rw [lifeOf_secondClient] at hfd'
    simp only [List.mem_cons, StageInput.taken.injEq, Option.some.injEq, reduceCtorEq,
      List.not_mem_nil, or_false, false_or] at hfd hfd'
    rw [hfd, hfd']

/-! ### What the workers do -/

/-- **What a worker does for a client**: it is an event of a connection in its bookkeeping, and the
connection is one that is the worker's by the round robin. -/
theorem worker_output {Q : Turn → Prop} (hQ : ∀ c e, ConnInv c → Q (clientEvent cfg e c))
    (hrun : (forgeMachine cfg cap).run (.start cfg fds) is = some (outs, s)) {n : ℕ}
    {t : Turn} (hmem : .worker n (some (id, t)) ∈ outs) : Q t ∧ n = id % cfg.workerCount := by
  have hloop : ∀ {l : Link} {st st' : LoopState} {j : LoopInput} {o : Option (ConnId × Turn)},
      LinkInv l → l.loop = some st → (loopMachine cfg).step st j = some (o, st') →
      ∀ x t, o = some (x, t) → Q t ∧ x ∈ l.sent := by
    rintro l st st' j o hl hst hstep x t rfl
    obtain ⟨hinv, w, hw, hledger, -⟩ := hl.running st hst
    have hworker : l.worker? = some w := by rw [Link.worker?, hst]; exact hw
    cases st with
    | fault => exact absurd hw (by simp [LoopState.worker?])
    | sending w₀ => exact absurd hstep (by simp [loopMachine])
    | running w₀ receiving pending =>
      obtain rfl : w₀ = w := Option.some.inj hw
      cases loop_cases hinv.1 hinv.2 hstep with
      | kept a flags _ k o ho | closed a flags _ k o ho | sending a flags _ k o ho =>
        obtain ⟨hholds, hc⟩ := hinv.1.holds a o ho
        exact ⟨hQ _ _ hc, (hl.mem_of_open hworker hholds.table).1⟩
  refine run_output (P := System.Inv cfg)
    (Q := fun out ↦ ∀ n x t, out = .worker n (some (x, t)) → Q t ∧ n = x % cfg.workerCount)
    (fun s i out s' hs hstep ↦ ⟨system_inv_step hs (sys_cases hstep), ?_⟩) (.start cfg fds) hrun _
    hmem n id t rfl
  rintro n x t rfl
  cases sys_cases hstep with
  | recv _ r calloc added st st' hst m queue lost hdeliver _ hone
  | worker _ j hj st st' hst _ hone =>
    obtain ⟨hq, hsent⟩ := hloop (hs.link n) hst hone x t rfl
    exact ⟨hq, (hs.master.sent n x hsent).2.symm⟩

/-- **No client makes any worker open a file but the one it asks for, below the document root**, in
any run of the server, with a document root of up to 1023 bytes; and only the worker whose turn the
connection was opens files for it. -/
theorem workers_open_below_root (cfg : ForgeCfg) (hroot : cfg.docRoot.length ≤ 1023) (cap : ℕ)
    (fds : List ℤ) (is : List SysInput) (outs : List SysOutput) (s : System)
    (hrun : (forgeMachine cfg cap).run (.start cfg fds) is = some (outs, s)) (n : ℕ) (id : ConnId)
    (t : Turn) (hmem : .worker n (some (id, t)) ∈ outs) :
    n = id % cfg.workerCount ∧ ∀ name ∈ opened t.calls, ∃ r tail, t.request = some r ∧
      name = askedName cfg.docRoot r.path ∧ name = cfg.docRoot ++ 47 :: tail ∧
      NeverRises 47 46 tail := by
  obtain ⟨⟨hbelow, hasked⟩, hn⟩ := worker_output
    (Q := fun t ↦ t.OpensBelow cfg.docRoot ∧ t.OpensAsked cfg.docRoot)
    (fun c e hc ↦ ⟨opensBelow_clientEvent hc cfg e, opensAsked_clientEvent hc hroot e⟩) hrun hmem
  refine ⟨hn, fun name hname ↦ ?_⟩
  obtain ⟨r, tail, hreq, htext, hwalk, -⟩ := hbelow name hname
  obtain ⟨r', hreq', hname'⟩ := hasked name hname
  obtain rfl := Option.some.inj (hreq.symm.trans hreq')
  exact ⟨r, tail, hreq, hname', by rw [hname', ← fsText_eq_askedName, htext], hwalk⟩

/-- The client of the run asks for a file. -/
theorem run_oneFile :
    ∃ outs s, (forgeMachine {} 10).run (.start {} [3, 4]) (oneClient (.serving blockA.bytes)) =
      some (outs, s) := by
  rw [show blockA.bytes = ascii "GET /a HTTP/1.1\r\n\r\n" by decide]
  exact run_oneClient

/-- The client of the run asks for `/a`. -/
theorem workers_open_below_root_one :
    ∃ outs s n t, (forgeMachine {} 10).run (.start {} [3, 4]) (oneClient (.serving blockA.bytes)) =
        some (outs, s) ∧ .worker n (some (0, t)) ∈ outs ∧ opened t.calls = [ascii "./public/a"] ∧
      n = 0 % ({} : ForgeCfg).workerCount ∧ ∀ name ∈ opened t.calls, ∃ r tail,
        t.request = some r ∧ name = askedName ({} : ForgeCfg).docRoot r.path ∧
          name = ({} : ForgeCfg).docRoot ++ 47 :: tail ∧ NeverRises 47 46 tail := by
  obtain ⟨outs, s, hrun⟩ := run_oneFile
  obtain ⟨n, hmem⟩ := mem_servedTurns.1
    (show handleRead {} (.serving blockA.bytes) (.fresh 5) ∈ servedTurns 0 outs by
      rw [servedTurns_oneClient hrun]
      exact List.mem_singleton_self _)
  exact ⟨outs, s, n, _, hrun, hmem, by decide +kernel,
    workers_open_below_root {} (by decide) 10 [3, 4] _ outs s hrun n 0 _ hmem⟩

/-! ### What a client reads -/

/-- **A client reads one response for each request**, by the bytes alone, in every run of the server
and whatever the kernel answers to the writes: the responses to its accepted requests in their
order, with the status, the length, the media type and the fate of the connection off the header and
with the body behind it. At most the last of them is cut. -/
theorem client_reads_replies (cfg : ForgeCfg) (cap : ℕ) (fds : List ℤ) (is : List SysInput)
    (outs : List SysOutput) (s : System)
    (hrun : (forgeMachine cfg cap).run (.start cfg fds) is = some (outs, s)) (id : ConnId)
    (fd : ℤ) (hfd : .taken (some fd) ∈ lifeOf cfg cap fds id is) :
    ReadsReplies (replies cfg (servedEvents (lifeOf cfg cap fds id is)) (servedTurns id outs))
      (sentStream fd (servedTurns id outs)) := by
  obtain ⟨cs, hconn⟩ := served_run hrun hfd
  exact (replied_run (.fresh fd) hconn).reads

/-- A file of five bytes. -/
def helloFile : File := ⟨7, some ⟨true, 5, by decide⟩, fun i ↦ (ascii "hello").getD i 0⟩

/-- Every name opens the file, which is sent in two parts. -/
def Kernel.servingHello (bs : List UInt8) : Kernel :=
  { Kernel.offering bs with
    openFile := fun _ ↦ some helloFile
    sendfile := [.count 2, .count 3] }

/-- A request for `/b.html`, with no header. -/
def blockB : RequestBlock :=
  { blockA with
    path := ascii "/b.html"
    isWord_path := ⟨by decide, by decide +kernel⟩
    path_le := by decide
    no_nul := ⟨blockA.no_nul.1, by decide, blockA.no_nul.2.2⟩ }

/-- The client of `oneRegistered` asks for two files, one after the other. -/
def twoFiles : List SysInput :=
  oneClient (.servingHello blockA.bytes) ++
    [.worker 0 (.wait [.client 5 ⟨true, false, false, false⟩])] ++
      [.worker 0 (.client (.servingHello blockB.bytes))]

theorem run_twoFiles :
    ∃ outs s, (forgeMachine {} 10).run (.start {} [3, 4]) twoFiles = some (outs, s) := by
  have hsome : ((forgeMachine {} 10).run (.start {} [3, 4]) twoFiles).isSome := by
    decide +kernel
  obtain ⟨⟨outs, s⟩, hrun⟩ := Option.isSome_iff_exists.1 hsome
  exact ⟨outs, s, hrun⟩

/-- The events of a worker that it has not taken up yet. -/
def LoopState.pending? : LoopState → Option (List Ready)
  | .running _ false pending => some pending
  | _ => none

theorem lifeOf_twoFiles :
    lifeOf {} 10 [3, 4] 0 twoFiles =
      [.accepted, .offered true, .taken (some 5), .event (.readable (.servingHello blockA.bytes)),
        .event (.readable (.servingHello blockB.bytes))] := by
  have hone : ((forgeMachine {} 10).run (.start {} [3, 4])
      (oneClient (.servingHello blockA.bytes))).isSome := by
    decide +kernel
  -- the connection was kept: its second event is reported
  have htwo : (((forgeMachine {} 10).run (.start {} [3, 4])
      (oneClient (.servingHello blockA.bytes) ++
        [.worker 0 (.wait [.client 5 ⟨true, false, false, false⟩])])).bind fun r ↦
          (r.2.link 0).loop.bind LoopState.pending?) =
        some [.client 64 0 ⟨true, false, false, false⟩] := by
    decide +kernel
  obtain ⟨⟨outs, s⟩, hrun⟩ := Option.isSome_iff_exists.1 hone
  obtain ⟨⟨outs', s'⟩, hrun', hpending⟩ := Option.bind_eq_some_iff.1 htwo
  obtain ⟨st, hloop, hpending⟩ := Option.bind_eq_some_iff.1 hpending
  have hwait : s.view {} 10 0 (.worker 0 (.wait [.client 5 ⟨true, false, false, false⟩])) =
      [] := by
    simp only [System.view]
    rcases (s.link 0).loop with - | ⟨w, - | -, - | ⟨- | ⟨a, x, flags⟩, p⟩⟩ | w | - <;> rfl
  have hclient : s'.view {} 10 0 (.worker 0 (.client (.servingHello blockB.bytes))) =
      [.event (.readable (.servingHello blockB.bytes))] := by
    rw [System.view, show (s'.link 0).loop = some st from hloop]
    rcases st with ⟨w, - | -, pending⟩ | w | -
    · obtain rfl := Option.some.inj hpending
      rfl
    all_goals exact absurd hpending (by simp [LoopState.pending?])
  have hfirst := lifeOf_oneClient (.servingHello blockA.bytes)
  rw [lifeOf] at hfirst
  rw [lifeOf, twoFiles, viewed_concat hrun', viewed_concat hrun, hwait, hclient, hfirst]
  rfl

theorem client_reads_replies_two :
    ∃ outs s rs, (forgeMachine {} 10).run (.start {} [3, 4]) twoFiles = some (outs, s) ∧
      rs.map HttpResponse.head = [⟨.ok, 5, .octetStream, true⟩, ⟨.ok, 5, .html, true⟩] ∧
      ReadsReplies rs (sentStream 5 (servedTurns 0 outs)) := by
  obtain ⟨outs, s, hrun⟩ := run_twoFiles
  have hfd : .taken (some 5) ∈ lifeOf {} 10 [3, 4] 0 twoFiles := by
    rw [lifeOf_twoFiles]
    simp
  have hevents : servedEvents (lifeOf {} 10 [3, 4] 0 twoFiles) =
      reads [.servingHello blockA.bytes, .servingHello blockB.bytes] := by
    rw [lifeOf_twoFiles]
    rfl
  refine ⟨outs, s, _, hrun, ?_, client_reads_replies {} 10 [3, 4] _ outs s hrun 0 5 hfd⟩
  obtain ⟨cs, hconn⟩ := served_run hrun hfd
  rw [hevents] at hconn ⊢
  have hheads : ((connMachine {}).run (.registered (.fresh 5))
      (reads [.servingHello blockA.bytes, .servingHello blockB.bytes])).map (fun r ↦
        (replies {} (reads [.servingHello blockA.bytes, .servingHello blockB.bytes]) r.1).map
          HttpResponse.head) =
      some [⟨.ok, 5, .octetStream, true⟩, ⟨.ok, 5, .html, true⟩] := by
    decide +kernel
  rw [hconn] at hheads
  exact Option.some.inj hheads

/-! ### Requests for files -/

/-- A well-formed block that asks for a file which is there, on a connection to be kept: a GET that
fits in the buffer, with a servable path, on which the header loop leaves the flag set. -/
structure RequestBlock.AsksFor (cfg : ForgeCfg) (tree : List UInt8 → Option File)
    (b : RequestBlock) (f : File) (st : Stat) : Prop where
  get : b.method = ascii "GET"
  fits : b.bytes.length ≤ recvBuf - 2
  kept : lastDecision (everySecond b.headerBytes) b.http11 = true
  servable : servable tree cfg.docRoot b.path = some (f, st)

/-- The response to it, as header and body. -/
def fileResponse (cfg : ForgeCfg) (b : RequestBlock) (f : File) (st : Stat) :
    List UInt8 × List UInt8 :=
  (text200 st.size (guessType (fsName cfg.docRoot b.path)) true, f.slice 0 st.size)

section Files

variable {tree : List UInt8 → Option File} {b : RequestBlock} {f : File} {st : Stat}

theorem RequestBlock.requestOf_bytes_zero (b : RequestBlock) :
    requestOf (b.bytes ++ [0]) b.bytes.length =
      some ⟨b.method, b.path, b.version, lastDecision (everySecond b.headerBytes) b.http11,
        b.bytes.length⟩ :=
  b.requestOf_bytes [0] (by simp)

theorem RequestBlock.AsksFor.fileRequest (h : b.AsksFor cfg tree f st) :
    FileRequest cfg tree b.bytes :=
  ⟨b.isBlock, h.fits, _, f, st, acceptedAs_of_requestOf b.requestOf_bytes_zero, h.get, h.kept,
    h.servable⟩

theorem RequestBlock.AsksFor.responseTo_eq (h : b.AsksFor cfg tree f st) :
    responseTo cfg tree b.bytes = (fileResponse cfg b f st).1 ++ (fileResponse cfg b f st).2 := by
  rw [responseTo, b.requestOf_bytes_zero]
  dsimp only
  rw [h.servable]
  rfl

/-- Where every request ends with a piece, no piece is too long for the buffer. -/
theorem pieceFits_of_endsAtCuts {c : ForgeConn} {ks : List Kernel} {reqs : List (List UInt8)}
    (hc : ConnInv c) (hks : ∀ k ∈ ks, Delivers cfg tree k)
    (hreqs : ∀ b ∈ reqs, FileRequest cfg tree b)
    (hstream : c.received ++ (ks.map Kernel.piece).flatten = reqs.flatten)
    (hopen : ∀ b ∈ reqs.head?, c.received.length < b.length)
    (hcuts : List.EndsAtCuts c.received (ks.map Kernel.piece) reqs) :
    (connMachine cfg).Meets PieceFits (.registered c) (reads ks) := by
  have hR := recvBuf_eq
  induction ks generalizing c reqs with
  | nil => exact trivial
  | cons k ks ih =>
    obtain ⟨hk, hks⟩ := List.forall_mem_cons.1 hks
    have hrlen := hc.rlen_le
    have hlen : (c.received ++ k.piece).length = c.rlen + k.piece.length := by
      rw [List.length_append, length_received (by omega)]
    rw [List.map_cons, List.flatten_cons, ← List.append_assoc] at hstream
    rcases reqs with - | ⟨b, reqs⟩
    · exact absurd (List.append_eq_nil_iff.1 (List.append_eq_nil_iff.1 hstream).1).2
        hk.piece_ne_nil
    obtain ⟨hb, hreqs'⟩ := List.forall_mem_cons.1 hreqs
    have hmax := hb.2.1
    rw [List.map_cons, List.endsAtCuts_cons (hopen b rfl)] at hcuts
    rw [List.flatten_cons] at hstream
    have hhere : (c.received ++ k.piece).length ≤ b.length →
        PieceFits (.registered c) (.readable k) := by
      intro hle d hd
      obtain rfl := ConnState.registered.inj hd
      show c.rlen + k.piece.length ≤ recvBuf - 1
      omega
    rcases Nat.lt_trichotomy (c.received ++ k.piece).length b.length with hcase | hcase | hcase
    · have hq : c.received ++ k.piece <+: b :=
        List.prefix_of_prefix_length_le ⟨_, hstream⟩ (List.prefix_append _ _) hcase.le
      obtain ⟨hnext, -⟩ := lossless_open ks reqs hc hk hb hq hcase
      have hrecv := received_receive (show c.rlen + k.piece.length ≤ recvBuf by omega)
      refine (meets_reads_cons hnext).2 ⟨hhere hcase.le, ih ?_ hks hreqs ?_ (fun b' hb' ↦ ?_) ?_⟩
      · exact hc.receive (by rw [receive_rlen]; omega)
      · rw [hrecv]
        exact hstream
      · rw [hrecv, ← Option.some.inj hb']
        exact hcase
      · rw [hrecv]
        exact hcuts
    · obtain ⟨hq, hrest⟩ := List.append_inj hstream hcase
      obtain ⟨hnext, -⟩ := lossless_end ks reqs hc hk hb hq (by omega)
      rw [hq, List.endsAtCuts_self] at hcuts
      have hinv : ConnInv (c.receive k.piece) := hc.receive (by rw [receive_rlen]; omega)
      refine (meets_reads_cons hnext).2
        ⟨hhere hcase.le, ih (hinv.reset b.length) hks hreqs' hrest (fun b' hb' ↦ ?_) hcuts⟩
      have := (hreqs' b' (List.mem_of_mem_head? hb')).1.four_le_length
      rw [received_reset, List.length_nil]
      omega
    · exact absurd hcuts (List.not_endsAtCuts hcase)

/-- **Requests that end where a `read` ends are answered**, one whole response each, in their
order: from any point on, with the open part of the first one in the buffer. -/
theorem sentStream_of_endsAtCuts {c : ForgeConn} {ks : List Kernel} {reqs : List (List UInt8)}
    {ts : List Turn} {cs : ConnState} (hc : ConnInv c) (hks : ∀ k ∈ ks, Delivers cfg tree k)
    (hreqs : ∀ b ∈ reqs, FileRequest cfg tree b)
    (hstream : c.received ++ (ks.map Kernel.piece).flatten = reqs.flatten)
    (hopen : ∀ b ∈ reqs.head?, c.received.length < b.length)
    (hcuts : List.EndsAtCuts c.received (ks.map Kernel.piece) reqs)
    (hrun : (connMachine cfg).run (.registered c) (reads ks) = some (ts, cs)) :
    sentStream c.fd ts = reqs.flatMap (responseTo cfg tree) := by
  have hfit := pieceFits_of_endsAtCuts hc hks hreqs hstream hopen hcuts
  obtain ⟨⟨ts', cs', hrun', hw⟩, -⟩ :=
    (lossless_iff_endsAtCuts hc hks hreqs hstream hopen hfit).2 hcuts
  obtain ⟨rfl, -⟩ := Prod.mk.inj (Option.some.inj (hrun.symm.trans hrun'))
  rw [sentStream, ← hw, written, List.flatMap_assoc]
  rfl

end Files

/-- **A client gets the files it asks for**, through the whole server: the master hands its
connection to a worker among all others, its requests come in pieces, each ends where a `read` ends,
and the socket takes what is written. What the client reads back by the bytes alone is one response
for each request, in their order, with the file as its body, and nothing is left over. -/
theorem client_gets_files (cfg : ForgeCfg) (cap : ℕ) (fds : List ℤ) (is : List SysInput)
    (outs : List SysOutput) (s : System)
    (hrun : (forgeMachine cfg cap).run (.start cfg fds) is = some (outs, s)) (id : ConnId)
    (fd : ℤ) (hfd : .taken (some fd) ∈ lifeOf cfg cap fds id is)
    (tree : List UInt8 → Option File) (ks : List Kernel) (hks : ∀ k ∈ ks, Delivers cfg tree k)
    (hevents : servedEvents (lifeOf cfg cap fds id is) = reads ks)
    (asked : List (RequestBlock × File × Stat))
    (hasked : ∀ q ∈ asked, q.1.AsksFor cfg tree q.2.1 q.2.2)
    (hstream : (ks.map Kernel.piece).flatten = (asked.map fun q ↦ q.1.bytes).flatten)
    (hcuts : List.EndsAtCuts [] (ks.map Kernel.piece) (asked.map fun q ↦ q.1.bytes)) :
    readResponses (sentStream fd (servedTurns id outs)) =
      (asked.map fun q ↦ fileResponse cfg q.1 q.2.1 q.2.2, []) := by
  have hreqs : ∀ b ∈ asked.map fun q ↦ q.1.bytes, FileRequest cfg tree b := by
    intro b hb
    obtain ⟨q, hq, rfl⟩ := List.mem_map.1 hb
    exact (hasked q hq).fileRequest
  obtain ⟨cs, hconn⟩ := served_run hrun hfd
  rw [hevents] at hconn
  have hempty : (ForgeConn.fresh fd).received = [] := received_fresh fd
  have hsent : sentStream fd (servedTurns id outs) =
      (asked.map fun q ↦ q.1.bytes).flatMap (responseTo cfg tree) := by
    refine sentStream_of_endsAtCuts (ConnInv.fresh fd) hks hreqs ?_ (fun b hb ↦ ?_) ?_ hconn
    · rw [hempty]
      exact hstream
    · have := (hreqs b (List.mem_of_mem_head? hb)).1.four_le_length
      rw [hempty, List.length_nil]
      omega
    · rw [hempty]
      exact hcuts
  have hresponses : (asked.map fun q ↦ q.1.bytes).flatMap (responseTo cfg tree) =
      (asked.map fun q ↦ fileResponse cfg q.1 q.2.1 q.2.2).flatMap (fun r ↦ r.1 ++ r.2) ++ [] := by
    rw [List.flatMap_map, List.flatMap_map, List.append_nil]
    exact List.flatMap_congr fun q hq ↦ (hasked q hq).responseTo_eq
  rw [hsent, hresponses]
  refine readResponses_of_framed (fun r hr ↦ ?_) readResponse_nil
  obtain ⟨q, -, rfl⟩ := List.mem_map.1 hr
  exact framed_response200 ..

theorem delivers_servingHello (cfg : ForgeCfg) {bs : List UInt8} (hbs : bs ≠ []) :
    Delivers cfg (fun _ ↦ some helloFile) (.servingHello bs) :=
  delivers_one cfg ⟨rfl, hbs⟩ rfl (Nat.sub_le hdrBuf 1) rfl
    ⟨_, List.prefix_rfl, by simp [Kernel.servingHello], Nat.le_refl 5⟩

theorem client_gets_files_two :
    ∃ outs s, (forgeMachine {} 10).run (.start {} [3, 4]) twoFiles = some (outs, s) ∧
      readResponses (sentStream 5 (servedTurns 0 outs)) =
        ([fileResponse {} blockA helloFile ⟨true, 5, by decide⟩,
          fileResponse {} blockB helloFile ⟨true, 5, by decide⟩], []) := by
  obtain ⟨outs, s, hrun⟩ := run_twoFiles
  have hka := delivers_servingHello {} (show blockA.bytes ≠ [] by decide)
  have hkb := delivers_servingHello {} (show blockB.bytes ≠ [] by decide)
  refine ⟨outs, s, hrun, client_gets_files {} 10 [3, 4] _ outs s hrun 0 5 ?_
    (fun _ ↦ some helloFile) [.servingHello blockA.bytes, .servingHello blockB.bytes]
    (List.forall_mem_cons.2 ⟨hka, List.forall_mem_singleton.2 hkb⟩) ?_
    [(blockA, helloFile, ⟨true, 5, by decide⟩), (blockB, helloFile, ⟨true, 5, by decide⟩)]
    (List.forall_mem_cons.2 ⟨?_, List.forall_mem_singleton.2 ?_⟩) rfl
    fun i _ _ ↦ ⟨i, List.nil_append _⟩⟩
  · rw [lifeOf_twoFiles]
    simp
  · rw [lifeOf_twoFiles]
    rfl
  · exact ⟨rfl, by decide, by decide +kernel, servable_eq_some.2 ⟨by decide, rfl, rfl⟩⟩
  · exact ⟨rfl, by decide, by decide +kernel, servable_eq_some.2 ⟨by decide, rfl, rfl⟩⟩

end ForgeServer
