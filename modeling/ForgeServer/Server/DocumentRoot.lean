import ForgeServer.Bytes.PathWalk
import ForgeServer.Server.Connection

/-!
# Names that are opened

Every name the worker opens is the document root, a slash, and a tail whose lexical walk never rises
above its start. The three parts: the tail is the path of the request, or `index.html` for `/`, with
at most one slash taken off its front (`exists_tail`); a path with two dots in a row is never opened
(`opened_handleRead`); and two dots in a row are what a component that goes up consists of
(`PathWalk.neverRises_of_not_infix`).
-/

namespace ForgeServer

open CStr PathWalk

/-- A path without `..` keeps below the document root. -/
theorem exists_tail {path : List UInt8} (h : httpPathHasDotdot path = false)
    (docRoot : List UInt8) :
    ∃ tail, fsText docRoot path = docRoot ++ 47 :: tail ∧ NeverRises 47 46 tail := by
  have hdots : ¬ [46, 46] <:+: path := by
    have hno : ¬ (ascii "..").firstOcc path ≠ none := by
      simpa [httpPathHasDotdot, Option.isSome_iff_ne_none] using h
    exact List.firstOcc_eq_none_iff.1 (not_not.1 hno)
  have hslash : ascii "/" = [47] := by decide
  unfold fsText
  split
  · refine ⟨ascii "index.html", ?_, neverRises_of_not_infix (by decide)⟩
    rw [show ascii "/index.html" = 47 :: ascii "index.html" by decide]
  · rw [hslash, List.append_assoc]
    refine ⟨_, rfl, neverRises_of_not_infix fun hmem ↦ hdots ?_⟩
    split at hmem
    · exact hmem.trans (List.tail_suffix path).isInfix
    · exact hmem

/-! ### Which calls open a name -/

theorem opened_connClose (c : ForgeConn) : opened (connClose c) = [] := by
  unfold connClose
  split <;> rfl

theorem opened_closeTurn (c : ForgeConn) (calls : List Sys) (r : Option Request) :
    opened (closeTurn c calls r).calls = opened calls := by
  rw [closeTurn, opened_append, opened_connClose, List.append_nil]

theorem opened_sendfileLoop (fd : ℤ) (f : File) (rs : List IoResult) (off remain : ℕ) :
    opened (sendfileLoop fd f rs off remain).1 = [] := by
  induction rs generalizing off remain with
  | nil => rfl
  | cons r rs ih =>
    unfold sendfileLoop
    split
    · rfl
    · rcases r with n | e
      · exact ih _ _
      · dsimp only [IoResult.upTo]
        split
        · exact ih _ _
        · rfl

theorem opened_sendOpened (k : Kernel) (fd : ℤ) (fs : List UInt8) (f : File) (st : Stat)
    (keepAlive : Bool) : opened (sendOpened k fd fs f st keepAlive).calls = [] := by
  have hloop := opened_sendfileLoop fd f k.sendfile 0 st.size
  unfold sendOpened
  dsimp only
  split
  · rfl
  · rcases hbody : sendfileLoop fd f k.sendfile 0 st.size with ⟨body, exit⟩
    rw [hbody] at hloop
    cases exit <;> simp only [opened_append, hloop] <;> rfl

theorem opened_fileCalls (k : Kernel) (fd : ℤ) (fs : List UInt8) (f : File) (st : Stat)
    (keepAlive : Bool) : opened (fileCalls k fd fs f st keepAlive) = [fs] := by
  rw [fileCalls, opened_append, opened_sendOpened]
  rfl

theorem opened_notFoundCalls {openFile : List UInt8 → Option File} {docRoot path name : List UInt8}
    (h : name ∈ opened (notFoundCalls openFile docRoot path)) :
    httpPathHasDotdot path = false ∧ name = fsName docRoot path := by
  unfold notFoundCalls at h
  by_cases hdot : httpPathHasDotdot path = true
  · rw [if_pos hdot] at h
    exact absurd h List.not_mem_nil
  · rw [if_neg hdot] at h
    refine ⟨Bool.eq_false_iff.2 hdot, ?_⟩
    rcases hopen : openFile (fsName docRoot path) with - | f <;> rw [hopen] at h <;>
      exact List.mem_singleton.1 h

/-- **A call opens at most the name of the path it has accepted**, which has no `..`. -/
theorem opened_handleRead {c : ForgeConn} (hc : ConnInv c) (cfg : ForgeCfg) (k : Kernel) :
    ∀ name ∈ opened (handleRead cfg k c).calls, ∃ r, (handleRead cfg k c).request = some r ∧
      httpPathHasDotdot r.path = false ∧ name = fsName cfg.docRoot r.path := by
  have ho := outcome_handleRead cfg k hc
  generalize handleRead cfg k c = t at ho ⊢
  have hread : ∀ c got, opened (readCall c got) = [] := fun _ _ ↦ rfl
  cases ho with
  | waits | more => exact fun name hname ↦ absurd hname List.not_mem_nil
  | ended | full =>
    intro name hname
    rw [opened_closeTurn] at hname
    exact absurd hname List.not_mem_nil
  | request bs _ _ _ r _ t ht =>
    cases ht with
    | bad =>
      intro name hname
      rw [opened_closeTurn] at hname
      exact absurd hname List.not_mem_nil
    | missing =>
      intro name hname
      rw [opened_closeTurn, opened_append, opened_append, hread, List.nil_append] at hname
      rcases List.mem_append.1 hname with h | h
      · -- `open` or `fstat` has failed, or the path is refused before `open`
        exact ⟨r, rfl, opened_notFoundCalls h⟩
      · exact absurd h List.not_mem_nil
    | kept _ f st hs | sending _ f st hs =>
      intro name hname
      rw [opened_append, hread, opened_fileCalls] at hname
      exact ⟨r, rfl, (servable_eq_some.1 hs).1, List.mem_singleton.1 hname⟩
    | closed _ f st hs =>
      intro name hname
      rw [opened_closeTurn, opened_append, hread, opened_fileCalls] at hname
      exact ⟨r, rfl, (servable_eq_some.1 hs).1, List.mem_singleton.1 hname⟩

/-- Every name a call opens is what the array `fs` takes of the document root, a slash, and a tail
that never rises above its start; the whole of it when it fits. -/
def Turn.OpensBelow (docRoot : List UInt8) (t : Turn) : Prop :=
  ∀ name ∈ opened t.calls, ∃ r tail, t.request = some r ∧
    fsText docRoot r.path = docRoot ++ 47 :: tail ∧ NeverRises 47 46 tail ∧
    name = (snprintf fsBuf (fsText docRoot r.path)).stored ∧
    ((fsText docRoot r.path).length < fsBuf → name = docRoot ++ 47 :: tail)

theorem opensBelow_clientEvent {c : ForgeConn} (hc : ConnInv c) (cfg : ForgeCfg) (e : ConnEvent) :
    (clientEvent cfg e c).OpensBelow cfg.docRoot := by
  intro name hname
  rcases clientEvent_cases cfg e c with h | h | h <;> rw [h] at hname ⊢
  · rw [opened_closeTurn] at hname
    exact absurd hname List.not_mem_nil
  · exact absurd hname List.not_mem_nil
  · obtain ⟨r, hreq, hdots, rfl⟩ := opened_handleRead hc cfg e.kernel name hname
    obtain ⟨tail, htext, hwalk⟩ := exists_tail hdots cfg.docRoot
    exact ⟨r, tail, hreq, htext, hwalk, rfl, fun hfit ↦ by
      rw [fsName, stored_snprintf hfit, htext]⟩

/-- **A client cannot make the worker open a file outside the document root**, whatever bytes it
sends, in whatever pieces and after whatever requests. -/
theorem opened_below_root (cfg : ForgeCfg) (fd : ℤ) (es : List ConnEvent) (ts : List Turn)
    (s : ConnState) (hrun : (connMachine cfg).run (.registered (.fresh fd)) es = some (ts, s)) :
    ∀ t ∈ ts, t.OpensBelow cfg.docRoot :=
  run_turns (fun _ e hc ↦ opensBelow_clientEvent hc cfg e) hrun

theorem opened_below_root_get :
    opened (handleRead {} (.offering (ascii "GET /a HTTP/1.1\r\n\r\n")) (.fresh 5)).calls =
        [ascii "./public/a"] ∧
      ∀ t ∈ [handleRead {} (.offering (ascii "GET /a HTTP/1.1\r\n\r\n")) (.fresh 5)],
        t.OpensBelow (ascii "./public") :=
  ⟨by decide +kernel, opened_below_root {} 5
    [.readable (.offering (ascii "GET /a HTTP/1.1\r\n\r\n"))] _ _ rfl⟩

end ForgeServer
