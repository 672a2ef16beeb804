import ForgeServer.Bytes.Frames
import ForgeServer.Http.Response

/-!
# Reading the responses back

A client's side of a response stream, which needs nothing but the bytes: the header ends with the
first blank line, its `Content-Length` says how long the body is, and the next response starts right
behind it (`readResponse`). A complete response reads back in front of anything, and of a cut one
nothing is read; so a stream of complete responses with a cut one behind them reads back as exactly
these responses (`readResponses_of_framed`).
-/

namespace ForgeServer

open CStr

/-- One response at the front of a stream, header and body, and what follows it. -/
def readResponse (s : List UInt8) : Option ((List UInt8 × List UInt8) × List UInt8) := do
  let i ← crlfcrlf.firstOcc s
  let n ← contentLength (s.take (i + 4))
  let rest := s.drop (i + 4)
  if n ≤ rest.length then some ((s.take (i + 4), rest.take n), rest.drop n) else none

/-- The responses of a stream, and what is left behind the last complete one. -/
def readResponses (s : List UInt8) : List (List UInt8 × List UInt8) × List UInt8 :=
  List.readFrames readResponse s.length s

variable {head body : List UInt8}

/-- **A complete response reads back**, whatever follows it. -/
theorem readResponse_of_framed (h : Framed head body) (t : List UInt8) :
    readResponse (head ++ body ++ t) = some ((head, body), t) := by
  obtain ⟨hblank, hfour, hlen⟩ := h
  have hfirst := List.firstOcc_append hblank t
  have htake : (head ++ body ++ t).take head.length = head := by
    rw [List.append_assoc, List.take_left]
  have hdrop : (head ++ body ++ t).drop head.length = body ++ t := by
    rw [List.append_assoc, List.drop_left]
  simp only [readResponse, hfirst, Option.bind_eq_bind, Option.bind_some,
    Nat.sub_add_cancel hfour, htake, hdrop, hlen]
  rw [if_pos (by simp), List.take_left, List.drop_left]

/-- **Of a cut response nothing is read.** -/
theorem readResponse_of_cut (h : Framed head body) {s : List UInt8} (hpre : s <+: head ++ body)
    (hne : s ≠ head ++ body) : readResponse s = none := by
  obtain ⟨hblank, hfour, hlen⟩ := h
  have hlt : s.length < (head ++ body).length :=
    Nat.lt_of_le_of_ne hpre.length_le fun heq ↦ hne (hpre.eq_of_length heq)
  rcases hfirst : crlfcrlf.firstOcc s with - | i
  · simp [readResponse, hfirst]
  · -- the header is whole, so it is the body that is cut
    obtain ⟨t, ht⟩ := hpre
    have hi : i = head.length - 4 := by
      have hwhole := List.firstOcc_append hfirst t
      rw [ht, hblank, Option.some.injEq] at hwhole
      exact hwhole.symm
    have hfit := List.firstOcc_add_length_le hfirst
    rw [length_crlfcrlf] at hfit
    have hend : i + 4 = head.length := by omega
    have htake : s.take head.length = head := by
      have hsame : (s ++ t).take head.length = s.take head.length :=
        List.take_append_of_le_length (by omega)
      rw [← hsame, ht, List.take_left]
    have hrest : ¬ body.length ≤ (s.drop head.length).length := by
      rw [List.length_append] at hlt
      rw [List.length_drop]
      omega
    simp only [readResponse, hfirst, Option.bind_eq_bind, Option.bind_some, hend, htake, hlen,
      if_neg hrest]

/-- Nothing is read of an empty stream. -/
theorem readResponse_nil : readResponse [] = none := rfl

/-- **A stream of complete responses reads back**, with what is left behind them. -/
theorem readResponses_of_framed {rs : List (List UInt8 × List UInt8)} {tail : List UInt8}
    (hrs : ∀ r ∈ rs, Framed r.1 r.2) (htail : readResponse tail = none) :
    readResponses (rs.flatMap (fun r ↦ r.1 ++ r.2) ++ tail) = (rs, tail) := by
  have hread : readResponses (rs.flatMap (fun r ↦ r.1 ++ r.2) ++ tail) =
      (rs.map fun r ↦ r, tail) := by
    refine List.readFrames_flatMap (fun r ↦ r) (fun r hr hnil ↦ ?_) (fun r hr t ↦ ?_) htail le_rfl
    · have hfour := (hrs r hr).2.1
      rw [(List.append_eq_nil_iff.1 hnil).1, List.length_nil] at hfour
      omega
    · exact readResponse_of_framed (hrs r hr) t
  rwa [List.map_id'] at hread

end ForgeServer
