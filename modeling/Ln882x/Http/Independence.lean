import Ln882x.Http.Turns

/-! Two responses on one object. `http_read_init` clears what a response sets except the
flag for chunked bodies; everything else that it leaves is written before it is read.
So a response is received as on a new object exactly if the flag was not set before, or
the response has a header line of its own that sets it. -/

namespace Ln882x.Http

open Nor (Bytes)

/-! ### What a header will set -/

/-- One of the lines before the first blank one sets the flag. A line that does not fit
the buffer is never completed, and neither is one with a zero in it. -/
inductive DeclaresChunked : Bytes → Prop
  | here {s line : Bytes} (hl : strstrCrlf (s.take fieldHttpRecvBufMaxLen) = some line) (hne : line ≠ [])
      (hset : setsChunked line = true) : DeclaresChunked s
  | later {s line : Bytes} (hl : strstrCrlf (s.take fieldHttpRecvBufMaxLen) = some line) (hne : line ≠ [])
      (hs : DeclaresChunked (s.drop (line.length + 2))) : DeclaresChunked s

theorem declaresChunked_line {s line : Bytes} (hl : strstrCrlf (s.take fieldHttpRecvBufMaxLen) = some line)
    (hne : line ≠ []) :
    DeclaresChunked s ↔ setsChunked line = true ∨ DeclaresChunked (s.drop (line.length + 2)) := by
  constructor
  · rintro (⟨hl', hne', hset⟩ | ⟨hl', hne', hs⟩)
    · cases hl.symm.trans hl'
      exact .inl hset
    · cases hl.symm.trans hl'
      exact .inr hs
  · rintro (hset | hs)
    · exact .here hl hne hset
    · exact .later hl hne hs

theorem not_declaresChunked {s : Bytes}
    (h : ∀ line, strstrCrlf (s.take fieldHttpRecvBufMaxLen) = some line → line = []) : ¬ DeclaresChunked s := by
  rintro (⟨hl, hne, -⟩ | ⟨hl, hne, -⟩)
  · exact hne (h _ hl)
  · exact hne (h _ hl)

/-- A line that is complete in the buffer is a line of the whole stream. -/
theorem strstrCrlf_window {w line : Bytes} (h : strstrCrlf w = some line)
    (hw : w.length ≤ fieldHttpRecvBufMaxLen) (rest : Bytes) :
    strstrCrlf ((w ++ rest).take fieldHttpRecvBufMaxLen) = some line := by
  rw [List.take_append, List.take_of_length_le hw]
  exact strstrCrlf_append h _

/-- The three members that `http_read_init` clears. -/
structure HttpHeader.Agree (r r' : HttpHeader) : Prop where
  statusCode : r.statusCode = r'.statusCode
  contentLength : r.contentLength = r'.contentLength
  close : r.close = r'.close

theorem HttpHeader.Agree.field {r r' : HttpHeader} (h : r.Agree r') (line : Bytes) :
    (httpParseHeaderField r line).2.Agree (httpParseHeaderField r' line).2 := by
  cases httpParseHeaderField_effect line with
  | statusCode v hf =>
    simp only [hf]
    exact ⟨rfl, h.contentLength, h.close⟩
  | contentLength v hf =>
    simp only [hf]
    exact ⟨h.statusCode, rfl, h.close⟩
  | close hf =>
    simp only [hf]
    exact ⟨h.statusCode, h.contentLength, rfl⟩
  | nothing hf | cookie v hf | location v hf | contentType v hf | chunked hf =>
    simp only [hf]
    exact ⟨h.statusCode, h.contentLength, h.close⟩

/-! ### The flag of one run -/

/-- The flag is set, or the bytes to come will set it. -/
def Foretells (hi : HttpInfo) (s : Bytes) : Prop :=
  hi.response.chunked = true ∨ hi.parseState = .header ∧ DeclaresChunked s

theorem parseChunkSize_chunked (hi : HttpInfo) (p1 : ℕ) :
    (parseChunkSize hi p1).2.response.chunked = hi.response.chunked ∧
    (hi.parseState ≠ .header → (parseChunkSize hi p1).2.parseState ≠ .header) := by
  simp only [parseChunkSize]
  split
  · exact ⟨rfl, id⟩
  · split
    · split
      · exact ⟨rfl, id⟩
      · refine ⟨rfl, fun _ hs => ?_⟩
        cases hs
    · exact ⟨rfl, id⟩

theorem bodyParse_chunked (hi : HttpInfo) (p1 : ℕ) :
    (bodyParse hi p1).2.response.chunked = hi.response.chunked ∧
    (hi.parseState ≠ .header → (bodyParse hi p1).2.parseState ≠ .header) := by
  simp only [bodyParse]
  split
  · exact parseChunkSize_chunked hi p1
  · split
    · simp only [parseBodyData]
      split
      · split <;> exact ⟨rfl, id⟩
      · split <;> exact ⟨rfl, id⟩
    · split
      · split
        · exact parseChunkSize_chunked hi _
        · exact parseChunkSize_chunked { hi with recvBuf := [] } p1
      · exact ⟨rfl, id⟩

theorem bodyParse_foretells {hi : HttpInfo} (h : hi.parseState ≠ .header) (p1 : ℕ) (s s' : Bytes) :
    Foretells hi s ↔ Foretells (bodyParse hi p1).2 s' := by
  obtain ⟨hc, hs⟩ := bodyParse_chunked hi p1
  simp [Foretells, hc, h, hs h]

section

variable {hi hi' : HttpInfo} {p1 : ℕ}

theorem foretells_blank (hl : strstrCrlf (hi.recvBuf.drop p1) = some [])
    (hmax : hi.recvBuf.length ≤ fieldHttpRecvBufMaxLen) (rest : Bytes) :
    Foretells hi (hi.recvBuf.drop p1 ++ rest) ↔ hi.response.chunked = true := by
  have hw : (hi.recvBuf.drop p1).length ≤ fieldHttpRecvBufMaxLen :=
    (List.drop_sublist p1 _).length_le.trans hmax
  have hno : ¬ DeclaresChunked (hi.recvBuf.drop p1 ++ rest) :=
    not_declaresChunked fun line hline => by
      cases (strstrCrlf_window hl hw rest).symm.trans hline
      rfl
  simp [Foretells, hno]

theorem foretells_line {line : Bytes} (h : hi.parseState = .header)
    (hl : strstrCrlf (hi.recvBuf.drop p1) = some line) (hne : line ≠ [])
    (hmax : hi.recvBuf.length ≤ fieldHttpRecvBufMaxLen) (rest : Bytes) :
    Foretells hi (hi.recvBuf.drop p1 ++ rest) ↔
      Foretells { hi with response := (httpParseHeaderField hi.response line).2 }
        (hi.recvBuf.drop (p1 + line.length + 2) ++ rest) := by
  have hw : (hi.recvBuf.drop p1).length ≤ fieldHttpRecvBufMaxLen :=
    (List.drop_sublist p1 _).length_le.trans hmax
  have hdrop : (hi.recvBuf.drop p1 ++ rest).drop (line.length + 2)
      = hi.recvBuf.drop (p1 + line.length + 2) ++ rest := by
    rw [List.drop_append_of_le_length (strstrCrlf_length hl), List.drop_drop, ← Nat.add_assoc]
  simp only [Foretells, httpParseHeaderField_chunked, Bool.or_eq_true, h, true_and,
    declaresChunked_line (strstrCrlf_window hl hw rest) hne, hdrop, or_assoc]

/-- The header is left behind, or the parser waits for the rest of a line. -/
def Waits (r : Mode × HttpInfo) : Prop :=
  r.2.parseState = .header → r.1.read = true ∧ strstrCrlf r.2.recvBuf = none

theorem httpParseLoop_foretells {n : ℕ} (h : hi.parseState = .header)
    (hn : hi.recvBuf.length - p1 + 2 < n) (hmax : hi.recvBuf.length ≤ fieldHttpRecvBufMaxLen)
    (rest : Bytes) :
    ∃ r, httpParseLoop n hi p1 = some r ∧ Waits r ∧
      (Foretells hi (hi.recvBuf.drop p1 ++ rest) ↔ Foretells r.2 (r.2.recvBuf ++ rest)) := by
  refine httpParseLoop_header
    (P := fun hi p1 res => hi.recvBuf.length ≤ fieldHttpRecvBufMaxLen → ∃ r, res = some r ∧ Waits r ∧
      (Foretells hi (hi.recvBuf.drop p1 ++ rest) ↔ Foretells r.2 (r.2.recvBuf ++ rest)))
    ?_ ?_ ?_ n hi p1 h hn hmax
  · intro hi p1 h hl hmax
    exact ⟨_, rfl, fun _ => ⟨rfl, hl⟩, Iff.rfl⟩
  · intro hi p1 h hl hmax
    have hs : (headerEnd hi).parseState ≠ .header := nofun
    refine ⟨_, rfl, fun he => absurd he ((bodyParse_chunked _ _).2 hs), ?_⟩
    rw [foretells_blank hl hmax, ← bodyParse_foretells hs (p1 + 2) []]
    simp [Foretells, headerEnd]
  · intro hi p1 line r h hl hne hp hmax
    obtain ⟨r, hr, hw, hiff⟩ := hp hmax
    exact ⟨r, hr, hw, (foretells_line h hl hne hmax rest).trans hiff⟩

theorem Ready.foretells (h : Ready hi) (rest : Bytes) :
    ∃ r, Http.httpParse hi = some r ∧ Waits r ∧
      (Foretells hi (hi.window ++ rest) ↔ Foretells r.2 (r.2.recvBuf ++ rest)) := by
  refine h.httpParse
    (P := fun res => ∃ r, res = some r ∧ Waits r ∧
      (Foretells hi (hi.window ++ rest) ↔ Foretells r.2 (r.2.recvBuf ++ rest))) ?_ ?_ ?_
  · intro hp hb hs
    refine ⟨_, rfl, fun _ => ⟨rfl, by simp only [hb]; rfl⟩, ?_⟩
    simp [HttpInfo.window, hp]
  · intro p hp hs
    simp only [HttpInfo.window, hp, Option.getD_some]
    exact httpParseLoop_foretells hs (by omega) h.fits rest
  · intro p hp hs
    have hne : hi.parseState ≠ .header := by simp [hs]
    exact ⟨_, rfl, fun he => absurd he ((bodyParse_chunked _ _).2 hne), bodyParse_foretells hne p _ _⟩

end

/-- The bytes up to the end of the connection, which an empty read stands for. -/
def arriving (queue : List Bytes) : Bytes := (queue.takeWhile (· ≠ [])).flatten

theorem httpsRead_arriving {info info' : HttpInfo} {queue queue' : List Bytes}
    (h : httpsRead info queue = some (info', queue')) :
    info'.recvBuf ++ arriving queue' = info.recvBuf ++ arriving queue := by
  cases queue with
  | nil => cases h
  | cons seg queue =>
    simp only [httpsRead] at h
    split at h
    · cases h
    · rename_i hgot
      have hseg : seg ≠ [] := by
        rintro rfl
        simp at hgot
      cases h
      split
      · rename_i hle
        simp [arriving, hseg, List.take_of_length_le hle]
      · rename_i hgt
        have hdrop : seg.drop (fieldHttpRecvBufMaxLen - info.recvBuf.length) ≠ [] := by
          simpa using hgt
        simp only [arriving, List.takeWhile_cons, hseg, hdrop, ne_eq, not_false_eq_true, decide_true, if_true,
          List.flatten_cons, List.append_assoc]
        rw [← List.append_assoc (seg.take _), List.take_append_drop]

theorem httpsRead_none {info : HttpInfo} {queue : List Bytes} (h : httpsRead info queue = none) :
    arriving queue = [] ∨ fieldHttpRecvBufMaxLen ≤ info.recvBuf.length := by
  cases queue with
  | nil => exact .inl rfl
  | cons seg queue =>
    simp only [httpsRead] at h
    split at h
    · rename_i hgot
      rcases List.take_eq_nil_iff.mp hgot with h0 | rfl
      · exact .inr (by omega)
      · exact .inl rfl
    · cases h

namespace Client

variable {c c' : Client}

/-- The flag is set, or what is still to be parsed will set it. -/
def Foretold (c : Client) : Prop := Foretells c.info (c.info.window ++ arriving c.queue)

theorem turn_foretold (h : c.turn = (c', none)) (hr : Ready c.info) : c.Foretold ↔ c'.Foretold := by
  obtain ⟨mode, info, hp, -, -, hcase⟩ := turn_spec h hr
  obtain ⟨r, hr, -, hiff⟩ := hr.foretells (arriving c.queue)
  cases hp.symm.trans hr
  refine hiff.trans ?_
  rcases hcase with ⟨-, -, hrd⟩ | ⟨-, hi, hq, hs, -⟩
  · have harr := httpsRead_arriving hrd
    obtain ⟨got, -, hinfo, -⟩ := httpsRead_spec hrd
    simp only [Foretold, HttpInfo.window, ← harr]
    rw [hinfo]
    rfl
  · simp [Foretold, Foretells, hi, hs]

theorem turn_chunked {e : Ending} (h : c.turn = (c', some e)) (hr : Ready c.info) :
    c.Foretold ↔ c'.info.response.chunked = true := by
  obtain ⟨r, hp, hw, hiff⟩ := hr.foretells (arriving c.queue)
  obtain ⟨mode, info⟩ := r
  rw [turn, hp] at h
  simp only [handle] at h
  refine hiff.trans ?_
  have hlast (hno : info.parseState = .header → ¬ DeclaresChunked (info.recvBuf ++ arriving c.queue)) :
      Foretells info (info.recvBuf ++ arriving c.queue) ↔ info.response.chunked = true :=
    ⟨fun hf => hf.resolve_right fun hd => hno hd.1 hd.2, .inl⟩
  split at h
  · split at h
    · rename_i hnone
      cases h
      refine hlast fun hs => not_declaresChunked fun line hline => ?_
      -- nothing more can reach the buffer, and it holds no whole line
      have htake : (info.recvBuf ++ arriving c.queue).take fieldHttpRecvBufMaxLen
          = info.recvBuf.take fieldHttpRecvBufMaxLen := by
        rcases httpsRead_none hnone with h0 | hfull
        · rw [h0, List.append_nil]
        · rw [List.take_append_of_le_length hfull]
      have hnone' := strstrCrlf_none_of_take (hw hs).2 fieldHttpRecvBufMaxLen
      rw [htake, hnone'] at hline
      cases hline
    · cases h
  · rename_i hread
    have hs : info.parseState ≠ .header := fun hs => hread (hw hs).1
    have hinfo : c'.info = info := by
      split at h
      · cases h
      · split at h
        · cases h
          rfl
        · split at h <;> cases h
          rfl
    rw [hinfo]
    exact hlast fun h => absurd h hs

theorem run_chunked {n : ℕ} {e : Ending} (h : (c.run n).2 = some e) (hr : Ready c.info) :
    c.Foretold ↔ (c.run n).1.info.response.chunked = true := by
  induction n generalizing c with
  | zero => cases h
  | succ n ih =>
    rw [run] at h ⊢
    rcases ht : c.turn with ⟨c', _ | e'⟩
    · rw [ht] at h
      obtain ⟨-, -, -, -, hr', -⟩ := turn_spec ht hr
      exact (turn_foretold ht hr).trans (ih h hr')
    · exact turn_chunked ht hr

end Client

/-! ### Two runs side by side -/

/-- Two objects on which the rest of a response is parsed alike, once the flags agree. -/
structure Alike (hi hi' : HttpInfo) : Prop where
  parseState : hi.parseState = hi'.parseState
  parsePtr : hi.parsePtr = hi'.parsePtr
  recvBuf : hi.recvBuf = hi'.recvBuf
  agree : hi.response.Agree hi'.response
  body : hi.parseState ≠ .header →
    hi.remainSize = hi'.remainSize ∧ hi.response.chunked = hi'.response.chunked

/-- Two results that the receive loop cannot tell apart. -/
structure Matches (r r' : Mode × HttpInfo) : Prop where
  mode : r.1 = r'.1
  slice : r.1.write = true → r.2.body = r'.2.body
  alike : Alike r.2 r'.2

section

variable {hi hi' : HttpInfo}

theorem Alike.parseChunkSize (h : Alike hi hi') (hc : hi.response.chunked = hi'.response.chunked) (p1 : ℕ) :
    Matches (parseChunkSize hi p1) (parseChunkSize hi' p1) := by
  -- no mode of this step writes
  have hno : ¬false = true := Bool.false_ne_true
  simp only [Http.parseChunkSize, ← h.recvBuf, ← h.agree.contentLength]
  split
  · exact ⟨rfl, (absurd · hno), h.parseState, h.parsePtr, rfl, h.agree, fun _ => ⟨rfl, hc⟩⟩
  · split
    · split
      · exact ⟨rfl, (absurd · hno), h.parseState, rfl, rfl,
          ⟨h.agree.statusCode, rfl, h.agree.close⟩, fun _ => ⟨rfl, hc⟩⟩
      · exact ⟨rfl, (absurd · hno), rfl, h.parsePtr, rfl, h.agree, fun _ => ⟨rfl, hc⟩⟩
    · exact ⟨rfl, (absurd · hno), h.parseState, h.parsePtr, rfl, h.agree, fun _ => ⟨rfl, hc⟩⟩

theorem Alike.parseBodyData (h : Alike hi hi') (hs : hi.parseState ≠ .header) (p1 : ℕ) :
    Matches (parseBodyData hi p1) (parseBodyData hi' p1) := by
  obtain ⟨hrem, hc⟩ := h.body hs
  simp only [Http.parseBodyData, ← h.recvBuf, ← hrem, ← hc]
  split
  · split
    · exact ⟨rfl, fun _ => rfl, h.parseState, rfl, rfl, h.agree, fun _ => ⟨rfl, hc⟩⟩
    · exact ⟨rfl, fun _ => rfl, h.parseState, h.parsePtr, rfl, h.agree, fun _ => ⟨rfl, hc⟩⟩
  · split
    · exact ⟨rfl, fun _ => rfl, h.parseState, h.parsePtr, rfl, h.agree, fun _ => ⟨rfl, hc⟩⟩
    · exact ⟨rfl, fun _ => rfl, h.parseState, h.parsePtr, rfl, h.agree, fun _ => ⟨rfl, hc⟩⟩

theorem Alike.bodyParse (h : Alike hi hi') (hs : hi.parseState ≠ .header) (p1 : ℕ) :
    Matches (bodyParse hi p1) (bodyParse hi' p1) := by
  obtain ⟨hrem, hc⟩ := h.body hs
  simp only [Http.bodyParse, ← h.recvBuf, ← hrem, ← hc, ← h.agree.contentLength]
  split
  · exact h.parseChunkSize hc p1
  · split
    · exact h.parseBodyData hs p1
    · split
      · split
        · exact h.parseChunkSize hc (p1 + 2)
        · have h' : Alike { hi with recvBuf := [] } { hi' with recvBuf := [] } :=
            ⟨h.parseState, h.parsePtr, rfl, h.agree, h.body⟩
          exact h'.parseChunkSize hc p1
      · exact ⟨rfl, fun _ => rfl, h.parseState, h.parsePtr, rfl,
          ⟨h.agree.statusCode, rfl, h.agree.close⟩, fun _ => ⟨rfl, rfl⟩⟩

theorem Alike.headerEnd (h : Alike hi hi') (hc : hi.response.chunked = hi'.response.chunked) :
    Alike (headerEnd hi) (headerEnd hi') := by
  refine ⟨rfl, h.parsePtr, h.recvBuf, h.agree, fun _ => ⟨?_, hc⟩⟩
  simp only [Http.headerEnd, hc, h.agree.contentLength]

theorem Alike.httpParseLoop {n n' p1 : ℕ} {rest : Bytes} (h : Alike hi hi')
    (hs : hi.parseState = .header) (hn : hi.recvBuf.length - p1 + 2 < n)
    (hn' : hi'.recvBuf.length - p1 + 2 < n') (hmax : hi.recvBuf.length ≤ fieldHttpRecvBufMaxLen)
    (hf : Foretells hi (hi.recvBuf.drop p1 ++ rest) ↔ Foretells hi' (hi'.recvBuf.drop p1 ++ rest)) :
    ∃ r r', httpParseLoop n hi p1 = some r ∧ httpParseLoop n' hi' p1 = some r' ∧ Matches r r' := by
  refine httpParseLoop_header
    (P := fun hi p1 res => ∀ hi' n', Alike hi hi' → hi'.recvBuf.length - p1 + 2 < n' →
      hi.recvBuf.length ≤ fieldHttpRecvBufMaxLen →
      (Foretells hi (hi.recvBuf.drop p1 ++ rest) ↔ Foretells hi' (hi'.recvBuf.drop p1 ++ rest)) →
      ∃ r r', res = some r ∧ Http.httpParseLoop n' hi' p1 = some r' ∧ Matches r r')
    ?_ ?_ ?_ n hi p1 hs hn hi' n' h hn' hmax hf
  · intro hi p1 hs hl hi' n' h hn' hmax hf
    obtain ⟨m, rfl⟩ : ∃ m, n' = m + 1 := ⟨n' - 1, by omega⟩
    refine ⟨_, _, rfl, httpParseLoop_wait m (h.parseState ▸ hs) (h.recvBuf ▸ hl), rfl, nofun,
      h.parseState, h.parsePtr, ?_, h.agree, h.body⟩
    simp only [h.recvBuf]
  · intro hi p1 hs hl hi' n' h hn' hmax hf
    obtain ⟨m, rfl⟩ : ∃ m, n' = m + 3 := ⟨n' - 3, by omega⟩
    have hl' : strstrCrlf (hi'.recvBuf.drop p1) = some [] := h.recvBuf ▸ hl
    rw [foretells_blank hl hmax, foretells_blank hl' (h.recvBuf ▸ hmax)] at hf
    exact ⟨_, _, rfl, httpParseLoop_blank m (h.parseState ▸ hs) hl',
      (h.headerEnd (Bool.eq_iff_iff.mpr hf)).bodyParse nofun _⟩
  · intro hi p1 line res hs hl hne hp hi' n' h hn' hmax hf
    obtain ⟨m, rfl⟩ : ∃ m, n' = m + 1 := ⟨n' - 1, by omega⟩
    have hs' : hi'.parseState = .header := h.parseState ▸ hs
    have hl' : strstrCrlf (hi'.recvBuf.drop p1) = some line := h.recvBuf ▸ hl
    rw [foretells_line hs hl hne hmax, foretells_line hs' hl' hne (h.recvBuf ▸ hmax)] at hf
    rw [httpParseLoop_line m hs' hl' hne]
    have hlen := strstrCrlf_length hl'
    rw [List.length_drop] at hlen
    refine hp _ m ⟨h.parseState, h.parsePtr, h.recvBuf, h.agree.field line, fun hs' => absurd hs hs'⟩
      ?_ hmax hf
    show hi'.recvBuf.length - (p1 + line.length + 2) + 2 < m
    omega

theorem Alike.httpParse {rest : Bytes} (h : Alike hi hi') (hr : Ready hi)
    (hf : Foretells hi (hi.window ++ rest) ↔ Foretells hi' (hi'.window ++ rest)) :
    ∃ r r', httpParse hi = some r ∧ httpParse hi' = some r' ∧ Matches r r' := by
  unfold Http.httpParse
  rcases hr.ptr with ⟨hp, hb, hs⟩ | ⟨hp, hb⟩
  · simp only [← h.parsePtr, hp, ← h.recvBuf, hb, if_true]
    exact ⟨_, _, rfl, rfl, rfl, nofun, h⟩
  · obtain ⟨p, hp⟩ := Option.isSome_iff_exists.mp hp
    simp only [← h.parsePtr, hp, ← h.recvBuf, hb, if_false]
    simp only [HttpInfo.window, ← h.parsePtr, hp, Option.getD_some] at hf
    cases hs : hi.parseState with
    | header =>
      exact h.httpParseLoop hs (by omega) (by rw [← h.recvBuf]; omega) hr.fits hf
    | body =>
      exact ⟨_, _, httpParseLoop_body _ hs, httpParseLoop_body _ (h.parseState ▸ hs),
        h.bodyParse (by simp [hs]) p⟩
    | ended => exact absurd hs hr.running

theorem Alike.httpsRead (h : Alike hi hi') (queue : List Bytes) :
    httpsRead hi queue = none ∧ httpsRead hi' queue = none ∨
    ∃ info info' rest, httpsRead hi queue = some (info, rest) ∧ httpsRead hi' queue = some (info', rest) ∧
      Alike info info' := by
  cases queue with
  | nil => exact .inl ⟨rfl, rfl⟩
  | cons seg queue =>
    simp only [Http.httpsRead, ← h.recvBuf]
    split
    · exact .inl ⟨rfl, rfl⟩
    · exact .inr ⟨_, _, _, rfl, rfl, h.parseState, rfl, rfl, h.agree, h.body⟩

end

namespace Client

variable {c c' : Client}

/-- Two rounds after results that match. -/
structure InStep (r r' : Client × Option Ending) : Prop where
  ending : r.2 = r'.2
  queue : r.1.queue = r'.1.queue
  trace : r.1.trace = r'.1.trace
  alike : Alike r.1.info r'.1.info

theorem handle_inStep {r r' : Mode × HttpInfo} (h : Matches r r') (hq : c.queue = c'.queue)
    (ht : c.trace = c'.trace) : InStep (c.handle r.1 r.2) (c'.handle r'.1 r'.2) := by
  obtain ⟨mode, info⟩ := r
  obtain ⟨mode', info'⟩ := r'
  obtain ⟨rfl, hslice, halike⟩ := h
  have hslice' : (if mode.write then some info.body else none)
      = if mode.write then some info'.body else none := by
    split
    · rename_i hw
      exact congrArg some (hslice hw)
    · rfl
  simp only [handle, ← hq, ← ht, ← hslice']
  split
  · rcases halike.httpsRead c.queue with ⟨h1, h2⟩ | ⟨i, i', q, h1, h2, hi⟩
    · simp only [h1, h2]
      exact ⟨rfl, rfl, rfl, halike⟩
    · simp only [h1, h2]
      exact ⟨rfl, rfl, rfl, hi⟩
  · split
    · exact ⟨rfl, rfl, rfl, halike⟩
    · split
      · exact ⟨rfl, rfl, rfl, halike⟩
      · split <;> exact ⟨rfl, rfl, rfl, halike⟩

/-- Two runs at the same point. -/
structure Twin (c c' : Client) : Prop where
  queue : c.queue = c'.queue
  trace : c.trace = c'.trace
  alike : Alike c.info c'.info
  foretold : c.Foretold ↔ c'.Foretold
  ready : Ready c.info
  ready' : Ready c'.info

theorem Twin.turn_inStep (h : Twin c c') : InStep c.turn c'.turn := by
  have hf := h.foretold
  rw [Foretold, Foretold, ← h.queue] at hf
  obtain ⟨r, r', hr, hr', hm⟩ := h.alike.httpParse h.ready hf
  rw [turn, turn, hr, hr']
  exact handle_inStep hm h.queue h.trace

theorem Twin.run (h : Twin c c') (n : ℕ) : InStep (c.run n) (c'.run n) := by
  induction n generalizing c c' with
  | zero => exact ⟨rfl, h.queue, h.trace, h.alike⟩
  | succ n ih =>
    have hstep := h.turn_inStep
    rw [Client.run, Client.run]
    rcases ht : c.turn with ⟨d, _ | e⟩ <;> rcases ht' : c'.turn with ⟨d', _ | e'⟩ <;>
      rw [ht, ht'] at hstep
    · obtain ⟨-, -, -, -, hr, -⟩ := turn_spec ht h.ready
      obtain ⟨-, -, -, -, hr', -⟩ := turn_spec ht' h.ready'
      refine ih ⟨hstep.queue, hstep.trace, hstep.alike, ?_, hr, hr'⟩
      exact ((turn_foretold ht h.ready).symm.trans h.foretold).trans (turn_foretold ht' h.ready')
    · cases hstep.ending
    · cases hstep.ending
    · exact hstep

end Client

/-! ### Independence -/

theorem ready_httpReadInit (hi : HttpInfo) : Ready (httpReadInit hi) :=
  ⟨nofun, Nat.zero_le _, .inl ⟨rfl, rfl, rfl⟩⟩

theorem foretold_start (hi : HttpInfo) (segs : List Bytes) :
    (Client.start hi segs).Foretold ↔ hi.response.chunked = true ∨ DeclaresChunked (arriving segs) := by
  simp [Client.Foretold, Client.start, Foretells, HttpInfo.window, httpReadInit]

/-- A response in the pieces `segs` is received on `hi` as on a new object: the parser
returns the same and hands over the same slices, the loop ends at the same point, and
then the four fields agree. -/
def Independent (hi : HttpInfo) (segs : List Bytes) : Prop :=
  ∀ n, let r := (Client.start hi segs).run n
    let r' := (Client.start httpinfoNew segs).run n
    r.1.trace = r'.1.trace ∧ r.2 = r'.2 ∧ (r.2.isSome = true →
      r.1.info.response.statusCode = r'.1.info.response.statusCode ∧
      r.1.info.response.contentLength = r'.1.info.response.contentLength ∧
      r.1.info.response.chunked = r'.1.info.response.chunked ∧
      r.1.info.response.close = r'.1.info.response.close)

/-- Whatever the object went through before, a response is received on it as on a new one
exactly if the flag for chunked bodies was not left set, or the response sets it itself. -/
theorem independent_iff (hi : HttpInfo) (segs : List Bytes) :
    Independent hi segs ↔ hi.response.chunked = false ∨ DeclaresChunked (arriving segs) := by
  have hr := ready_httpReadInit hi
  have hr' := ready_httpReadInit httpinfoNew
  have hnew : (Client.start httpinfoNew segs).Foretold ↔ DeclaresChunked (arriving segs) := by
    simp [foretold_start, httpinfoNew]
  constructor
  · intro h
    by_cases hc : hi.response.chunked = true
    · obtain ⟨n, e, hn⟩ := (Client.start hi segs).exists_run_ending hr
      obtain ⟨-, he, hfields⟩ := h n
      obtain ⟨-, -, hchunked, -⟩ := hfields (by simp [hn])
      have hset := (Client.run_chunked hn hr).mp ((foretold_start hi segs).mpr (.inl hc))
      rw [hchunked] at hset
      exact .inr (hnew.mp ((Client.run_chunked (he ▸ hn) hr').mpr hset))
    · exact .inl (by simpa using hc)
  · intro h n
    have hfore : (Client.start hi segs).Foretold ↔ (Client.start httpinfoNew segs).Foretold := by
      rw [hnew, foretold_start]
      rcases h with h | h <;> simp [h]
    have htwin : (Client.start hi segs).Twin (Client.start httpinfoNew segs) :=
      ⟨rfl, rfl, ⟨rfl, rfl, rfl, ⟨rfl, rfl, rfl⟩, fun hs => absurd rfl hs⟩, hfore, hr, hr'⟩
    have hstep := htwin.run n
    refine ⟨hstep.trace, hstep.ending, fun hsome => ?_⟩
    obtain ⟨e, he⟩ := Option.isSome_iff_exists.mp hsome
    have hflag := ((Client.run_chunked he hr).symm.trans hfore).trans
      (Client.run_chunked (hstep.ending ▸ he) hr')
    exact ⟨hstep.alike.agree.statusCode, hstep.alike.agree.contentLength, Bool.eq_iff_iff.mpr hflag,
      hstep.alike.agree.close⟩

/-- A chunked response and behind it, on the same connection, one with a length. -/
def firstResponse : List Bytes :=
  [ascii "HTTP/1.1 200 OK\r\nTransfer-Encoding: chunked\r\n\r\n0\r\n\r\n"]

def secondResponse : List Bytes :=
  [ascii "HTTP/1.1 200 OK\r\nContent-Length: 2\r\n\r\nok"]

/-- The body of the second response is taken for the size of a chunk. -/
theorem second_not_independent :
    ¬ Independent ((Client.start httpinfoNew firstResponse).run 2).1.info secondResponse := by
  intro h
  have htrace := (h 2).1
  revert htrace
  decide +kernel

end Ln882x.Http
