import Ln882x.Http.Parse

/-! Rounds of the receive loop. A search for the end of a line finds the same line
when more bytes follow. The parser leaves the bytes it did not use at the end of the
buffer, or moves its pointer past what it used; so every round takes up bytes and the
loop comes to an end. -/

namespace Ln882x.Http

open Nor (Bytes)

/-! ### Lines -/

theorem strstrCrlf_cons (c : UInt8) (cs : Bytes) :
    strstrCrlf (c :: cs) = if c = cr ∧ cs.head? = some lf then some []
      else if c = 0 then none else (strstrCrlf cs).map (c :: ·) := rfl

/-- The line found, its end and what follows. -/
theorem strstrCrlf_eq {w line : Bytes} (h : strstrCrlf w = some line) :
    w = line ++ crlf ++ w.drop (line.length + 2) := by
  induction w generalizing line with
  | nil => cases h
  | cons c cs ih =>
    rw [strstrCrlf_cons] at h
    split at h
    · rename_i hc
      obtain ⟨rfl, hlf⟩ := hc
      obtain ⟨rest, rfl⟩ := List.head?_eq_some_iff.mp hlf
      cases h
      rfl
    · split at h
      · cases h
      · obtain ⟨l, hl, rfl⟩ := Option.map_eq_some_iff.mp h
        have := ih hl
        simpa [crlf] using this

theorem strstrCrlf_append {w line : Bytes} (h : strstrCrlf w = some line) (rest : Bytes) :
    strstrCrlf (w ++ rest) = some line := by
  induction w generalizing line with
  | nil => cases h
  | cons c cs ih =>
    rw [strstrCrlf_cons] at h
    rw [List.cons_append, strstrCrlf_cons]
    split at h
    · rename_i hc
      have hlf : (cs ++ rest).head? = some lf := by
        obtain ⟨tail, rfl⟩ := List.head?_eq_some_iff.mp hc.2
        rfl
      rw [if_pos ⟨hc.1, hlf⟩, h]
    · rename_i hc
      split at h
      · cases h
      · rename_i h0
        obtain ⟨l, hl, rfl⟩ := Option.map_eq_some_iff.mp h
        have hne : ¬ (c = cr ∧ (cs ++ rest).head? = some lf) := by
          rintro ⟨hcr, hlf⟩
          cases cs with
          | nil => cases hl
          | cons d ds => exact hc ⟨hcr, hlf⟩
        rw [if_neg hne, if_neg h0, ih hl]
        rfl

theorem strstrCrlf_length {w line : Bytes} (h : strstrCrlf w = some line) :
    line.length + 2 ≤ w.length := by
  have := congrArg List.length (strstrCrlf_eq h)
  simp only [crlf, List.length_append, List.length_cons, List.length_nil] at this
  omega

theorem strstrCrlf_none_of_take {w : Bytes} (h : strstrCrlf w = none) (k : ℕ) :
    strstrCrlf (w.take k) = none := by
  cases hw : strstrCrlf (w.take k) with
  | none => rfl
  | some l =>
    have := strstrCrlf_append hw (w.drop k)
    rw [List.take_append_drop, h] at this
    cases this

theorem strstrCrlf_take {w line : Bytes} (h : strstrCrlf w = some line) {k : ℕ}
    (hk : line.length + 2 ≤ k) : strstrCrlf (w.take k) = some line := by
  induction w generalizing line k with
  | nil => cases h
  | cons c cs ih =>
    obtain ⟨k, rfl⟩ : ∃ m, k = m + 1 := ⟨k - 1, by omega⟩
    rw [List.take_succ_cons, strstrCrlf_cons]
    rw [strstrCrlf_cons] at h
    obtain ⟨j, rfl⟩ : ∃ j, k = j + 1 := ⟨k - 1, by omega⟩
    have hhead : (cs.take (j + 1)).head? = cs.head? := by cases cs <;> rfl
    rw [hhead]
    split at h
    · rename_i hc
      rw [if_pos hc, h]
    · rename_i hc
      split at h
      · cases h
      · rename_i h0
        obtain ⟨l, hl, rfl⟩ := Option.map_eq_some_iff.mp h
        rw [if_neg hc, if_neg h0, ih hl (by simpa using hk)]
        rfl

/-- A line without zeros and carriage returns. -/
def Clean (line : Bytes) : Prop := ∀ c ∈ line, c ≠ 0 ∧ c ≠ cr

theorem strstrCrlf_clean {line : Bytes} (h : Clean line) (rest : Bytes) :
    strstrCrlf (line ++ crlf ++ rest) = some line := by
  induction line with
  | nil => rfl
  | cons c cs ih =>
    obtain ⟨h0, hcr⟩ := h c List.mem_cons_self
    have ih := ih fun d hd => h d (List.mem_cons_of_mem c hd)
    rw [List.cons_append, List.cons_append, strstrCrlf_cons, if_neg (fun hc => hcr hc.1), if_neg h0, ih]
    rfl

/-! ### Header lines -/

/-- What one header line does to the response, whatever was in it before. -/
inductive Effect (f : HttpHeader → HttpHeader) : Prop
  | nothing (h : ∀ r, f r = r)
  | statusCode (v : ℕ) (h : ∀ r, f r = { r with statusCode := v })
  | cookie (v : Bytes) (h : ∀ r, f r = { r with cookie := v })
  | location (v : Bytes) (h : ∀ r, f r = { r with location := v })
  | contentType (v : Bytes) (h : ∀ r, f r = { r with contentType := v })
  | contentLength (v : ℤ) (h : ∀ r, f r = { r with contentLength := v })
  | chunked (h : ∀ r, f r = { r with chunked := true })
  | close (h : ∀ r, f r = { r with close := true })

theorem httpParseHeaderField_effect (line : Bytes) : Effect fun r => (httpParseHeaderField r line).2 := by
  simp only [httpParseHeaderField]
  cases strtoken line 256 with
  | none => exact .nothing fun _ => rfl
  | some t =>
    obtain ⟨t1, token⟩ := t
    dsimp only
    cases strtoken token 256 with
    | none => exact .nothing fun _ => rfl
    | some t =>
      obtain ⟨t2, rest⟩ := t
      dsimp only
      -- the texts play no part, and the splits are cheaper without them
      generalize startsWithNoCase t1 (ascii "http") = b1, startsWithNoCase t1 (ascii "set-cookie:") = b2,
        startsWithNoCase t1 (ascii "location:") = b3, startsWithNoCase t1 (ascii "content-type:") = b4,
        startsWithNoCase t1 (ascii "content-length:") = b5,
        startsWithNoCase t1 (ascii "transfer-encoding:") = b6, startsWithNoCase t2 (ascii "chunked") = b7,
        startsWithNoCase t1 (ascii "connection:") = b8, startsWithNoCase t2 (ascii "close") = b9
      cases b1 with
      | true => exact .statusCode _ fun _ => rfl
      | false =>
      cases b2 with
      | true => exact .cookie _ fun _ => rfl
      | false =>
      cases b3 with
      | true => exact .location _ fun _ => rfl
      | false =>
      cases b4 with
      | true => exact .contentType _ fun _ => rfl
      | false =>
      cases b5 with
      | true => exact .contentLength _ fun _ => rfl
      | false =>
      cases b6 with
      | true =>
        cases b7 with
        | true => exact .chunked fun _ => rfl
        | false => exact .nothing fun _ => rfl
      | false =>
      cases b8 with
      | true =>
        cases b9 with
        | true => exact .close fun _ => rfl
        | false => exact .nothing fun _ => rfl
      | false => exact .nothing fun _ => rfl

/-- A header line that sets the flag for chunked bodies. -/
def setsChunked (line : Bytes) : Bool := (httpParseHeaderField httpinfoNew.response line).2.chunked

theorem httpParseHeaderField_chunked (r : HttpHeader) (line : Bytes) :
    (httpParseHeaderField r line).2.chunked = (r.chunked || setsChunked line) := by
  have hnew : httpinfoNew.response.chunked = false := rfl
  unfold setsChunked
  cases httpParseHeaderField_effect line with
  | chunked h => simp only [h, Bool.or_true]
  | nothing h | statusCode v h | cookie v h | location v h | contentType v h | contentLength v h | close h =>
    simp only [h, hnew, Bool.or_false]

/-! ### The parser's loop without its rounds -/

theorem parseChunkSize_remainSize (hi : HttpInfo) (r : ℤ) (p1 : ℕ) :
    parseChunkSize { hi with remainSize := r } p1 = parseChunkSize hi p1 := by
  simp only [parseChunkSize]

/-- The result of the loop once the header is done. -/
def bodyParse (hi : HttpInfo) (p1 : ℕ) : Mode × HttpInfo :=
  if hi.response.chunked ∧ hi.remainSize = -1 then parseChunkSize hi p1
  else if hi.remainSize > 0 then parseBodyData hi p1
  else if hi.response.chunked then
    if hi.recvBuf.length > 2 ∧ (hi.recvBuf.drop p1).take 2 = crlf then parseChunkSize hi (p1 + 2)
    else parseChunkSize { hi with recvBuf := [] } p1
  else
    let body := hi.recvBuf.drop p1
    let length := if hi.remainSize = -1 then int32 (hi.response.contentLength + body.length)
      else hi.response.contentLength
    ({ Mode.parseWrite with read := true }, { hi with
      body, recvBuf := [], response := { hi.response with contentLength := length } })

variable {hi hi' : HttpInfo} {p1 : ℕ}

theorem httpParseLoop_size (n : ℕ) (h : hi.parseState = .body) (hc : hi.response.chunked = true)
    (hr : hi.remainSize = -1) : httpParseLoop (n + 1) hi p1 = some (parseChunkSize hi p1) := by
  simp only [httpParseLoop, h, hc, hr, and_self, if_true]

theorem httpParseLoop_body (n : ℕ) (h : hi.parseState = .body) :
    httpParseLoop (n + 2) hi p1 = some (bodyParse hi p1) := by
  obtain ⟨response, state, ptr, buf, size, remain, body⟩ := hi
  cases h
  rw [httpParseLoop]
  simp only [bodyParse]
  split
  · rfl
  · split
    · rfl
    · split
      · rename_i hc
        -- one more round, which looks for the size of the next chunk
        split
        · rw [httpParseLoop_size n rfl hc rfl]
          exact congrArg some (parseChunkSize_remainSize ⟨response, .body, ptr, buf, size, remain, body⟩ _ _)
        · rw [httpParseLoop_size n rfl hc rfl]
          exact congrArg some (parseChunkSize_remainSize ⟨response, .body, ptr, [], size, remain, body⟩ _ _)
      · rfl

/-- The state in which the parser goes on behind the blank line. -/
def headerEnd (hi : HttpInfo) : HttpInfo :=
  { hi with
    parseState := .body
    remainSize := if hi.response.chunked then -1
      else if hi.response.contentLength = 0 then -1 else hi.response.contentLength }

theorem httpParseLoop_blank (n : ℕ) (h : hi.parseState = .header)
    (hl : strstrCrlf (hi.recvBuf.drop p1) = some []) :
    httpParseLoop (n + 3) hi p1 = some (bodyParse (headerEnd hi) (p1 + 2)) := by
  rw [httpParseLoop, h]
  simp only [hl, List.length_nil, gt_iff_lt, lt_irrefl, if_false, Nat.add_zero]
  split
  · rename_i hc
    simp only [bodyParse, headerEnd, hc, if_true, and_self]
    exact congrArg some (parseChunkSize_remainSize { hi with parseState := .body } (-1) (p1 + 2)).symm
  · rename_i hc
    rw [httpParseLoop_body n rfl]
    simp only [headerEnd, hc, Bool.false_eq_true, if_false]

theorem httpParseLoop_line (n : ℕ) (h : hi.parseState = .header) {line : Bytes}
    (hl : strstrCrlf (hi.recvBuf.drop p1) = some line) (hne : line ≠ []) :
    httpParseLoop (n + 1) hi p1 = httpParseLoop n
      { hi with response := (httpParseHeaderField hi.response line).2 } (p1 + line.length + 2) := by
  have hpos : line.length > 0 := List.length_pos_iff.mpr hne
  rw [httpParseLoop, h]
  simp only [hl, hpos, if_true]

theorem httpParseLoop_wait (n : ℕ) (h : hi.parseState = .header)
    (hl : strstrCrlf (hi.recvBuf.drop p1) = none) :
    httpParseLoop (n + 1) hi p1 = some (.parseRead, { hi with recvBuf := hi.recvBuf.drop p1 }) := by
  rw [httpParseLoop, h]
  simp only [hl]

/-- A rule for the loop while it is in the header: it passes whole lines, then stops with
a part of one or goes on to the body. -/
theorem httpParseLoop_header {P : HttpInfo → ℕ → Option (Mode × HttpInfo) → Prop}
    (hpart : ∀ hi p1, hi.parseState = .header → strstrCrlf (hi.recvBuf.drop p1) = none →
      P hi p1 (some (.parseRead, { hi with recvBuf := hi.recvBuf.drop p1 })))
    (hblank : ∀ hi p1, hi.parseState = .header → strstrCrlf (hi.recvBuf.drop p1) = some [] →
      P hi p1 (some (bodyParse (headerEnd hi) (p1 + 2))))
    (hline : ∀ hi p1 line r, hi.parseState = .header → strstrCrlf (hi.recvBuf.drop p1) = some line →
      line ≠ [] → P { hi with response := (httpParseHeaderField hi.response line).2 }
        (p1 + line.length + 2) r → P hi p1 r)
    (n : ℕ) (hi : HttpInfo) (p1 : ℕ) (h : hi.parseState = .header) (hn : hi.recvBuf.length - p1 + 2 < n) :
    P hi p1 (httpParseLoop n hi p1) := by
  induction n generalizing hi p1 with
  | zero => omega
  | succ n ih =>
    cases hl : strstrCrlf (hi.recvBuf.drop p1) with
    | none =>
      rw [httpParseLoop_wait n h hl]
      exact hpart hi p1 h hl
    | some line =>
      have hlen := strstrCrlf_length hl
      rw [List.length_drop] at hlen
      by_cases hne : line = []
      · subst hne
        obtain ⟨m, rfl⟩ : ∃ m, n = m + 2 := ⟨n - 2, by omega⟩
        rw [httpParseLoop_blank m h hl]
        exact hblank hi p1 h hl
      · rw [httpParseLoop_line n h hl hne]
        refine hline hi p1 line _ h hl hne (ih _ _ h ?_)
        show hi.recvBuf.length - (p1 + line.length + 2) + 2 < n
        omega

/-! ### Progress -/

/-- The bytes the next call of the parser starts with. -/
def HttpInfo.window (hi : HttpInfo) : Bytes := hi.recvBuf.drop (hi.parsePtr.getD 0)

/-- What a result of the parser leaves of `w` bytes at the end of the buffer: not more than
them before a read, and fewer if the parser is called again at once. -/
structure Progress (buf : Bytes) (w : ℕ) (r : Mode × HttpInfo) : Prop where
  read : r.1.read = true → r.2.recvBuf.length ≤ w
  again : r.1.read = false → r.1.chunk = true ∨ r.1.ended = false ∧ r.1.error = false →
    r.2.window.length < w ∧ r.2.recvBuf = buf ∧ r.2.parsePtr.isSome = true ∧ r.2.parseState = .body
  ended : r.2.parseState = .ended → r.1.ended = true ∧ r.1.read = false ∧ r.1.chunk = false

variable {buf : Bytes} {w w' : ℕ} {r : Mode × HttpInfo}

theorem Progress.of_read (hr : r.1.read = true) (hl : r.2.recvBuf.length ≤ w)
    (hs : r.2.parseState ≠ .ended) : Progress buf w r :=
  ⟨fun _ => hl, fun h => (nomatch hr.symm.trans h), fun h => absurd h hs⟩

theorem Progress.of_done (hr : r.1.read = false) (hc : r.1.chunk = false)
    (hd : r.1.ended = true ∨ r.1.error = true) (hs : r.2.parseState = .ended → r.1.ended = true) :
    Progress buf w r := by
  refine ⟨fun h => (nomatch hr.symm.trans h), fun _ h => ?_, fun h => ⟨hs h, hr, hc⟩⟩
  rcases hd with hd | hd <;> simp [hc, hd] at h

theorem Progress.mono (h : Progress buf w r) (hw : w ≤ w') : Progress buf w' r :=
  ⟨fun hr => (h.read hr).trans hw,
    fun h1 h2 => ⟨(h.again h1 h2).1.trans_le hw, (h.again h1 h2).2⟩, h.ended⟩

theorem parseChunkSize_progress (h : hi.parseState = .body) :
    Progress hi.recvBuf (hi.recvBuf.length - p1) (parseChunkSize hi p1) := by
  have hne : hi.parseState ≠ .ended := by simp [h]
  simp only [parseChunkSize]
  split
  · exact .of_read rfl (Nat.zero_le _) hne
  · split
    · rename_i line hl
      have hlen := strstrCrlf_length hl
      rw [List.length_drop] at hlen
      split
      · refine ⟨nofun, fun _ _ => ⟨?_, rfl, rfl, h⟩, fun he => absurd he hne⟩
        simp only [HttpInfo.window, Option.getD_some, List.length_drop]
        omega
      · exact .of_done rfl rfl (.inl rfl) fun _ => rfl
    · exact .of_read rfl List.length_drop.le hne

theorem parseBodyData_progress (h : hi.parseState = .body) (hr : 0 < hi.remainSize) :
    Progress hi.recvBuf (hi.recvBuf.length - p1) (parseBodyData hi p1) := by
  have hne : hi.parseState ≠ .ended := by simp [h]
  have hlen : (hi.recvBuf.drop p1).length = hi.recvBuf.length - p1 := List.length_drop
  simp only [parseBodyData]
  split
  · split
    · rename_i hc
      refine ⟨nofun, fun _ _ => ⟨?_, rfl, rfl, h⟩, fun he => absurd he hne⟩
      simp only [HttpInfo.window, Option.getD_some, List.length_drop]
      omega
    · exact .of_done rfl rfl (.inr rfl) fun he => absurd he hne
  · split
    · exact .of_done rfl rfl (.inl rfl) fun _ => rfl
    · exact .of_read rfl (Nat.zero_le _) hne

theorem bodyParse_progress (h : hi.parseState = .body) :
    Progress hi.recvBuf (hi.recvBuf.length - p1) (bodyParse hi p1) := by
  have hne : hi.parseState ≠ .ended := by simp [h]
  simp only [bodyParse]
  split
  · exact parseChunkSize_progress h
  · split
    · rename_i hr
      exact parseBodyData_progress h hr
    · split
      · split
        · exact (parseChunkSize_progress h).mono (by omega)
        · simp only [parseChunkSize, List.drop_nil, if_true]
          exact .of_read rfl (Nat.zero_le _) hne
      · exact .of_read rfl (Nat.zero_le _) hne

theorem httpParseLoop_progress {n : ℕ} (h : hi.parseState = .header)
    (hn : hi.recvBuf.length - p1 + 2 < n) :
    ∃ r, httpParseLoop n hi p1 = some r ∧ Progress hi.recvBuf (hi.recvBuf.length - p1) r := by
  refine httpParseLoop_header
    (P := fun hi p1 res => ∃ r, res = some r ∧ Progress hi.recvBuf (hi.recvBuf.length - p1) r)
    ?_ ?_ ?_ n hi p1 h hn
  · intro hi p1 h hl
    exact ⟨_, rfl, .of_read rfl List.length_drop.le (by simp [h])⟩
  · intro hi p1 h hl
    exact ⟨_, rfl, (@bodyParse_progress (headerEnd hi) _ rfl).mono
      (Nat.sub_le_sub_left (Nat.le_add_right p1 2) _)⟩
  · rintro hi p1 line r h hl hne ⟨r, hr, hp⟩
    exact ⟨r, hr, hp.mono (Nat.sub_le_sub_left (by omega) _)⟩

/-- Between two calls: nothing has been read yet, or the pointer is in a buffer with bytes. -/
structure Ready (hi : HttpInfo) : Prop where
  running : hi.parseState ≠ .ended
  fits : hi.recvBuf.length ≤ fieldHttpRecvBufMaxLen
  ptr : hi.parsePtr = none ∧ hi.recvBuf = [] ∧ hi.parseState = .header ∨
    hi.parsePtr.isSome = true ∧ hi.recvBuf ≠ []

/-- A rule for one call of the parser. -/
theorem Ready.httpParse (h : Ready hi) {P : Option (Mode × HttpInfo) → Prop}
    (hfirst : hi.parsePtr = none → hi.recvBuf = [] → hi.parseState = .header → P (some (.parseRead, hi)))
    (hheader : ∀ p1, hi.parsePtr = some p1 → hi.parseState = .header →
      P (httpParseLoop (hi.recvBuf.length + 3) hi p1))
    (hbody : ∀ p1, hi.parsePtr = some p1 → hi.parseState = .body → P (some (bodyParse hi p1))) :
    P (httpParse hi) := by
  unfold Http.httpParse
  rcases h.ptr with ⟨hp, hb, hs⟩ | ⟨hp, hb⟩
  · simp only [hp, hb, if_true]
    exact hfirst hp hb hs
  · obtain ⟨p, hp⟩ := Option.isSome_iff_exists.mp hp
    simp only [hp, hb, if_false]
    cases hs : hi.parseState with
    | header => exact hheader p hp hs
    | body =>
      rw [httpParseLoop_body _ hs]
      exact hbody p hp hs
    | ended => exact absurd hs h.running

/-- The parser returns. -/
theorem Ready.progress (h : Ready hi) :
    ∃ r, Http.httpParse hi = some r ∧ Progress hi.recvBuf hi.window.length r := by
  refine h.httpParse 
    (P := fun res => ∃ r, res = some r ∧ Progress hi.recvBuf hi.window.length r) ?_ ?_ ?_
  · intro hp hb hs
    exact ⟨_, rfl, .of_read rfl (by simp [hb]) h.running⟩
  · intro p hp hs
    simp only [HttpInfo.window, hp, Option.getD_some, List.length_drop]
    exact httpParseLoop_progress hs (by omega)
  · intro p hp hs
    simp only [HttpInfo.window, hp, Option.getD_some, List.length_drop]
    exact ⟨_, rfl, bodyParse_progress hs⟩

/-- A read appends some bytes that are next in the queue. -/
theorem httpsRead_spec {info info' : HttpInfo} {queue queue' : List Bytes}
    (h : httpsRead info queue = some (info', queue')) :
    ∃ got, got ≠ [] ∧ info' = { info with recvBuf := info.recvBuf ++ got, parsePtr := some 0 } ∧
      info'.recvBuf.length ≤ fieldHttpRecvBufMaxLen ∧ got ++ queue'.flatten = queue.flatten := by
  cases queue with
  | nil => cases h
  | cons seg queue =>
    simp only [httpsRead] at h
    split at h
    · cases h
    · rename_i hgot
      cases h
      refine ⟨_, hgot, rfl, ?_, ?_⟩
      · have hpos := List.length_pos_iff.mpr hgot
        simp only [List.length_append, List.length_take] at hpos ⊢
        omega
      · split
        · rename_i hle
          rw [List.take_of_length_le hle, List.flatten_cons]
        · rw [List.flatten_cons, List.flatten_cons, ← List.append_assoc, List.take_append_drop]

namespace Client

variable {c c' : Client}

/-- A round that is not the last: the parser's result, and the read behind it if one was due. -/
theorem turn_spec (h : c.turn = (c', none)) (hr : Ready c.info) :
    ∃ mode info, httpParse c.info = some (mode, info) ∧
      c'.trace = c.trace ++ [(mode, if mode.write then some info.body else none)] ∧ Ready c'.info ∧
      (mode.read = true ∧ info.recvBuf.length ≤ c.info.window.length ∧
          httpsRead info c.queue = some (c'.info, c'.queue) ∨
        mode.read = false ∧ c'.info = info ∧ c'.queue = c.queue ∧ info.parseState = .body ∧
          info.window.length < c.info.window.length) := by
  obtain ⟨⟨mode, info⟩, hp, hprog⟩ := hr.progress
  refine ⟨mode, info, hp, ?_⟩
  rw [turn, hp] at h
  simp only [handle] at h
  split at h
  · rename_i hread
    split at h
    · cases h
    · rename_i info' queue' hrd
      cases h
      obtain ⟨got, hgot, rfl, hfit, -⟩ := httpsRead_spec hrd
      refine ⟨rfl, ⟨fun he => ?_, hfit, .inr ⟨rfl, by simp [hgot]⟩⟩,
        .inl ⟨hread, hprog.read hread, hrd⟩⟩
      cases (hprog.ended he).2.1.symm.trans hread
  · rename_i hread
    have hread : mode.read = false := by simpa using hread
    -- the parser is called again at once
    have hagain : (mode.chunk = true ∨ mode.ended = false ∧ mode.error = false) ∧
        c' = { c with info, trace := c.trace ++ [(mode, if mode.write then some info.body else none)] } := by
      split at h
      · rename_i hchunk
        cases h
        exact ⟨.inl hchunk, rfl⟩
      · split at h
        · cases h
        · split at h
          · cases h
          · rename_i hended herror
            cases h
            exact ⟨.inr ⟨by simpa using hended, by simpa using herror⟩, rfl⟩
    obtain ⟨hmode, rfl⟩ := hagain
    obtain ⟨hw, hb, hptr, hs⟩ := hprog.again hread hmode
    have hne : c.info.recvBuf ≠ [] := by
      intro h0
      rw [HttpInfo.window, HttpInfo.window, hb, h0] at hw
      simp at hw
    refine ⟨rfl, ⟨fun he => (nomatch hs.symm.trans he), ?_, .inr ⟨hptr, ?_⟩⟩, .inr ⟨hread, rfl, rfl, hs, hw⟩⟩
    · exact hb ▸ hr.fits
    · exact hb ▸ hne

/-- What is left to be taken up; bytes that have not been read count twice. -/
def left (c : Client) : ℕ := 2 * c.queue.flatten.length + c.info.window.length

theorem turn_left (h : c.turn = (c', none)) (hr : Ready c.info) : c'.left < c.left := by
  obtain ⟨mode, info, -, -, -, ⟨-, hkept, hrd⟩ | ⟨-, rfl, hq, -, hw⟩⟩ := turn_spec h hr
  · obtain ⟨got, hgot, hinfo, -, hq⟩ := httpsRead_spec hrd
    have hlen := congrArg List.length hq
    have hpos := List.length_pos_iff.mpr hgot
    rw [List.length_append] at hlen
    simp only [left, HttpInfo.window, hinfo, Option.getD_some, List.drop_zero, List.length_append]
    simp only [HttpInfo.window] at hkept
    omega
  · simp only [left, hq]
    omega

/-- The loop comes to an end. -/
theorem exists_run_ending (c : Client) (hr : Ready c.info) : ∃ n e, (c.run n).2 = some e := by
  induction hk : c.left using Nat.strong_induction_on generalizing c with
  | _ k ih =>
    subst hk
    rcases ht : c.turn with ⟨c', _ | e⟩
    · obtain ⟨-, -, -, -, hr', -⟩ := turn_spec ht hr
      obtain ⟨n, e, hn⟩ := ih _ (turn_left ht hr) c' hr' rfl
      exact ⟨n + 1, e, by rw [run, ht]; exact hn⟩
    · exact ⟨1, e, by rw [run, ht]⟩

end Client

end Ln882x.Http
