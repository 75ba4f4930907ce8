import Ln882x.Http.Segments

/-! The body of a response, handed over in slices. With a length the body comes out whole
exactly if the parser has read the length right and it is not zero. With chunks it comes
out whole unless a read ends between the two bytes of the line end behind a chunk, in
which case the parser reports an error; a read of the first of the two bytes alone does
no harm. -/

namespace Ln882x.Http

open Nor (Bytes)
open Client

variable {segs : List Bytes} {c c' : Client} {hi : HttpInfo} {p1 : ℕ}

theorem httpParse_body (hs : hi.parseState = .body) (hptr : hi.parsePtr = some p1) (hbuf : hi.recvBuf ≠ []) :
    httpParse hi = some (bodyParse hi p1) := by
  simp only [httpParse, hptr, hbuf, if_false]
  exact httpParseLoop_body _ hs

theorem bodyParse_data (h : 0 < hi.remainSize) : bodyParse hi p1 = parseBodyData hi p1 := by
  have hne : ¬ (hi.response.chunked = true ∧ hi.remainSize = -1) := by omega
  simp only [bodyParse, hne, if_false, gt_iff_lt, h, if_true]

/-! ### A body with a length -/

/-- The rest of a body of which the parser still expects `m` bytes. -/
structure LengthStage (segs : List Bytes) (c : Client) (hi : HttpInfo) (p1 m : ℕ) (rest : Bytes) : Prop where
  feed : Feed segs c
  parse : httpParse c.info = some (parseBodyData hi p1)
  state : hi.parseState = .body
  plain : hi.response.chunked = false
  remain : hi.remainSize = m
  pos : 0 < m
  le : m ≤ rest.length
  stream : hi.recvBuf.drop p1 ++ c.queue.flatten = rest

theorem LengthStage.outcome {m : ℕ} {rest : Bytes} (S : LengthStage segs c hi p1 m rest) :
    m = rest.length ∧ Ends c.turn .ended (c.written ++ rest) ∨
    m < rest.length ∧ ∃ e out, Ends c.turn e out ∧ (e = .ended → out.length = c.written.length + m) := by
  induction hk : c.left using Nat.strong_induction_on generalizing c hi p1 m rest with
  | _ k ih =>
    subst hk
    obtain ⟨hfeed, hparse, hstate, hplain, hremain, hpos, hle, hstream⟩ := S
    have hlen := congrArg List.length hstream
    rw [List.length_append] at hlen
    rw [parseBodyData] at hparse
    simp only [hremain, hplain, Bool.false_eq_true, false_and, if_false, not_false_eq_true, true_and] at hparse
    split at hparse
    · -- more bytes than expected
      rename_i hlt
      refine .inr ⟨by omega, .error, c.written ++ (hi.recvBuf.drop p1).take m, ?_, fun he => ?_⟩
      swap
      · cases he
      simp only [turn, hparse, handle, Ends, written, Mode.parseWrite, Mode.none]
      simp
    · rename_i hge
      split at hparse
      · -- the last byte that is expected
        rename_i hzero
        have hout : Ends c.turn .ended (c.written ++ hi.recvBuf.drop p1) := by
          simp only [turn, hparse, handle, Ends, written, Mode.parseWrite, Mode.none]
          simp
        rcases Nat.lt_or_ge m rest.length with hm | hm
        · refine .inr ⟨hm, .ended, _, hout, fun _ => ?_⟩
          rw [List.length_append]
          omega
        · have hq : c.queue.flatten = [] := List.length_eq_zero_iff.mp (by omega)
          rw [hq, List.append_nil] at hstream
          exact .inl ⟨by omega, hstream ▸ hout⟩
      · rename_i hnz
        have hq : c.queue ≠ [] := by
          intro h0
          rw [h0, List.flatten_nil, List.length_nil] at hlen
          omega
        obtain ⟨c', seg, ht, hsq, hne, hfeed', hinfo, hwr⟩ := hfeed.read hparse rfl hq
        have hstate' : c'.info.parseState = .body := by rw [hinfo]; exact hstate
        have hrem : c'.info.remainSize = (m - (hi.recvBuf.drop p1).length : ℕ) := by
          rw [hinfo]
          simp only
          omega
        have hbuf : c'.info.recvBuf = seg := by rw [hinfo]; rfl
        have hstage : LengthStage segs c' c'.info 0 (m - (hi.recvBuf.drop p1).length) c.queue.flatten :=
          { feed := hfeed'
            parse := by
              rw [httpParse_body hstate' (by rw [hinfo]) (hbuf ▸ hne), bodyParse_data (by omega)]
            state := hstate'
            plain := by rw [hinfo]; exact hplain
            remain := hrem
            pos := by omega
            le := by omega
            stream := by rw [hbuf, hsq]; rfl }
        have hwr : c'.written = c.written ++ hi.recvBuf.drop p1 := hwr
        rcases ih _ (turn_left ht hfeed.ready) hstage rfl with ⟨hm, hends⟩ | ⟨hm, e, out, hends, hout⟩
        · rw [hwr, List.append_assoc, hstream] at hends
          exact .inl ⟨by omega, (ends_turn ht).mpr hends⟩
        · refine .inr ⟨by omega, e, out, (ends_turn ht).mpr hends, fun he => ?_⟩
          rw [hout he, hwr, List.length_append]
          omega

/-- Without a length the parser reads on until the connection is closed. -/
theorem ends_closed (hfeed : Feed segs c) (hparse : httpParse c.info = some (bodyParse hi p1))
    (hstate : hi.parseState = .body) (hplain : hi.response.chunked = false) (hremain : hi.remainSize = -1) :
    ∃ out, Ends c.turn .closed out := by
  induction hk : c.left using Nat.strong_induction_on generalizing c hi p1 with
  | _ k ih =>
    subst hk
    have hbody : ∃ info, bodyParse hi p1 = ({ Mode.parseWrite with read := true }, info) ∧
        info.parseState = .body ∧ info.response.chunked = false ∧ info.remainSize = -1 := by
      have h0 : ¬ (-1 : ℤ) > 0 := by omega
      simp only [bodyParse, hplain, hremain, h0, Bool.false_eq_true, false_and, if_false]
      exact ⟨_, rfl, hstate, rfl, rfl⟩
    obtain ⟨info, hb, hstate', hplain', hremain'⟩ := hbody
    rw [hb] at hparse
    by_cases hq : c.queue = []
    · simp only [turn, hparse, handle, hq, httpsRead, if_true, Ends]
      exact ⟨_, trivial, rfl⟩
    · obtain ⟨c', seg, ht, -, hne, hfeed', hinfo, -⟩ := hfeed.read hparse rfl hq
      have hnext : httpParse c'.info = some (bodyParse c'.info 0) := by
        refine httpParse_body ?_ (by rw [hinfo]) ?_
        · rw [hinfo]
          exact hstate'
        · rw [hinfo]
          simp [hne]
      obtain ⟨out, hout⟩ := ih _ (turn_left ht hfeed.ready) hfeed' hnext (by rw [hinfo]; exact hstate')
        (by rw [hinfo]; exact hplain') (by rw [hinfo]; exact hremain') rfl
      exact ⟨out, (ends_turn ht).mpr hout⟩

/-! ### Chunks -/

/-- For every chunk: where a read ends between the two bytes of the line end behind the
data, one also ends before the first of them. -/
def GoodCuts (segs : List Bytes) (last : Chunk) : List Chunk → Prop
  | [] => True
  | _ :: chunks => (Cut segs (1 + (chunkStream last chunks).length) →
      Cut segs (2 + (chunkStream last chunks).length)) ∧ GoodCuts segs last chunks

/-- The parser looks for the size of the next chunk. -/
structure SizeStage (segs : List Bytes) (last : Chunk) (c : Client) (hi : HttpInfo) (p1 : ℕ) (lead : Bytes)
    (chunks : List Chunk) : Prop where
  feed : Feed segs c
  parse : httpParse c.info = some (parseChunkSize hi p1)
  state : hi.parseState = .body
  chunked : hi.response.chunked = true
  lead_eq : lead = [] ∨ lead = [lf]
  fresh : Fresh segs (hi.recvBuf.drop p1) c.queue
  stream : hi.recvBuf.drop p1 ++ c.queue.flatten = lead ++ chunkStream last chunks

/-- The parser is in the data of a chunk, of which `d` is left. -/
structure DataStage (segs : List Bytes) (last : Chunk) (c : Client) (hi : HttpInfo) (p1 : ℕ) (d : Bytes)
    (chunks : List Chunk) : Prop where
  feed : Feed segs c
  parse : httpParse c.info = some (parseBodyData hi p1)
  state : hi.parseState = .body
  chunked : hi.response.chunked = true
  remain : hi.remainSize = d.length
  pos : d ≠ []
  whole : Whole segs (hi.recvBuf.drop p1) c.queue
  stream : hi.recvBuf.drop p1 ++ c.queue.flatten = d ++ crlf ++ chunkStream last chunks

section

variable {last : Chunk} {lead d : Bytes} {chunks : List Chunk}

/-- The line of the next size stands at the front of the stream. -/
theorem chunkStream_eq (last : Chunk) (chunks : List Chunk) :
    ∃ ch tail, chunkStream last chunks = ch.line ++ crlf ++ tail ∧
      (chunks = [] ∧ ch = last ∨ ∃ rest, chunks = ch :: rest ∧ tail = ch.data ++ crlf ++ chunkStream last rest) := by
  cases chunks with
  | nil => exact ⟨last, crlf, rfl, .inl ⟨rfl, rfl⟩⟩
  | cons ch rest => exact ⟨ch, _, rfl, .inr ⟨rest, rfl, rfl⟩⟩

theorem SizeStage.step (S : SizeStage segs last c hi p1 lead chunks) (hlast : last.data = [])
    (hsizes : ∀ ch ∈ chunks, ch.data ≠ [] ∧ ch.data.length < 2 ^ 31) :
    (∃ c', c.turn = (c', none) ∧ c'.written = c.written ∧
      SizeStage segs last c' c'.info 0 lead chunks) ∨
    chunks = [] ∧ Ends c.turn .ended c.written ∨
    ∃ ch rest c' p2, chunks = ch :: rest ∧ c.turn = (c', none) ∧ c'.written = c.written ∧
      DataStage segs last c' c'.info p2 ch.data rest := by
  obtain ⟨hfeed, hparse, hstate, hchunked, hlead, hfresh, hstream⟩ := S
  obtain ⟨ch, tail, hcs, hcases⟩ := chunkStream_eq last chunks
  rw [hcs] at hstream
  have hstream' : hi.recvBuf.drop p1 ++ c.queue.flatten = (lead ++ ch.line) ++ crlf ++ tail := by
    simpa [List.append_assoc] using hstream
  have hfull : strstrCrlf (hi.recvBuf.drop p1 ++ c.queue.flatten) = some (lead ++ ch.line) := by
    rw [hstream']
    exact strstrCrlf_clean (clean_chunk ch hlead) tail
  cases hl : strstrCrlf (hi.recvBuf.drop p1) with
  | none =>
    -- the line is not complete: read on
    have hq : c.queue ≠ [] := by
      intro h0
      rw [h0, List.flatten_nil, List.append_nil, hl] at hfull
      cases hfull
    have hres : parseChunkSize hi p1 = (.parseRead,
        { hi with recvBuf := hi.recvBuf.drop p1, remainSize := -1 }) := by
      simp only [parseChunkSize, hl]
      split
      · rename_i h0
        rw [h0]
      · rfl
    rw [hres] at hparse
    obtain ⟨c', seg, ht, hsq, hne, hfeed', hinfo, hwr⟩ := hfeed.read hparse rfl hq
    have hstate' : c'.info.parseState = .body := by rw [hinfo]; exact hstate
    have hchunked' : c'.info.response.chunked = true := by rw [hinfo]; exact hchunked
    have hremain' : c'.info.remainSize = -1 := by rw [hinfo]
    have hbuf : c'.info.recvBuf = hi.recvBuf.drop p1 ++ seg := by rw [hinfo]
    refine .inl ⟨c', ht, hwr.trans (List.append_nil _), ?_⟩
    exact
      { feed := hfeed'
        parse := by
          rw [httpParse_body hstate' (by rw [hinfo]) (by rw [hbuf]; simp [hne]), bodyParse,
            if_pos ⟨hchunked', hremain'⟩]
        state := hstate'
        chunked := hchunked'
        lead_eq := hlead
        fresh := by
          rw [hbuf]
          exact fresh_append hl (hsq ▸ hfeed.suffix)
        stream := by
          rw [hbuf, hcs, ← hstream, hsq, List.flatten_cons, List.drop_zero, List.append_assoc] }
  | some line =>
    obtain rfl : line = lead ++ ch.line := by
      have := strstrCrlf_append hl c.queue.flatten
      rw [hfull] at this
      exact (Option.some.inj this).symm
    have hdata : hi.recvBuf.drop p1 ≠ [] := by
      intro h0
      rw [h0] at hl
      cases hl
    have hval := strtol_chunk ch hlead
    simp only [parseChunkSize, hdata, if_false, hl, hval] at hparse
    rcases hcases with ⟨rfl, rfl⟩ | ⟨rest, rfl, rfl⟩
    · -- the last chunk
      rw [if_neg (by simp [hlast, longMax])] at hparse
      refine .inr (.inl ⟨rfl, ?_⟩)
      simp only [turn, hparse, handle, Ends, written, Mode.parseEnd, Mode.none]
      simp
    · obtain ⟨hne, hlt⟩ := hsizes ch List.mem_cons_self
      have hpos := List.length_pos_iff.mpr hne
      have hmin : min longMax (ch.data.length : ℤ) = ch.data.length := by
        simp only [longMax]
        omega
      rw [hmin, if_pos (by omega)] at hparse
      obtain ⟨c', ht, hq, hfeed', hinfo, hwr⟩ := hfeed.again hparse rfl (.inl rfl)
      have hstate' : c'.info.parseState = .body := by rw [hinfo]; exact hstate
      have hremain' : c'.info.remainSize = ch.data.length := by rw [hinfo]
      have hbuf : c'.info.recvBuf = hi.recvBuf := by rw [hinfo]
      have hdrop : c'.info.recvBuf.drop (p1 + (lead ++ ch.line).length + 2)
          = (hi.recvBuf.drop p1).drop ((lead ++ ch.line).length + 2) := by
        rw [hbuf, List.drop_drop, Nat.add_assoc]
      refine .inr (.inr ⟨ch, rest, c', p1 + (lead ++ ch.line).length + 2, rfl, ht,
        hwr.trans (List.append_nil _), ?_⟩)
      exact
        { feed := hfeed'
          parse := by
            rw [httpParse_body hstate' (by rw [hinfo]) (by rw [hbuf]; rintro h0; simp [h0] at hdata),
              bodyParse_data (by omega)]
          state := hstate'
          chunked := by rw [hinfo]; exact hchunked
          remain := hremain'
          pos := hne
          whole := by
            rw [hdrop, hq]
            exact hfresh.whole_drop hl le_rfl
          stream := by
            rw [hdrop, hq]
            exact drop_append_of_line hl hstream' }

/-- The data ended with a read, and the next read starts with the line end behind it. A
read of one or two bytes is dropped whole, so that a line feed may be left over. -/
theorem sizeStage_of_lineEnd (hfeed : Feed segs c) (hstate : c.info.parseState = .body)
    (hchunked : c.info.response.chunked = true) (hremain : c.info.remainSize = 0)
    (hptr : c.info.parsePtr = some 0) (hbuf : c.info.recvBuf ≠ [])
    (hwhole : Whole segs c.info.recvBuf c.queue)
    (hstream : c.info.recvBuf ++ c.queue.flatten = crlf ++ chunkStream last chunks) :
    ∃ hi p1 lead, SizeStage segs last c hi p1 lead chunks := by
  have hparse : httpParse c.info = some (if c.info.recvBuf.length > 2 ∧ c.info.recvBuf.take 2 = crlf then
      parseChunkSize c.info 2 else parseChunkSize { c.info with recvBuf := [] } 0) := by
    rw [httpParse_body hstate hptr hbuf]
    simp [bodyParse, hchunked, hremain]
  rcases hseg : c.info.recvBuf with _ | ⟨a, _ | ⟨b, rest⟩⟩
  · exact absurd hseg hbuf
  · -- the carriage return alone
    rw [hseg] at hstream hparse
    obtain ⟨-, hq⟩ := List.cons.inj hstream
    refine ⟨{ c.info with recvBuf := [] }, 0, [lf], hfeed, hparse, hstate, hchunked, .inr rfl, ?_, hq⟩
    exact whole_nil.fresh
  · rw [hseg] at hstream hwhole hparse
    obtain ⟨rfl, hlf⟩ := List.cons.inj hstream
    obtain ⟨rfl, hq⟩ := List.cons.inj hlf
    cases rest with
    | nil =>
      refine ⟨{ c.info with recvBuf := [] }, 0, [], hfeed, hparse, hstate, hchunked, .inl rfl, ?_, hq⟩
      exact whole_nil.fresh
    | cons x xs =>
      rw [if_pos ⟨by simp, rfl⟩] at hparse
      refine ⟨c.info, 2, [], hfeed, hparse, hstate, hchunked, .inl rfl, ?_, ?_⟩
      · rw [hseg]
        exact (hwhole.drop 2).fresh
      · rw [hseg]
        exact hq

theorem DataStage.step (D : DataStage segs last c hi p1 d chunks) :
    (∃ c' d1 d2, d = d1 ++ d2 ∧ c.turn = (c', none) ∧ c'.written = c.written ++ d1 ∧
      DataStage segs last c' c'.info 0 d2 chunks) ∨
    (∃ c' hi' p2 lead, (Cut segs (1 + (chunkStream last chunks).length) →
        Cut segs (2 + (chunkStream last chunks).length)) ∧ c.turn = (c', none) ∧
      c'.written = c.written ++ d ∧ SizeStage segs last c' hi' p2 lead chunks) ∨
    (∃ out, Ends c.turn .error out) ∧ Cut segs (1 + (chunkStream last chunks).length) ∧
      ¬ Cut segs (2 + (chunkStream last chunks).length) := by
  obtain ⟨hfeed, hparse, hstate, hchunked, hremain, hpos, hwhole, hstream⟩ := D
  have hdpos := List.length_pos_iff.mpr hpos
  have hlen := congrArg List.length hstream
  simp only [crlf, List.length_append, List.length_cons, List.length_nil] at hlen
  have hcut : Cut segs c.queue.flatten.length := ⟨c.queue, hfeed.suffix, rfl⟩
  rw [parseBodyData] at hparse
  simp only [hremain, hchunked, true_and, not_true_eq_false, false_and, if_false, Int.toNat_natCast] at hparse
  split at hparse
  · rename_i hlt
    have hlt : d.length < (hi.recvBuf.drop p1).length := by omega
    split at hparse
    · -- the data and its line end are there
      rename_i htwo
      have htake : (hi.recvBuf.drop p1).take d.length = d := by
        have := congrArg (List.take d.length) hstream
        rwa [List.take_append_of_le_length hlt.le, List.append_assoc, List.take_left] at this
      rw [htake] at hparse
      obtain ⟨c', ht, hq, hfeed', hinfo, hwr⟩ := hfeed.again hparse rfl (.inr ⟨rfl, rfl⟩)
      have hstate' : c'.info.parseState = .body := by rw [hinfo]; exact hstate
      have hchunked' : c'.info.response.chunked = true := by rw [hinfo]; exact hchunked
      have hbuf : c'.info.recvBuf = hi.recvBuf := by rw [hinfo]
      have hne : c'.info.recvBuf ≠ [] := by
        intro h0
        rw [hbuf.symm.trans h0, List.drop_nil] at hlt
        exact absurd hlt (Nat.not_lt_zero _)
      have hdrop : c'.info.recvBuf.drop (p1 + d.length + 2) = (hi.recvBuf.drop p1).drop (d.length + 2) := by
        rw [hbuf, List.drop_drop, Nat.add_assoc]
      refine .inr (.inl ⟨c', c'.info, p1 + d.length + 2, [], ?_, ht, hwr, ?_⟩)
      · intro h1
        exact absurd h1 (hwhole _ (by omega) (by omega))
      · exact
          { feed := hfeed'
            parse := by
              rw [httpParse_body hstate' (by rw [hinfo]) hne, bodyParse,
                if_pos ⟨hchunked', by rw [hinfo]⟩]
            state := hstate'
            chunked := hchunked'
            lead_eq := .inl rfl
            fresh := by
              rw [hdrop, hq]
              exact (hwhole.drop _).fresh
            stream := by
              have := congrArg (List.drop (d.length + 2)) hstream
              rw [List.drop_append_of_le_length (by omega)] at this
              rw [hdrop, hq, this, List.append_assoc, List.drop_append, List.drop_eq_nil_of_le (by omega)]
              simp [crlf] }
    · -- of the line end only the first byte
      rename_i htwo
      have hone : (hi.recvBuf.drop p1).length = d.length + 1 := by omega
      refine .inr (.inr ⟨⟨c.written ++ (hi.recvBuf.drop p1).take d.length, ?_⟩, ?_, ?_⟩)
      · simp only [turn, hparse, handle, Ends, written, Mode.parseWrite, Mode.none]
        simp
      · have : c.queue.flatten.length = 1 + (chunkStream last chunks).length := by omega
        exact this ▸ hcut
      · exact hwhole _ (by omega) (by omega)
  · rename_i hge
    have hge : (hi.recvBuf.drop p1).length ≤ d.length := by omega
    have hd : d = hi.recvBuf.drop p1 ++ d.drop (hi.recvBuf.drop p1).length := by
      have := congrArg (List.take (hi.recvBuf.drop p1).length) hstream
      rw [List.take_left, List.append_assoc, List.take_append_of_le_length hge] at this
      conv_lhs => rw [← List.take_append_drop (hi.recvBuf.drop p1).length d]
      rw [← this]
    have hrest : c.queue.flatten
        = d.drop (hi.recvBuf.drop p1).length ++ crlf ++ chunkStream last chunks := by
      have := congrArg (List.drop (hi.recvBuf.drop p1).length) hstream
      rwa [List.drop_left, List.append_assoc, List.drop_append_of_le_length hge, ← List.append_assoc] at this
    have hq : c.queue ≠ [] := by
      intro h0
      rw [h0, List.flatten_nil, List.length_nil] at hlen
      omega
    obtain ⟨c', seg, ht, hsq, hne, hfeed', hinfo, hwr⟩ := hfeed.read hparse rfl hq
    have hstate' : c'.info.parseState = .body := by rw [hinfo]; exact hstate
    have hchunked' : c'.info.response.chunked = true := by rw [hinfo]; exact hchunked
    have hbuf : c'.info.recvBuf = seg := by rw [hinfo]; rfl
    have hremain' : c'.info.remainSize = d.length - (hi.recvBuf.drop p1).length := by rw [hinfo]
    have hwhole' : Whole segs seg c'.queue := whole_piece (hsq ▸ hfeed.suffix)
    rw [hsq, List.flatten_cons] at hrest
    have hwr : c'.written = c.written ++ hi.recvBuf.drop p1 := hwr
    rcases Nat.lt_or_ge (hi.recvBuf.drop p1).length d.length with hlt | hge'
    · -- more of the data
      refine .inl ⟨c', _, _, hd, ht, hwr, ?_⟩
      have hlen' : (d.drop (hi.recvBuf.drop p1).length).length
          = d.length - (hi.recvBuf.drop p1).length := List.length_drop
      exact
        { feed := hfeed'
          parse := by
            rw [httpParse_body hstate' (by rw [hinfo]) (hbuf ▸ hne), bodyParse_data (by omega)]
          state := hstate'
          chunked := hchunked'
          remain := by omega
          pos := List.length_pos_iff.mp (by omega)
          whole := by rw [hbuf]; exact hwhole'
          stream := by rw [hbuf]; exact hrest }
    · -- the data ends with this read
      have hnil : d.drop (hi.recvBuf.drop p1).length = [] := List.drop_eq_nil_of_le hge'
      rw [hnil, List.append_nil] at hd
      rw [hnil, List.nil_append] at hrest
      obtain ⟨hi', p2, lead, hsize⟩ := sizeStage_of_lineEnd hfeed' hstate' hchunked' (by omega)
        (by rw [hinfo]) (hbuf ▸ hne) (by rw [hbuf]; exact hwhole') (by rw [hbuf]; exact hrest)
      refine .inr (.inl ⟨c', hi', p2, lead, fun _ => ?_, ht, hwr.trans (by rw [← hd]), hsize⟩)
      have : c.queue.flatten.length = 2 + (chunkStream last chunks).length := by omega
      exact this ▸ hcut

/-- The body comes out whole, or the parser reports an error. -/
def Outcome (good : Prop) (c : Client) (body : Bytes) : Prop :=
  good ∧ Ends c.turn .ended (c.written ++ body) ∨ ¬ good ∧ ∃ out, Ends c.turn .error out

theorem Outcome.back {good : Prop} {x body : Bytes} (h : Outcome good c' body) (ht : c.turn = (c', none))
    (hwr : c'.written = c.written ++ x) : Outcome good c (x ++ body) := by
  rcases h with ⟨hg, hends⟩ | ⟨hg, out, hends⟩
  · rw [hwr, List.append_assoc] at hends
    exact .inl ⟨hg, (ends_turn ht).mpr hends⟩
  · exact .inr ⟨hg, out, (ends_turn ht).mpr hends⟩

theorem chunked_outcome (hlast : last.data = []) (c : Client) :
    (∀ hi p1 lead chunks, (∀ ch ∈ chunks, ch.data ≠ [] ∧ ch.data.length < 2 ^ 31) →
      SizeStage segs last c hi p1 lead chunks →
      Outcome (GoodCuts segs last chunks) c (chunks.flatMap Chunk.data)) ∧
    ∀ hi p1 d chunks, (∀ ch ∈ chunks, ch.data ≠ [] ∧ ch.data.length < 2 ^ 31) →
      DataStage segs last c hi p1 d chunks →
      Outcome ((Cut segs (1 + (chunkStream last chunks).length) →
        Cut segs (2 + (chunkStream last chunks).length)) ∧ GoodCuts segs last chunks) c
        (d ++ chunks.flatMap Chunk.data) := by
  induction hk : c.left using Nat.strong_induction_on generalizing c with
  | _ k ih =>
    subst hk
    constructor
    · intro hi p1 lead chunks hsizes S
      rcases S.step hlast hsizes with ⟨c', ht, hwr, hS⟩ | ⟨rfl, hends⟩ | ⟨ch, rest, c', p2, rfl, ht, hwr, hD⟩
      · have := (ih _ (turn_left ht S.feed.ready) c' rfl).1 _ _ _ _ hsizes hS
        exact this.back (x := []) ht (hwr.trans (List.append_nil _).symm)
      · refine .inl ⟨trivial, ?_⟩
        rw [List.flatMap_nil, List.append_nil]
        exact hends
      · have := (ih _ (turn_left ht S.feed.ready) c' rfl).2 _ _ _ _
          (fun ch' hch' => hsizes ch' (List.mem_cons_of_mem ch hch')) hD
        exact this.back (x := []) ht (hwr.trans (List.append_nil _).symm)
    · intro hi p1 d chunks hsizes D
      rcases D.step with ⟨c', d1, d2, rfl, ht, hwr, hD⟩ | ⟨c', hi', p2, lead, hgood, ht, hwr, hS⟩ |
        ⟨hends, h1, h2⟩
      · have := (ih _ (turn_left ht D.feed.ready) c' rfl).2 _ _ _ _ hsizes hD
        rw [List.append_assoc]
        exact this.back ht hwr
      · have := ((ih _ (turn_left ht D.feed.ready) c' rfl).1 _ _ _ _ hsizes hS).back ht hwr
        rcases this with ⟨hg, hends⟩ | ⟨hg, hends⟩
        · exact .inl ⟨⟨hgood, hg⟩, hends⟩
        · exact .inr ⟨fun h => hg h.2, hends⟩
      · exact .inr ⟨fun h => h2 (h.1 h1), hends⟩

end

/-! ### Whole responses -/

/-- What the parser can read of a length. -/
theorem parsedLength_spec {digits : Bytes} {n : ℕ} (h : digitsValue 10 digits = n) :
    parsedLength digits ≤ n ∧
    (0 < n → (parsedLength digits = n ↔ n < 2 ^ 31 ∧ digits.length ≤ 255)) := by
  have hsplit := digitsValue_append 10 (digits.take 255) (digits.drop 255)
  rw [List.take_append_drop, h, List.length_drop] at hsplit
  have hle : digitsValue 10 (digits.take 255) ≤ n := by
    rw [hsplit]
    exact (Nat.le_mul_of_pos_right _ (by positivity)).trans (Nat.le_add_right _ _)
  refine ⟨(Nat.min_le_right _ _).trans hle, fun hpos => ⟨fun heq => ?_, fun ⟨hlt, hlen⟩ => ?_⟩⟩
  · have hv : digitsValue 10 (digits.take 255) = n := by
      unfold parsedLength at heq
      omega
    have hmax : n ≤ 2 ^ 31 - 1 := heq ▸ Nat.min_le_left _ _
    refine ⟨by omega, ?_⟩
    by_contra hlong
    have hpow : 10 ≤ 10 ^ (digits.length - 255) := by
      calc 10 = 10 ^ 1 := rfl
        _ ≤ 10 ^ (digits.length - 255) := Nat.pow_le_pow_right (by omega) (by omega)
    have := Nat.mul_le_mul_left n hpow
    rw [hv] at hsplit
    omega
  · rw [List.take_of_length_le hlen, h] at hle
    unfold parsedLength
    rw [List.take_of_length_le hlen, h]
    omega

/-- The responses and splits that are received right: a length that is not zero, fits a
`long` and has at most 255 digits; or chunks whose sizes fit, with no read that ends inside
the line end behind a chunk's data unless it begins there. -/
def Framing.Received (segs : List Bytes) : Framing → Prop
  | .length digits content => 0 < content.length ∧ content.length < 2 ^ 31 ∧ digits.length ≤ 255
  | .chunked chunks last => (∀ ch ∈ chunks, ch.data.length < 2 ^ 31) ∧ GoodCuts segs last chunks

def Framing.SizesFit : Framing → Prop
  | .length _ _ => True
  | .chunked chunks _ => ∀ ch ∈ chunks, ch.data.length < 2 ^ 31

theorem Response.bytes_ne_nil (R : Response) : R.bytes ≠ [] := by
  simp [Response.bytes, Response.lines, lineStream_cons, crlf]

/-- The header of a response, up to the point where its body begins. -/
theorem Response.header (R : Response) (hne : ∀ seg ∈ segs, seg ≠ []) (hsplit : segs.flatten = R.bytes)
    (hfit : (Client.start httpinfoNew segs).Fits) :
    ∃ c hi p1, (∀ e out, Ends (Client.start httpinfoNew segs, none) e out ↔ Ends c.turn e out) ∧
      Feed segs c ∧ c.written = [] ∧ httpParse c.info = some (bodyParse (headerEnd hi) p1) ∧
      hi.response = afterLines R.lines httpinfoNew.response ∧
      hi.recvBuf.drop p1 ++ c.queue.flatten = R.framing.bytes ∧ Whole segs (hi.recvBuf.drop p1) c.queue := by
  have hready : Ready (httpReadInit httpinfoNew) := ⟨nofun, Nat.zero_le _, .inl ⟨rfl, rfl, rfl⟩⟩
  have hfeed : Feed segs (Client.start httpinfoNew segs) := ⟨hne, List.suffix_rfl, hfit, hready⟩
  have hq : segs ≠ [] := by
    rintro rfl
    exact R.bytes_ne_nil hsplit.symm
  obtain ⟨c1, seg, ht, hsq, -, hfeed', hinfo, hwr⟩ := hfeed.read
    (show httpParse (httpReadInit httpinfoNew) = some (.parseRead, httpReadInit httpinfoNew) from rfl) rfl hq
  have hbuf : c1.info.recvBuf = seg := by rw [hinfo]; rfl
  obtain ⟨c, hi, p1, hends, hf, hwr', hp, hresp, hstream, hwhole⟩ := header_run c1 hfeed' R.clean_lines
    (by rw [hinfo]; rfl) (by rw [hinfo])
    (by rw [hbuf]; exact (whole_piece (hsq ▸ List.suffix_rfl)).fresh)
    (by rw [hbuf, ← List.flatten_cons, ← hsq]; exact hsplit)
  refine ⟨c, hi, p1, fun e out => ?_, hf, ?_, hp, ?_, hstream, hwhole⟩
  · rw [ends_iff, ends_turn ht]
    exact hends e out
  · rw [hwr', hwr]
    rfl
  · rw [hresp, hinfo]
    rfl

theorem Response.length_iff (R : Response) {digits content : Bytes}
    (h : R.framing = .length digits content) (hne : ∀ seg ∈ segs, seg ≠ [])
    (hsplit : segs.flatten = R.bytes) (hfit : (Client.start httpinfoNew segs).Fits) :
    Ends (Client.start httpinfoNew segs, none) .ended content ↔
      0 < content.length ∧ content.length < 2 ^ 31 ∧ digits.length ≤ 255 := by
  obtain ⟨c, hi, p1, hends, hfeed, hwr, hparse, hresp, hstream, -⟩ := R.header hne hsplit hfit
  obtain ⟨hlength, hplain⟩ := R.afterLines_length h
  rw [← hresp] at hlength hplain
  rw [h] at hstream
  have hvalue : digitsValue 10 digits = content.length := by
    have := R.declared
    rw [h] at this
    exact this.2.2.1
  obtain ⟨hle, hexact⟩ := parsedLength_spec hvalue
  rw [hends]
  by_cases hzero : parsedLength digits = 0
  · -- the parser waits for the connection to be closed
    obtain ⟨out, hclosed⟩ := ends_closed hfeed hparse rfl hplain (by
      simp only [headerEnd, hplain, hlength, hzero]
      rfl)
    constructor
    · intro hended
      cases (hended.unique hclosed).1
    · rintro ⟨hpos, hlt⟩
      have := (hexact hpos).mpr hlt
      omega
  · have hremain : (headerEnd hi).remainSize = (parsedLength digits : ℕ) := by
      simp only [headerEnd, hplain, hlength, Bool.false_eq_true, if_false]
      rw [if_neg (by omega)]
    have hstage : LengthStage segs c (headerEnd hi) p1 (parsedLength digits) content :=
      { feed := hfeed
        parse := by rw [hparse, bodyParse_data (by omega)]
        state := rfl
        plain := hplain
        remain := hremain
        pos := by omega
        le := hle
        stream := hstream }
    rcases hstage.outcome with ⟨hm, hended⟩ | ⟨hm, e, out, hother, hout⟩
    · rw [hwr, List.nil_append] at hended
      have hpos : 0 < content.length := by omega
      exact iff_of_true hended ⟨hpos, (hexact hpos).mp hm⟩
    · apply iff_of_false
      · intro hended
        obtain ⟨rfl, rfl⟩ := hended.unique hother
        have := hout rfl
        rw [hwr, List.length_nil] at this
        omega
      · rintro ⟨hpos, hlt⟩
        have := (hexact hpos).mpr hlt
        omega

theorem Response.chunked_iff (R : Response) {chunks : List Chunk} {last : Chunk}
    (h : R.framing = .chunked chunks last) (hsizes : ∀ ch ∈ chunks, ch.data.length < 2 ^ 31)
    (hne : ∀ seg ∈ segs, seg ≠ []) (hsplit : segs.flatten = R.bytes)
    (hfit : (Client.start httpinfoNew segs).Fits) :
    Ends (Client.start httpinfoNew segs, none) .ended (chunks.flatMap Chunk.data) ↔
      GoodCuts segs last chunks := by
  obtain ⟨c, hi, p1, hends, hfeed, hwr, hparse, hresp, hstream, hwhole⟩ := R.header hne hsplit hfit
  have hchunked := R.afterLines_chunked h
  rw [← hresp] at hchunked
  have hd := R.declared
  rw [h] at hd hstream
  obtain ⟨-, hdata, hlast⟩ := hd
  have hstage : SizeStage segs last c (headerEnd hi) p1 [] chunks :=
    { feed := hfeed
      parse := by
        rw [hparse, bodyParse, if_pos ⟨hchunked, by simp only [headerEnd, hchunked, if_true]⟩]
      state := rfl
      chunked := hchunked
      lead_eq := .inl rfl
      fresh := hwhole.fresh
      stream := hstream }
  rw [hends]
  rcases (chunked_outcome hlast c).1 _ _ _ _ (fun ch hch => ⟨hdata ch hch, hsizes ch hch⟩) hstage with
    ⟨hgood, hended⟩ | ⟨hbad, out, herror⟩
  · rw [hwr, List.nil_append] at hended
    exact iff_of_true hended hgood
  · refine iff_of_false (fun hended => ?_) hbad
    cases (hended.unique herror).1

/-- A well-formed response, split into reads that fit the free part of the buffer: if it is
one of those that are received right, the loop ends with `HTTP_PARSE_END` and has handed
over exactly the body. No other response is, but that the rest of a chunk of `2 ^ 31` bytes
or more, which is taken for the next size line, may look like anything. -/
theorem body_iff (R : Response) (segs : List Bytes) (hne : ∀ seg ∈ segs, seg ≠ [])
    (hsplit : segs.flatten = R.bytes) (hfit : (Client.start httpinfoNew segs).Fits) :
    (R.framing.Received segs → Ends (Client.start httpinfoNew segs, none) .ended R.framing.body) ∧
    (R.framing.SizesFit → Ends (Client.start httpinfoNew segs, none) .ended R.framing.body →
      R.framing.Received segs) := by
  cases h : R.framing with
  | length digits content =>
    have hiff := R.length_iff h hne hsplit hfit
    exact ⟨hiff.mpr, fun _ => hiff.mp⟩
  | chunked chunks last =>
    exact ⟨fun hr => (R.chunked_iff h hr.1 hne hsplit hfit).mpr hr.2,
      fun hsizes hended => ⟨hsizes, (R.chunked_iff h hsizes hne hsplit hfit).mp hended⟩⟩

/-! ### Two splits of one response -/

def encodingField : Field :=
  ⟨ascii "Transfer-Encoding", ascii "chunked", by decide, by decide +kernel, by decide +kernel⟩

def oneChunk : Chunk :=
  ⟨ascii "2", [], ascii "ok", by decide, by decide +kernel, by decide, by decide +kernel, by decide +kernel⟩

def lastChunk : Chunk := ⟨ascii "0", [], [], by decide, by decide +kernel, by decide, by decide +kernel, by decide +kernel⟩

def sampleResponse : Response where
  status := ascii "200 OK"
  fields := [encodingField]
  framing := .chunked [oneChunk] lastChunk
  status_clean := by decide +kernel
  declared := ⟨⟨encodingField, List.mem_singleton.mpr rfl, show _ = _ by decide, by decide⟩, by decide, rfl⟩

theorem Client.fits_of_run {c : Client} {n : ℕ} {e : Ending} (h : (c.run n).2 = some e)
    (hn : ∀ m ≤ n, ReadFits (c.run m).1) : c.Fits := by
  intro m
  rcases Nat.le_total m n with hm | hm
  · exact hn m hm
  · rw [run_of_ending h hm]
    exact hn n le_rfl

/-- The carriage return behind the data comes in a read of its own. -/
def harmlessSplit : List Bytes :=
  [ascii "HTTP/1.1 200 OK\r\nTransfer-Encoding: chunked\r\n\r\n2\r\nok", ascii "\r",
    ascii "\n0\r\n\r\n"]

/-- The carriage return behind the data comes with the data, the line feed does not. -/
def harmfulSplit : List Bytes :=
  [ascii "HTTP/1.1 200 OK\r\nTransfer-Encoding: chunked\r\n\r\n2\r\nok\r", ascii "\n0\r\n\r\n"]

theorem fits_harmlessSplit : (Client.start httpinfoNew harmlessSplit).Fits :=
  Client.fits_of_run (n := 5) (e := .ended) (by decide +kernel) (by decide +kernel)

theorem fits_harmfulSplit : (Client.start httpinfoNew harmfulSplit).Fits :=
  Client.fits_of_run (n := 3) (e := .error) (by decide +kernel) (by decide +kernel)

theorem body_harmlessSplit :
    Ends (Client.start httpinfoNew harmlessSplit, none) .ended (ascii "ok") :=
  (body_iff sampleResponse harmlessSplit (by decide) (by decide +kernel) fits_harmlessSplit).1
    ⟨by decide, fun _ => ⟨[ascii "\r", ascii "\n0\r\n\r\n"], List.suffix_cons _ _, by decide⟩, trivial⟩

/-- The same response in the other split: the loop ends with `HTTP_PARSE_ERROR`. -/
theorem body_harmfulSplit :
    harmfulSplit.flatten = sampleResponse.bytes ∧ (∀ seg ∈ harmfulSplit, seg ≠ []) ∧
    (Client.start httpinfoNew harmfulSplit).Fits ∧
    ¬ Ends (Client.start httpinfoNew harmfulSplit, none) .ended sampleResponse.framing.body := by
  refine ⟨by decide +kernel, by decide, fits_harmfulSplit, fun h => ?_⟩
  have herror : Ends (Client.start httpinfoNew harmfulSplit, none) .error (ascii "ok") :=
    ⟨3, by decide +kernel, by decide +kernel⟩
  cases (h.unique herror).1

end Ln882x.Http
