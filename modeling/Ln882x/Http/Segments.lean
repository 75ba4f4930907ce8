import Ln882x.Http.Response

/-! A response in pieces. The parser is followed over all splits of a well-formed response
into reads. Positions are counted from the end of the response, so that they stay the same
while bytes are taken up. Within the bytes the parser looks at, a read can only have ended
inside a line that was not complete then; everything behind a whole line is from one read.
The one place where the split matters is the line end behind the data of a chunk. -/

namespace Ln882x.Http

open Nor (Bytes)

/-! ### Where reads end -/

variable {segs q : List Bytes} {seg w : Bytes}

/-- A read ends, or the first one starts, where `r` bytes are still to come. -/
def Cut (segs : List Bytes) (r : ℕ) : Prop := ∃ rest, rest <:+ segs ∧ rest.flatten.length = r

theorem length_flatten_le_of_suffix (h : q <:+ segs) : q.flatten.length ≤ segs.flatten.length := by
  obtain ⟨before, rfl⟩ := h
  simp

theorem not_cut_inside (h : seg :: q <:+ segs) {r : ℕ} (hlo : q.flatten.length < r)
    (hhi : r < seg.length + q.flatten.length) : ¬ Cut segs r := by
  rintro ⟨rest, hrest, rfl⟩
  rcases List.suffix_or_suffix_of_suffix hrest h with hs | hs
  · rcases List.suffix_cons_iff.mp hs with rfl | hs
    · simp at hhi
    · have := length_flatten_le_of_suffix hs
      omega
  · have := length_flatten_le_of_suffix hs
    rw [List.flatten_cons, List.length_append] at this
    omega

/-- No read ends inside `w`, which stands before `q`. -/
def Whole (segs : List Bytes) (w : Bytes) (q : List Bytes) : Prop :=
  ∀ r, q.flatten.length < r → r < w.length + q.flatten.length → ¬ Cut segs r

/-- A read ends inside `w` only before the end of its first line. -/
def Fresh (segs : List Bytes) (w : Bytes) (q : List Bytes) : Prop :=
  ∀ r, q.flatten.length < r → r < w.length + q.flatten.length → Cut segs r →
    strstrCrlf (w.take (w.length + q.flatten.length - r)) = none

theorem whole_piece (h : seg :: q <:+ segs) : Whole segs seg q := fun _ hlo hhi => not_cut_inside h hlo hhi

theorem whole_nil : Whole segs [] q := fun _ hlo hhi => by
  rw [List.length_nil] at hhi
  omega

theorem Whole.drop (h : Whole segs w q) (k : ℕ) : Whole segs (w.drop k) q := by
  intro r hlo hhi
  rw [List.length_drop] at hhi
  exact h r hlo (by omega)

theorem Whole.fresh (h : Whole segs w q) : Fresh segs w q :=
  fun r hlo hhi hcut => absurd hcut (h r hlo hhi)

/-- A read behind a part of a line. -/
theorem fresh_append (hw : strstrCrlf w = none) (h : seg :: q <:+ segs) : Fresh segs (w ++ seg) q := by
  intro r hlo hhi hcut
  rw [List.length_append] at hhi ⊢
  by_cases hr : r < seg.length + q.flatten.length
  · exact absurd hcut (not_cut_inside h hlo hr)
  · rw [List.take_append_of_le_length (by omega)]
    exact strstrCrlf_none_of_take hw _

/-- What stands behind a whole line is from one read. -/
theorem Fresh.whole_drop (h : Fresh segs w q) {line : Bytes} (hl : strstrCrlf w = some line) {k : ℕ}
    (hk : line.length + 2 ≤ k) : Whole segs (w.drop k) q := by
  intro r hlo hhi hcut
  rw [List.length_drop] at hhi
  have hnone := h r hlo (by omega) hcut
  rw [strstrCrlf_take hl (by omega)] at hnone
  cases hnone

/-! ### Outcomes -/

namespace Client

/-- The slices of the body handed over so far, put together. -/
def written (c : Client) : Bytes := (c.trace.filterMap Prod.snd).flatten

/-- The next read, if one is due, fits the free part of the buffer. -/
def ReadFits (c : Client) : Prop :=
  match httpParse c.info, c.queue with
  | some (mode, info), seg :: _ =>
    mode.read = true → seg.length ≤ fieldHttpRecvBufMaxLen - info.recvBuf.length
  | _, _ => True

instance (c : Client) : Decidable c.ReadFits := by
  unfold ReadFits
  split <;> infer_instance

/-- Every read of the run fits. -/
def Fits (c : Client) : Prop := ∀ n, ReadFits (c.run n).1

/-- The loop, at `r` now, ends with `e` and has handed over `out`. -/
def Ends (r : Client × Option Ending) (e : Ending) (out : Bytes) : Prop :=
  match r.2 with
  | some e' => e' = e ∧ r.1.written = out
  | none => ∃ n, (r.1.run n).2 = some e ∧ (r.1.run n).1.written = out

variable {c c' : Client} {e e' : Ending} {out out' : Bytes}

theorem ends_iff : Ends (c, none) e out ↔ Ends c.turn e out := by
  constructor
  · rintro ⟨n, he, hout⟩
    cases n with
    | zero => cases he
    | succ n =>
      rw [run] at he hout
      rcases ht : c.turn with ⟨d, _ | e'⟩ <;> rw [ht] at he hout
      · exact ⟨n, he, hout⟩
      · exact ⟨Option.some.inj he, hout⟩
  · rcases ht : c.turn with ⟨d, _ | e'⟩
    · rintro ⟨n, he, hout⟩
      exact ⟨n + 1, by rw [run, ht]; exact he, by rw [run, ht]; exact hout⟩
    · rintro ⟨rfl, hout⟩
      exact ⟨1, by rw [run, ht], by rw [run, ht]; exact hout⟩

theorem ends_turn (h : c.turn = (c', none)) : Ends c.turn e out ↔ Ends c'.turn e out := by
  rw [h, ends_iff]

theorem run_of_ending {n m : ℕ} (h : (c.run n).2 = some e) (hm : n ≤ m) : c.run m = c.run n := by
  induction n generalizing c m with
  | zero => cases h
  | succ n ih =>
    obtain ⟨m, rfl⟩ : ∃ k, m = k + 1 := ⟨m - 1, by omega⟩
    rw [run] at h
    rw [run, run]
    rcases ht : c.turn with ⟨d, _ | e'⟩
    · rw [ht] at h
      exact ih h (by omega)
    · rfl

/-- The outcome is determined. -/
theorem Ends.unique {r : Client × Option Ending} (h : Ends r e out) (h' : Ends r e' out') :
    e = e' ∧ out = out' := by
  obtain ⟨c, _ | e''⟩ := r
  · obtain ⟨n, he, hout⟩ := h
    obtain ⟨m, he', hout'⟩ := h'
    rcases Nat.le_total n m with hnm | hnm
    · rw [run_of_ending he hnm] at he' hout'
      exact ⟨Option.some.inj (he.symm.trans he'), hout.symm.trans hout'⟩
    · rw [run_of_ending he' hnm] at he hout
      exact ⟨Option.some.inj (he.symm.trans he'), hout.symm.trans hout'⟩
  · exact ⟨h.1.symm.trans h'.1, h.2.symm.trans h'.2⟩

theorem Fits.next (h : Fits c) (ht : c.turn = (c', none)) : Fits c' := by
  intro n
  have := h (n + 1)
  rwa [run, ht] at this

/-- The trace after one more result. -/
def note (c : Client) (mode : Mode) (info : HttpInfo) : List (Mode × Option Bytes) :=
  c.trace ++ [(mode, if mode.write then some info.body else none)]

/-- A round with a read that fits. -/
theorem turn_read {mode : Mode} {info : HttpInfo} (hp : httpParse c.info = some (mode, info))
    (hread : mode.read = true) (hfit : Fits c) (hq : c.queue = seg :: q) (hne : seg ≠ []) :
    c.turn = (⟨{ info with recvBuf := info.recvBuf ++ seg, parsePtr := some 0 }, q, c.note mode info⟩,
      none) := by
  have hle : seg.length ≤ fieldHttpRecvBufMaxLen - info.recvBuf.length := by
    have h0 : ReadFits c := hfit 0
    rw [ReadFits, hp, hq] at h0
    exact h0 hread
  simp only [turn, hp, handle, hread, if_true, hq, httpsRead, List.take_of_length_le hle, hne, if_false, hle,
    note]

/-- A round after which the parser is called again at once. -/
theorem turn_again {mode : Mode} {info : HttpInfo} (hp : httpParse c.info = some (mode, info))
    (hread : mode.read = false) (hmode : mode.chunk = true ∨ mode.ended = false ∧ mode.error = false) :
    c.turn = (⟨info, c.queue, c.note mode info⟩, none) := by
  simp only [turn, hp, handle, hread, Bool.false_eq_true, if_false, note]
  rcases hmode with h | ⟨h, h'⟩
  · rw [if_pos h]
  · rw [h, h']
    split <;> rfl

/-- A client in the midst of a response that arrives in the pieces `segs`. -/
structure Feed (segs : List Bytes) (c : Client) : Prop where
  nonempty : ∀ seg ∈ segs, seg ≠ []
  suffix : c.queue <:+ segs
  fits : c.Fits
  ready : Ready c.info

theorem Feed.next (h : Feed segs c) (ht : c.turn = (c', none)) (hq : c'.queue <:+ c.queue) :
    Feed segs c' := by
  obtain ⟨-, -, -, -, hr, -⟩ := turn_spec ht h.ready
  exact ⟨h.nonempty, hq.trans h.suffix, h.fits.next ht, hr⟩

/-- The slice of a result, if it has one. -/
def slice (mode : Mode) (info : HttpInfo) : Bytes := if mode.write then info.body else []

theorem written_note {mode : Mode} {info info' : HttpInfo} :
    (⟨info', q, c.note mode info⟩ : Client).written = c.written ++ slice mode info := by
  cases h : mode.write <;> simp [written, note, slice, h]

/-- A read is due and the pieces are not used up. -/
theorem Feed.read (h : Feed segs c) {mode : Mode} {info : HttpInfo}
    (hp : httpParse c.info = some (mode, info)) (hread : mode.read = true) (hq : c.queue ≠ []) :
    ∃ c' seg, c.turn = (c', none) ∧ c.queue = seg :: c'.queue ∧ seg ≠ [] ∧ Feed segs c' ∧
      c'.info = { info with recvBuf := info.recvBuf ++ seg, parsePtr := some 0 } ∧
      c'.written = c.written ++ slice mode info := by
  obtain ⟨seg, q, hsq⟩ := List.exists_cons_of_ne_nil hq
  have hne : seg ≠ [] := h.nonempty seg (h.suffix.mem (hsq ▸ List.mem_cons_self))
  have ht := turn_read hp hread h.fits hsq hne
  exact ⟨_, seg, ht, hsq, hne, h.next ht (hsq ▸ List.suffix_cons seg q), rfl, written_note⟩

/-- The parser is called again at once. -/
theorem Feed.again (h : Feed segs c) {mode : Mode} {info : HttpInfo}
    (hp : httpParse c.info = some (mode, info)) (hread : mode.read = false)
    (hmode : mode.chunk = true ∨ mode.ended = false ∧ mode.error = false) :
    ∃ c', c.turn = (c', none) ∧ c'.queue = c.queue ∧ Feed segs c' ∧ c'.info = info ∧
      c'.written = c.written ++ slice mode info := by
  have ht := turn_again hp hread hmode
  exact ⟨_, ht, rfl, h.next ht List.suffix_rfl, rfl, written_note⟩

end Client

/-! ### The header -/

theorem lineStream_cons (line : Bytes) (lines : List Bytes) (tail : Bytes) :
    lineStream (line :: lines) tail = line ++ crlf ++ lineStream lines tail := by
  simp [lineStream]

/-- The first line of a header, or the blank line behind the last one. -/
theorem strstrCrlf_lineStream {lines : List Bytes} (h : ∀ l ∈ lines, Clean l ∧ l ≠ []) (tail : Bytes) :
    strstrCrlf (lineStream lines (crlf ++ tail)) = some (lines.head?.getD []) := by
  cases lines with
  | nil => rfl
  | cons l ls =>
    rw [lineStream_cons]
    exact strstrCrlf_clean (h l List.mem_cons_self).1 _

theorem drop_append_of_line {w rest line tail : Bytes} (hl : strstrCrlf w = some line)
    (h : w ++ rest = line ++ crlf ++ tail) : w.drop (line.length + 2) ++ rest = tail := by
  rw [strstrCrlf_eq hl, List.append_assoc] at h
  exact List.append_cancel_left h

/-- One call of the parser in the header: all its lines are there, or some and a part of
the next. -/
theorem httpParseLoop_lines {n : ℕ} {hi : HttpInfo} {p1 : ℕ} (h : hi.parseState = .header)
    (hn : hi.recvBuf.length - p1 + 2 < n) {lines : List Bytes} (hlines : ∀ l ∈ lines, Clean l ∧ l ≠ [])
    {rest tail : Bytes} (hstream : hi.recvBuf.drop p1 ++ rest = lineStream lines (crlf ++ tail)) :
    (∃ p2, httpParseLoop n hi p1
        = some (bodyParse (headerEnd { hi with response := afterLines lines hi.response }) p2) ∧
      hi.recvBuf.drop p2 ++ rest = tail ∧
      ∃ line, strstrCrlf (hi.recvBuf.drop p1) = some line ∧ p1 + line.length + 2 ≤ p2) ∨
    ∃ before after w, lines = before ++ after ∧ httpParseLoop n hi p1
        = some (.parseRead, { hi with response := afterLines before hi.response, recvBuf := w }) ∧
      w ++ rest = lineStream after (crlf ++ tail) ∧ strstrCrlf w = none := by
  refine httpParseLoop_header
    (P := fun hi p1 res => ∀ lines, (∀ l ∈ lines, Clean l ∧ l ≠ []) →
      hi.recvBuf.drop p1 ++ rest = lineStream lines (crlf ++ tail) →
      (∃ p2, res = some (bodyParse (headerEnd { hi with response := afterLines lines hi.response }) p2) ∧
        hi.recvBuf.drop p2 ++ rest = tail ∧
        ∃ line, strstrCrlf (hi.recvBuf.drop p1) = some line ∧ p1 + line.length + 2 ≤ p2) ∨
      ∃ before after w, lines = before ++ after ∧ res
          = some (.parseRead, { hi with response := afterLines before hi.response, recvBuf := w }) ∧
        w ++ rest = lineStream after (crlf ++ tail) ∧ strstrCrlf w = none)
    ?_ ?_ ?_ n hi p1 h hn lines hlines hstream
  · intro hi p1 h hl lines hlines hstream
    exact .inr ⟨[], lines, _, rfl, rfl, hstream, hl⟩
  · intro hi p1 h hl lines hlines hstream
    have hfirst := strstrCrlf_append hl rest
    rw [hstream, strstrCrlf_lineStream hlines] at hfirst
    cases lines with
    | nil =>
      refine .inl ⟨p1 + 2, rfl, ?_, [], hl, le_rfl⟩
      rw [← drop_append_of_line hl hstream, List.length_nil, List.drop_drop]
    | cons l ls => exact absurd (Option.some.inj hfirst) (hlines l List.mem_cons_self).2
  · intro hi p1 line res h hl hne ih lines hlines hstream
    have hfirst := strstrCrlf_append hl rest
    rw [hstream, strstrCrlf_lineStream hlines] at hfirst
    cases lines with
    | nil => exact absurd (Option.some.inj hfirst).symm hne
    | cons l ls =>
      obtain rfl : l = line := Option.some.inj hfirst
      rw [lineStream_cons] at hstream
      have hnext : hi.recvBuf.drop (p1 + l.length + 2) ++ rest = lineStream ls (crlf ++ tail) := by
        rw [← drop_append_of_line hl hstream, List.drop_drop, ← Nat.add_assoc]
      rcases ih ls (fun m hm => hlines m (List.mem_cons_of_mem l hm)) hnext with
        ⟨p2, hres, htail, line, -, hp2⟩ | ⟨before, after, w, rfl, hres, hw, hnone⟩
      · exact .inl ⟨p2, hres, htail, l, hl, by omega⟩
      · exact .inr ⟨l :: before, after, w, rfl, hres, hw, hnone⟩

open Client

/-- The calls of the parser up to the blank line, however the header is split. -/
theorem header_run {lines : List Bytes} {tail : Bytes} (c : Client) (hfeed : Feed segs c)
    (hlines : ∀ l ∈ lines, Clean l ∧ l ≠ []) (hs : c.info.parseState = .header)
    (hptr : c.info.parsePtr = some 0) (hfresh : Fresh segs c.info.recvBuf c.queue)
    (hstream : c.info.recvBuf ++ c.queue.flatten = lineStream lines (crlf ++ tail)) :
    ∃ c' hi p2, (∀ e out, Ends c.turn e out ↔ Ends c'.turn e out) ∧ Feed segs c' ∧
      c'.written = c.written ∧ httpParse c'.info = some (bodyParse (headerEnd hi) p2) ∧
      hi.response = afterLines lines c.info.response ∧ hi.recvBuf.drop p2 ++ c'.queue.flatten = tail ∧
      Whole segs (hi.recvBuf.drop p2) c'.queue := by
  induction hk : c.left using Nat.strong_induction_on generalizing c lines with
  | _ k ih =>
    subst hk
    have hbuf : c.info.recvBuf ≠ [] := by
      rcases hfeed.ready.ptr with ⟨h, -⟩ | ⟨-, h⟩
      · cases h.symm.trans hptr
      · exact h
    have hparse : httpParse c.info = httpParseLoop (c.info.recvBuf.length + 3) c.info 0 := by
      simp only [httpParse, hptr, hbuf, if_false]
    rcases @httpParseLoop_lines (c.info.recvBuf.length + 3) _ 0 hs (by omega) _ hlines _ _ hstream with
      ⟨p2, hres, htail, line, hline, hp2⟩ | ⟨before, after, w, rfl, hres, hw, hnone⟩
    · refine ⟨c, { c.info with response := afterLines lines c.info.response }, p2, fun _ _ => Iff.rfl, hfeed, rfl,
        hparse.trans hres, rfl, htail, ?_⟩
      exact hfresh.whole_drop hline (by omega)
    · have hq : c.queue ≠ [] := by
        intro h0
        rw [h0, List.flatten_nil, List.append_nil] at hw
        rw [hw, strstrCrlf_lineStream fun l hl => hlines l (List.mem_append_right _ hl)] at hnone
        cases hnone
      obtain ⟨d, seg, ht, hsq, -, hfeed', hinfo, hwr⟩ := hfeed.read (hparse.trans hres) rfl hq
      obtain ⟨c', hi, p2, hends, hf, hwr', hp, hresp, hrest⟩ := ih _ (turn_left ht hfeed.ready) d hfeed'
        (fun l hl => hlines l (List.mem_append_right before hl)) (by rw [hinfo]; exact hs) (by rw [hinfo])
        (by rw [hinfo]; exact fresh_append hnone (hsq ▸ hfeed.suffix))
        (by rw [hinfo, ← hw, hsq, List.flatten_cons, List.append_assoc]) rfl
      refine ⟨c', hi, p2, fun e out => (ends_turn ht).trans (hends e out), hf, ?_, hp, ?_, hrest⟩
      · rw [hwr', hwr]
        exact List.append_nil _
      · rw [hresp, hinfo]
        exact List.foldl_append.symm

end Ln882x.Http
