import Ln882x.Ota.Download
import Mathlib.Data.List.GetD

/-! How the staging buffer lays a stream out in flash. A buffer is saved when it
holds one byte less than a sector, too: a piece that ends there puts a zero byte
into the stream, and everything after it moves up. -/

namespace Ln882x.Ota

open Nor

variable {img c : Bytes} {cs : List Bytes} {i : ℕ}

/-! ### The stream with its gaps -/

/-- The bytes laid out so far, after one more piece. -/
def lay (img c : Bytes) : Bytes :=
  if (img ++ c).length % sectorSize4KB = sectorSize4KB - 1 then img ++ c ++ [0] else img ++ c

def laid (img : Bytes) : List Bytes → Bytes
  | [] => img
  | c :: cs => laid (lay img c) cs

/-- After a piece that ends one byte before the end of a sector, only zeros come. -/
def NoShift (img : Bytes) (cs : List Bytes) : Prop :=
  ∀ k, (img ++ (cs.take k).flatten).length % sectorSize4KB = sectorSize4KB - 1 → ∀ b ∈ (cs.drop k).flatten, b = 0

theorem lay_gap (h : (img ++ c).length % sectorSize4KB = sectorSize4KB - 1) : lay img c = img ++ c ++ [0] := if_pos h

theorem lay_plain (h : (img ++ c).length % sectorSize4KB ≠ sectorSize4KB - 1) : lay img c = img ++ c := if_neg h

theorem lay_length (img c : Bytes) : (img ++ c).length ≤ (lay img c).length := by
  unfold lay
  split_ifs
  · simp only [List.length_append]
    omega
  · exact Nat.le_refl _

theorem prefix_lay (img c : Bytes) : img <+: lay img c := by
  unfold lay
  split_ifs
  · rw [List.append_assoc]
    exact List.prefix_append _ _
  · exact List.prefix_append _ _

theorem prefix_laid (img : Bytes) (cs : List Bytes) : img <+: laid img cs := by
  induction cs generalizing img with
  | nil => exact List.prefix_rfl
  | cons c cs ih => exact (prefix_lay img c).trans (ih _)

theorem laid_length (img : Bytes) (cs : List Bytes) : (img ++ cs.flatten).length ≤ (laid img cs).length := by
  induction cs generalizing img with
  | nil => simp [laid]
  | cons c cs ih =>
    have h1 := lay_length img c
    have h2 := ih (lay img c)
    simp only [List.length_append, List.flatten_cons, laid] at h1 h2 ⊢
    omega

theorem getD_extend {a b : Bytes} (h : a <+: b) (hi : i < a.length) : b.getD i 0 = a.getD i 0 := by
  obtain ⟨t, rfl⟩ := h
  rw [List.getD_append _ _ _ _ hi]

/-- A byte that is laid out after `img` is a gap or a byte of the pieces, from a place that is
not later. -/
theorem laid_getD (img : Bytes) (cs : List Bytes) (hi : img.length ≤ i) :
    (laid img cs).getD i 0 = 0 ∨ ∃ j ≤ i - img.length, (laid img cs).getD i 0 = cs.flatten.getD j 0 := by
  induction cs generalizing img with
  | nil =>
    left
    rw [laid, List.getD_eq_default _ _ hi]
  | cons c cs ih =>
    rw [laid, List.flatten_cons]
    have hlen := lay_length img c
    rw [List.length_append] at hlen
    rcases Nat.lt_or_ge i (img ++ c).length with hlt | hge
    · -- a byte of the piece itself
      have hpre : img ++ c <+: laid (lay img c) cs := by
        refine List.IsPrefix.trans ?_ (prefix_laid _ _)
        unfold lay
        split_ifs
        · exact List.prefix_append _ _
        · exact List.prefix_rfl
      right
      refine ⟨i - img.length, Nat.le_refl _, ?_⟩
      rw [List.length_append] at hlt
      rw [getD_extend hpre (by rw [List.length_append]; omega), List.getD_append_right _ _ _ _ hi,
        List.getD_append _ _ _ _ (by omega)]
    · rcases Nat.lt_or_ge i (lay img c).length with hlt | hge'
      · -- the gap
        left
        rw [getD_extend (prefix_laid _ _) hlt]
        by_cases hgap : (img ++ c).length % sectorSize4KB = sectorSize4KB - 1
        · rw [lay_gap hgap] at hlt ⊢
          simp only [List.length_append, List.length_singleton] at hlt hge
          have hzero : i - (img ++ c).length = 0 := by
            rw [List.length_append]
            omega
          rw [List.getD_append_right _ _ _ _ (by rw [List.length_append]; omega), hzero]
          rfl
        · rw [lay_plain hgap] at hlt
          omega
      · rcases ih (lay img c) hge' with h0 | ⟨j, hj, hv⟩
        · exact .inl h0
        · right
          refine ⟨c.length + j, by omega, ?_⟩
          rw [hv, List.getD_append_right _ _ _ _ (by omega), Nat.add_sub_cancel_left]

theorem noShift_cons (hmod : img.length % sectorSize4KB ≠ sectorSize4KB - 1) :
    NoShift img (c :: cs) ↔ ∀ k, (img ++ c ++ (cs.take k).flatten).length % sectorSize4KB = sectorSize4KB - 1 →
      ∀ b ∈ (cs.drop k).flatten, b = 0 := by
  constructor
  · intro h k hk
    exact h (k + 1) (by simpa using hk)
  · intro h k hk
    cases k with
    | zero => exact absurd (by simpa using hk) hmod
    | succ k => exact h k (by simpa using hk)

theorem noShift_plain (hmod : img.length % sectorSize4KB ≠ sectorSize4KB - 1) :
    NoShift img (c :: cs) ↔ NoShift (img ++ c) cs := noShift_cons hmod

theorem noShift_gap (hmod : img.length % sectorSize4KB ≠ sectorSize4KB - 1)
    (hgap : (img ++ c).length % sectorSize4KB = sectorSize4KB - 1) :
    NoShift img (c :: cs) ↔ ∀ j, cs.flatten.getD j 0 = 0 := by
  rw [noShift_cons hmod]
  constructor
  · intro h j
    have hall := h 0 (by simpa using hgap)
    rcases Nat.lt_or_ge j cs.flatten.length with hj | hj
    · rw [List.getD_eq_getElem _ _ hj]
      exact hall _ (List.getElem_mem hj)
    · exact List.getD_eq_default _ _ hj
  · intro h k _ b hb
    have hmem : b ∈ cs.flatten := by
      rw [List.mem_flatten] at hb ⊢
      obtain ⟨l, hl, hbl⟩ := hb
      exact ⟨l, List.mem_of_mem_drop hl, hbl⟩
    obtain ⟨j, hj, rfl⟩ := List.mem_iff_getElem.mp hmem
    rw [← List.getD_eq_getElem _ 0 hj]
    exact h j

/-- A gap is laid out after the piece. -/
theorem laid_gap (cs : List Bytes) (hgap : (img ++ c).length % sectorSize4KB = sectorSize4KB - 1) :
    (lay img c).length = (img ++ c).length + 1 ∧
      (∀ j < (img ++ c).length, (laid (lay img c) cs).getD j 0 = (img ++ c).getD j 0) ∧
      (laid (lay img c) cs).getD (img ++ c).length 0 = 0 := by
  have hlen : (lay img c).length = (img ++ c).length + 1 := by
    rw [lay_gap hgap]
    exact List.length_append
  refine ⟨hlen, fun j hj => ?_, ?_⟩
  · have hp : img ++ c <+: laid (lay img c) cs := by
      rw [lay_gap hgap]
      exact (List.prefix_append _ _).trans (prefix_laid _ _)
    exact getD_extend hp hj
  · rw [getD_extend (prefix_laid _ _) (by omega), lay_gap hgap, List.getD_append_right _ _ _ _ (Nat.le_refl _),
      Nat.sub_self]
    rfl

/-- If no gap shifts anything but zeros, the layout is the stream followed by zeros. -/
theorem laid_of_noShift (hmod : img.length % sectorSize4KB ≠ sectorSize4KB - 1) (h : NoShift img cs) (i : ℕ) :
    (laid img cs).getD i 0 = (img ++ cs.flatten).getD i 0 := by
  induction cs generalizing img with
  | nil => simp [laid]
  | cons c cs ih =>
    rw [List.flatten_cons, ← List.append_assoc, laid]
    by_cases hgap : (img ++ c).length % sectorSize4KB = sectorSize4KB - 1
    · obtain ⟨hlen, hpre, hat⟩ := laid_gap cs hgap
      have hall := (noShift_gap hmod hgap).mp h
      rcases Nat.lt_or_ge i (img ++ c).length with hlt | hge
      · rw [hpre i hlt, List.getD_append _ _ _ _ hlt]
      · rw [List.getD_append_right _ _ _ _ hge, hall]
        rcases Nat.eq_or_lt_of_le hge with heq | hgt
        · rw [← heq]
          exact hat
        · rcases laid_getD (lay img c) cs (i := i) (by omega) with h0 | ⟨k, -, hk⟩
          · exact h0
          · rw [hk]
            exact hall k
    · rw [lay_plain hgap]
      exact ih hgap ((noShift_plain hmod).mp h)

/-- If the layout is the stream, as far as the stream reaches, no gap shifts anything but
zeros. -/
theorem noShift_of_laid (hmod : img.length % sectorSize4KB ≠ sectorSize4KB - 1)
    (h : ∀ i < (img ++ cs.flatten).length, (laid img cs).getD i 0 = (img ++ cs.flatten).getD i 0) : NoShift img cs := by
  induction cs generalizing img with
  | nil => simp [NoShift]
  | cons c cs ih =>
    rw [List.flatten_cons, ← List.append_assoc, laid] at h
    by_cases hgap : (img ++ c).length % sectorSize4KB = sectorSize4KB - 1
    · obtain ⟨hlen, -, hat⟩ := laid_gap cs hgap
      rw [noShift_gap hmod hgap]
      intro j
      -- each byte of the rest is one of the earlier ones, or zero
      induction j using Nat.strong_induction_on with
      | _ j ihj =>
        rcases Nat.lt_or_ge j cs.flatten.length with hj | hj
        · have hv := h ((img ++ c).length + j) (by simp only [List.length_append]; omega)
          rw [List.getD_append_right _ _ _ _ (Nat.le_add_right _ _), Nat.add_sub_cancel_left] at hv
          rw [← hv]
          rcases Nat.eq_zero_or_pos j with rfl | hpos
          · exact hat
          · rcases laid_getD (lay img c) cs (i := (img ++ c).length + j) (by omega) with h0 | ⟨k, hk, hk'⟩
            · exact h0
            · rw [hk']
              exact ihj k (by omega)
        · exact List.getD_eq_default _ _ hj
    · rw [noShift_plain hmod]
      rw [lay_plain hgap] at h
      exact ih hgap h

/-! ### The buffer and the flash -/

variable {f₀ : Flash} {st : Download}

theorem splice_append (a rest d : Bytes) : splice (a ++ rest) a.length d = a ++ d ++ rest.drop d.length := by
  rw [splice, List.take_left' rfl, List.drop_append, List.drop_eq_nil_of_le (by omega), List.nil_append,
    Nat.add_sub_cancel_left]

/-- The sectors saved so far with one more behind them. -/
theorem readBytes_save (st : Download) {buf : Bytes} (hbuf : buf.length = sectorSize4KB) :
    readBytes (st.save buf).flash otaSpaceOffset (st.flashOtaOffset + sectorSize4KB) =
      readBytes st.dev.flash otaSpaceOffset st.flashOtaOffset ++ buf := by
  have herase := readBytes_erase st.dev.flash (otaSpaceOffset + st.flashOtaOffset) sectorSize4KB
  rw [readBytes_add]
  congr 1
  · rw [Download.save, Dev.readBytes_exec_disjoint, Dev.readBytes_exec_disjoint]
    · exact .inl (Nat.le_refl _)
    · exact .inl (Nat.le_refl _)
  · rw [Download.save, Dev.exec_flash, Dev.exec_flash, ← hbuf, readBytes_program_self, hbuf, herase, ← hbuf,
      zipWith_and_blank]

theorem readBytes_save_before (st : Download) {buf : Bytes} {addr len : ℕ}
    (h : addr + len ≤ otaSpaceOffset + st.flashOtaOffset) :
    readBytes (st.save buf).flash addr len = readBytes st.dev.flash addr len := by
  rw [Download.save, Dev.readBytes_exec_disjoint, Dev.readBytes_exec_disjoint]
  · exact .inl h
  · exact .inl h

/-! ### One piece -/

/-- `part_len`, the part of a piece that is left when the buffer is full. -/
def Download.partLen (st : Download) (buf : Bytes) : ℕ := st.temp4kOffset + buf.length - sectorSize4KB

def Download.head (st : Download) (buf : Bytes) : Bytes := buf.take (buf.length - st.partLen buf)

def Download.tail (st : Download) (buf : Bytes) : Bytes := buf.drop (buf.length - st.partLen buf)

/-- The buffer was saved; the tail of the piece is in it now. -/
structure Saved (st : Download) (filled : Bytes) (buf : Bytes) (st' : Download) : Prop where
  dev : st'.dev = st.save filled
  temp4KBuf : st'.temp4KBuf = some (st.tail buf ++ List.replicate (sectorSize4KB - (st.tail buf).length) 0)
  temp4kOffset : st'.temp4kOffset = (st.tail buf).length
  flashOtaOffset : st'.flashOtaOffset = st.flashOtaOffset + sectorSize4KB
  started : st'.isPersistentStarted = st.isPersistentStarted
  ready : st'.isReadyToVerify = st.isReadyToVerify
  precheck : st'.isPrecheckOk = if st.flashOtaOffset = 0 then true else st.isPrecheckOk
  copies : ∃ l, st'.copies = st.copies ++ l ∧
    ∀ p ∈ l, p = (st.temp4kOffset, (st.head buf).length) ∨ p = (0, (st.tail buf).length)

/-- What a piece can do. -/
inductive Written (st : Download) (buf : Bytes) (mallocOk : Bool) : Bool × Download → Prop
  | idle : st.isPersistentStarted = false ∨ st.temp4KBuf = none → Written st buf mallocOk (true, st)
  | kept {tempBuf : Bytes} : st.isPersistentStarted = true → st.temp4KBuf = some tempBuf →
      st.temp4kOffset + buf.length < sectorSize4KB - 1 → Written st buf mallocOk (true, st.stage tempBuf buf)
  | refused {tempBuf : Bytes} : st.isPersistentStarted = true → st.temp4KBuf = some tempBuf →
      sectorSize4KB - 1 ≤ st.temp4kOffset + buf.length → st.flashOtaOffset = 0 →
      otaDownloadPrecheck st.dev.flash appSpaceOffset (splice tempBuf st.temp4kOffset (st.head buf)) mallocOk = false →
      Written st buf mallocOk (false, { st.stage tempBuf (st.head buf) with isPrecheckOk := false })
  | saved {tempBuf : Bytes} {st' : Download} : st.isPersistentStarted = true → st.temp4KBuf = some tempBuf →
      sectorSize4KB - 1 ≤ st.temp4kOffset + buf.length →
      (st.flashOtaOffset = 0 →
        otaDownloadPrecheck st.dev.flash appSpaceOffset (splice tempBuf st.temp4kOffset (st.head buf)) mallocOk = true) →
      Saved st (splice tempBuf st.temp4kOffset (st.head buf)) buf st' → Written st buf mallocOk (true, st')

theorem Download.head_length (st : Download) (buf : Bytes) : (st.head buf).length = buf.length - st.partLen buf := by
  rw [Download.head, List.length_take]
  omega

theorem Download.head_append_tail (st : Download) (buf : Bytes) : st.head buf ++ st.tail buf = buf :=
  List.take_append_drop _ _

theorem splice_zeroSector (d : Bytes) : splice zeroSector 0 d = d ++ List.replicate (sectorSize4KB - d.length) 0 := by
  rw [splice, List.take_zero, List.nil_append, Nat.zero_add, zeroSector, List.drop_replicate]

@[simp] theorem stage_dev (st : Download) (t d : Bytes) : (st.stage t d).dev = st.dev := rfl

@[simp] theorem stage_temp4kOffset (st : Download) (t d : Bytes) :
    (st.stage t d).temp4kOffset = st.temp4kOffset + d.length := rfl

@[simp] theorem stage_flashOtaOffset (st : Download) (t d : Bytes) :
    (st.stage t d).flashOtaOffset = st.flashOtaOffset := rfl

theorem stage_save (st : Download) (t d buf : Bytes) : (st.stage t d).save buf = st.save buf := rfl

theorem flush_cases (st : Download) (filled : Bytes) (mallocOk : Bool) :
    (st.flashOtaOffset = 0 ∧ otaDownloadPrecheck st.dev.flash appSpaceOffset filled mallocOk = false) ∧
        st.flush filled mallocOk = none ∨
      (st.flashOtaOffset = 0 → otaDownloadPrecheck st.dev.flash appSpaceOffset filled mallocOk = true) ∧
        st.flush filled mallocOk = some (st.advance filled) := by
  unfold Download.flush
  split_ifs with hc
  · exact .inl ⟨hc, rfl⟩
  · refine .inr ⟨fun h0 => ?_, rfl⟩
    rw [← Bool.not_eq_false]
    exact fun hno => hc ⟨h0, hno⟩

theorem saved_advance (st : Download) (tempBuf filled buf : Bytes) (hpart : st.partLen buf = 0) :
    Saved st filled buf ((st.stage tempBuf (st.head buf)).advance filled) := by
  have htail : st.tail buf = [] := by
    rw [Download.tail, hpart, Nat.sub_zero, List.drop_length]
  constructor
  · exact stage_save st _ _ _
  · rw [htail]
    rfl
  · rw [htail]
    rfl
  · rfl
  · rfl
  · rfl
  · rfl
  · exact ⟨[(st.temp4kOffset, (st.head buf).length)], rfl, by simp⟩

theorem saved_advance_stage (st : Download) (tempBuf filled buf : Bytes) :
    Saved st filled buf (((st.stage tempBuf (st.head buf)).advance filled).stage zeroSector (st.tail buf)) := by
  constructor
  · exact stage_save st _ _ _
  · exact congrArg some (splice_zeroSector _)
  · exact Nat.zero_add _
  · rfl
  · rfl
  · rfl
  · rfl
  · refine ⟨[(st.temp4kOffset, (st.head buf).length), (0, (st.tail buf).length)], ?_, by simp⟩
    exact List.append_assoc _ _ _

theorem otaPersistentWrite_written (st : Download) (buf : Bytes) (mallocOk : Bool) :
    Written st buf mallocOk (otaPersistentWrite st buf mallocOk) := by
  cases hstart : st.isPersistentStarted with
  | false =>
    unfold otaPersistentWrite
    rw [hstart]
    exact .idle (.inl hstart)
  | true =>
    cases hbuf : st.temp4KBuf with
    | none =>
      unfold otaPersistentWrite
      rw [hstart, hbuf]
      exact .idle (.inr hbuf)
    | some tempBuf =>
      have hlen := st.head_length buf
      unfold otaPersistentWrite
      rw [hstart, hbuf, if_neg (by decide)]
      dsimp only
      rw [← Download.partLen, ← Download.head, ← Download.tail]
      by_cases hfull : sectorSize4KB - 1 ≤ st.temp4kOffset + buf.length
      · rw [if_pos (by rw [stage_temp4kOffset, hlen, Download.partLen]; omega)]
        rcases flush_cases (st.stage tempBuf (st.head buf)) (splice tempBuf st.temp4kOffset (st.head buf)) mallocOk with
          ⟨⟨h0, hno⟩, hf⟩ | ⟨hpre, hf⟩
        · rw [hf]
          dsimp only
          exact .refused hstart hbuf hfull h0 hno
        · rw [hf]
          dsimp only
          split_ifs with hpos
          · exact .saved hstart hbuf hfull hpre (saved_advance_stage st tempBuf _ buf)
          · exact .saved hstart hbuf hfull hpre (saved_advance st tempBuf _ buf (by omega))
      · have hzero : st.partLen buf = 0 := by
          rw [Download.partLen]
          simp only [sectorSize4KB] at hfull ⊢
          omega
        have hall : st.head buf = buf := by
          rw [Download.head, hzero, Nat.sub_zero, List.take_length]
        rw [hall, if_neg (by rw [stage_temp4kOffset]; omega)]
        exact .kept hstart hbuf (by omega)

/-- Between two pieces: `img` is laid out, its last bytes in the buffer. -/
structure Staged (f₀ : Flash) (img : Bytes) (st : Download) : Prop where
  started : st.isPersistentStarted = true
  short : st.temp4kOffset < sectorSize4KB - 1
  sectors : st.flashOtaOffset % sectorSize4KB = 0
  length : img.length = st.flashOtaOffset + st.temp4kOffset
  saved : readBytes st.dev.flash otaSpaceOffset st.flashOtaOffset = img.take st.flashOtaOffset
  fresh : st.flashOtaOffset = 0 → st.dev.flash = f₀
  buf : ∃ rest, st.temp4KBuf = some (img.drop st.flashOtaOffset ++ rest) ∧
    rest.length = sectorSize4KB - st.temp4kOffset ∧ rest.getLast? = some 0 ∧
    (st.flashOtaOffset ≠ 0 → rest = List.replicate (sectorSize4KB - st.temp4kOffset) 0)

theorem u32At_take {h : Bytes} {n off : ℕ} (hoff : off + 4 ≤ n) : u32At (h.take n) off = u32At h off := by
  rw [u32At, u32At, List.drop_take, List.take_take, Nat.min_eq_left (by omega)]

/-- The precheck looks at the header only. -/
theorem otaDownloadPrecheck_take (f : Flash) (appOffset : ℕ) (h : Bytes) (mallocOk : Bool) :
    otaDownloadPrecheck f appOffset (h.take imageHdrSize) mallocOk = otaDownloadPrecheck f appOffset h mallocOk := by
  have hget : ∀ i < 256, (h.take 256).getD i 0 = h.getD i 0 := by
    intro i hi
    rw [List.getD_eq_getElem?_getD, List.getElem?_take, if_pos hi, List.getD_eq_getElem?_getD]
  have hver : ImageHdr.ver (h.take 256) = ImageHdr.ver h := by
    rw [ImageHdr.ver, ImageHdr.ver, hget 4 (by omega), hget 5 (by omega)]
  have htype : ImageHdr.imageType (h.take 256) = ImageHdr.imageType h := by
    rw [ImageHdr.imageType, ImageHdr.imageType, u32At_take (by omega)]
  have horig : ImageHdr.imgSizeOrig (h.take 256) = ImageHdr.imgSizeOrig h := u32At_take (by omega)
  have hxz : ImageHdr.imgSizeOrigXz (h.take 256) = ImageHdr.imgSizeOrigXz h := u32At_take (by omega)
  unfold otaDownloadPrecheck imageHdrSize
  rw [hver, htype, horig, hxz]

theorem otaDownloadPrecheck_congr {f : Flash} {appOffset : ℕ} {h h' : Bytes} {mallocOk : Bool}
    (he : h.take imageHdrSize = h'.take imageHdrSize) :
    otaDownloadPrecheck f appOffset h mallocOk = otaDownloadPrecheck f appOffset h' mallocOk := by
  rw [← otaDownloadPrecheck_take, he, otaDownloadPrecheck_take]

/-- A sector that is saved, with the rest of the piece behind it. -/
theorem Staged.flushed (h : Staged f₀ img st) {x full rest : Bytes} {st' : Download} (hfull : full.length = sectorSize4KB)
    (hx : x = img.take st.flashOtaOffset ++ full ++ rest) (hrest : rest.length < sectorSize4KB - 1)
    (hdev : st'.dev = st.save full) (hstart : st'.isPersistentStarted = true)
    (hoff : st'.flashOtaOffset = st.flashOtaOffset + sectorSize4KB) (htemp : st'.temp4kOffset = rest.length)
    (hbuf : st'.temp4KBuf = some (rest ++ List.replicate (sectorSize4KB - rest.length) 0)) : Staged f₀ x st' := by
  have hlen : (img.take st.flashOtaOffset).length = st.flashOtaOffset := by
    rw [List.length_take, h.length]
    omega
  have hcut : (img.take st.flashOtaOffset ++ full).length = st.flashOtaOffset + sectorSize4KB := by
    rw [List.length_append, hlen, hfull]
  refine ⟨hstart, by rw [htemp]; exact hrest, ?_, ?_, ?_, ?_, ?_⟩
  · rw [hoff, Nat.add_mod_right]
    exact h.sectors
  · rw [hx, List.length_append, hcut, hoff, htemp]
  · rw [hdev, hoff, readBytes_save st hfull, h.saved, hx, List.take_left' hcut]
  · intro h0
    rw [hoff] at h0
    simp only [sectorSize4KB] at h0
    omega
  · refine ⟨List.replicate (sectorSize4KB - rest.length) 0, ?_, ?_, ?_, ?_⟩
    · rw [hbuf, hoff, hx, List.drop_left' hcut]
    · rw [List.length_replicate, htemp]
    · rw [List.getLast?_replicate, if_neg]
      simp only [sectorSize4KB] at hrest ⊢
      omega
    · intro _
      rw [htemp]

theorem Staged.staged_length (h : Staged f₀ img st) : (img.drop st.flashOtaOffset).length = st.temp4kOffset := by
  rw [List.length_drop, h.length, Nat.add_sub_cancel_left]

theorem Staged.splice (h : Staged f₀ img st) (rest d : Bytes) :
    splice (img.drop st.flashOtaOffset ++ rest) st.temp4kOffset d = img.drop st.flashOtaOffset ++ d ++ rest.drop d.length := by
  rw [← h.staged_length, splice_append]

theorem getLast?_drop_of_lt {rest : Bytes} {n : ℕ} (hn : n < rest.length) : (rest.drop n).getLast? = rest.getLast? := by
  rw [List.getLast?_drop, if_neg (by omega)]

/-- A piece that leaves the buffer short of a sector. -/
theorem Staged.kept (h : Staged f₀ img st) {tempBuf : Bytes} (htemp : st.temp4KBuf = some tempBuf)
    (hs : st.temp4kOffset + c.length < sectorSize4KB - 1) : Staged f₀ (img ++ c) (st.stage tempBuf c) := by
  obtain ⟨rest, hbuf, hrest, hlast, hzero⟩ := h.buf
  rw [hbuf] at htemp
  obtain rfl := Option.some.inj htemp
  simp only [sectorSize4KB] at hs hrest
  have hle : st.flashOtaOffset ≤ img.length := by rw [h.length]; omega
  refine ⟨h.started, ?_, h.sectors, ?_, ?_, h.fresh, ?_⟩
  · rw [stage_temp4kOffset]
    exact hs
  · rw [stage_temp4kOffset, List.length_append, h.length, Nat.add_assoc]
    rfl
  · rw [stage_flashOtaOffset, stage_dev, h.saved, List.take_append_of_le_length hle]
  · refine ⟨rest.drop c.length, ?_, ?_, ?_, fun hne => ?_⟩
    · rw [stage_flashOtaOffset, List.drop_append_of_le_length hle, ← h.splice]
      rfl
    · rw [stage_temp4kOffset, List.length_drop, hrest, Nat.sub_sub]
      rfl
    · rw [getLast?_drop_of_lt (by omega)]
      exact hlast
    · rw [hzero hne, stage_temp4kOffset, List.drop_replicate, Nat.sub_sub]

/-- What a full buffer holds: the staged bytes, the head of the piece and, if the piece ends one
byte before the end of the sector, a zero. -/
theorem Staged.filled (h : Staged f₀ img st) {rest : Bytes} (hrest : rest.length = sectorSize4KB - st.temp4kOffset)
    (hlast : rest.getLast? = some 0) (hs : sectorSize4KB - 1 ≤ st.temp4kOffset + c.length) (hc : c.length ≤ 2048) :
    (Ota.splice (img.drop st.flashOtaOffset ++ rest) st.temp4kOffset (st.head c)).length = sectorSize4KB ∧
      lay img c = img.take st.flashOtaOffset ++
        Ota.splice (img.drop st.flashOtaOffset ++ rest) st.temp4kOffset (st.head c) ++ st.tail c := by
  have hlen := h.length
  have hsec := h.sectors
  have hshort := h.short
  have hhead := st.head_length c
  have hstaged := h.staged_length
  have happ := st.head_append_tail c
  simp only [Download.partLen, sectorSize4KB] at hs hrest hhead hsec hshort
  rw [h.splice]
  constructor
  · simp only [List.length_append, List.length_drop, sectorSize4KB]
    omega
  · have htd : img.take st.flashOtaOffset ++ img.drop st.flashOtaOffset = img := List.take_append_drop _ _
    by_cases hgap : st.temp4kOffset + c.length = 4095
    · have hall : st.head c = c := by
        rw [Download.head, Download.partLen, List.take_of_length_le]
        simp only [sectorSize4KB]
        omega
      have hnil : st.tail c = [] := by
        rw [hall] at happ
        exact List.append_right_eq_self.mp happ
      have hone : rest.drop c.length = [0] := by
        have hlen1 : (rest.drop c.length).length = 1 := by rw [List.length_drop]; omega
        obtain ⟨b, hb⟩ := List.length_eq_one_iff.mp hlen1
        have hl : (rest.drop c.length).getLast? = some 0 := by
          rw [getLast?_drop_of_lt (by omega)]
          exact hlast
        rw [hb, List.getLast?_singleton] at hl
        rw [hb, Option.some.inj hl]
      rw [lay_gap (by rw [List.length_append]; simp only [sectorSize4KB]; omega), hall, hnil, hone, List.append_nil,
        ← List.append_assoc, ← List.append_assoc, htd]
    · have hnil : rest.drop (st.head c).length = [] := by
        apply List.drop_eq_nil_of_le
        omega
      rw [lay_plain (by rw [List.length_append]; simp only [sectorSize4KB]; omega), hnil, List.append_nil,
        ← List.append_assoc, htd, List.append_assoc, happ]

/-- Every piece is laid out. -/
theorem Staged.write (h : Staged f₀ img st) (hc : c.length ≤ 2048)
    (hpre : st.flashOtaOffset = 0 → sectorSize4KB - 1 ≤ (img ++ c).length →
      otaDownloadPrecheck f₀ appSpaceOffset (img ++ c) true = true) :
    Staged f₀ (lay img c) (otaPersistentWrite st c true).2 := by
  obtain ⟨rest, hbuf, hrest, hlast, -⟩ := h.buf
  have hlen := h.length
  have hsec := h.sectors
  -- the header is in the first sector, whichever of the two lengths it is saved with
  have hcheck : ∀ tempBuf, st.temp4KBuf = some tempBuf → sectorSize4KB - 1 ≤ st.temp4kOffset + c.length →
      st.flashOtaOffset = 0 →
      otaDownloadPrecheck st.dev.flash appSpaceOffset (Ota.splice tempBuf st.temp4kOffset (st.head c)) true = true := by
    intro tempBuf htemp hs h0
    rw [hbuf] at htemp
    obtain rfl := Option.some.inj htemp
    rw [h.fresh h0, h.splice, h0, List.drop_zero]
    refine Eq.trans (otaDownloadPrecheck_congr ?_) (hpre h0 (by rw [List.length_append]; omega))
    have hhead := st.head_length c
    have happ := st.head_append_tail c
    simp only [Download.partLen, sectorSize4KB] at hs hhead
    have hlong : imageHdrSize ≤ (img ++ st.head c).length := by
      rw [List.length_append]
      simp only [imageHdrSize]
      omega
    rw [List.take_append_of_le_length hlong]
    nth_rewrite 2 [← happ]
    rw [← List.append_assoc, List.take_append_of_le_length hlong]
  cases hw : otaPersistentWrite st c true with
  | mk ok st' =>
    have hwritten := otaPersistentWrite_written st c true
    rw [hw] at hwritten
    cases hwritten with
    | idle hidle =>
      rcases hidle with hidle | hidle
      · rw [h.started] at hidle
        contradiction
      · rw [hbuf] at hidle
        contradiction
    | kept _ htemp hs =>
      simp only [sectorSize4KB] at hs hsec
      rw [lay_plain (by rw [List.length_append]; simp only [sectorSize4KB]; omega)]
      exact h.kept htemp (by simp only [sectorSize4KB]; omega)
    | refused _ htemp hs h0 hno =>
      rw [hcheck _ htemp hs h0] at hno
      contradiction
    | saved _ htemp hs _ hsaved =>
      rw [hbuf] at htemp
      obtain rfl := Option.some.inj htemp
      obtain ⟨hfull, hlay⟩ := h.filled hrest hlast hs hc
      have htail : (st.tail c).length < sectorSize4KB - 1 := by
        rw [Download.tail, List.length_drop]
        simp only [sectorSize4KB]
        omega
      exact h.flushed hfull hlay htail hsaved.dev (hsaved.started.trans h.started) hsaved.flashOtaOffset
        hsaved.temp4kOffset hsaved.temp4KBuf

/-! ### A whole download -/

/-- The pieces of a stream in order. -/
def otaPersistentWrites (st : Download) : List Bytes → Download
  | [] => st
  | c :: cs => otaPersistentWrites (otaPersistentWrite st c true).2 cs

/-- The flash after a download that was started, written and finished. -/
def downloaded (st : Download) (cs : List Bytes) : Flash :=
  (otaPersistentFinish (otaPersistentWrites (otaPersistentStart st true).2 cs)).2.dev.flash

/-- The buffer that an earlier download left, if any, has the right size and ends in zero. It
does unless the precheck refused a sector. -/
def Clean (st : Download) : Prop := ∀ b, st.temp4KBuf = some b → b.length = sectorSize4KB ∧ b.getLast? = some 0

theorem staged_start (h : Clean st) : Staged st.dev.flash [] (otaPersistentStart st true).2 := by
  have hmk : ∀ b, b.length = sectorSize4KB → b.getLast? = some 0 → ∀ st' : Download, st'.dev = st.dev →
      st'.temp4KBuf = some b → st'.temp4kOffset = 0 → st'.flashOtaOffset = 0 → st'.isPersistentStarted = true →
      Staged st.dev.flash [] st' := by
    intro b hlen hlast st' hdev hbuf htemp hoff hstart
    refine ⟨hstart, ?_, ?_, ?_, ?_, fun _ => by rw [hdev], ⟨b, ?_, ?_, hlast, fun hne => absurd hoff hne⟩⟩
    · rw [htemp]
      decide
    · rw [hoff, Nat.zero_mod]
    · rw [hoff, htemp]
      rfl
    · rw [hoff]
      rfl
    · rw [hbuf, List.drop_nil, List.nil_append]
    · rw [hlen, htemp]
      rfl
  unfold otaPersistentStart
  cases hbuf : st.temp4KBuf with
  | none =>
    refine hmk zeroSector List.length_replicate ?_ _ rfl rfl rfl rfl rfl
    rw [zeroSector, List.getLast?_replicate, if_neg (by decide)]
  | some b =>
    obtain ⟨hlen, hlast⟩ := h b hbuf
    exact hmk b hlen hlast _ rfl rfl rfl rfl rfl

theorem Staged.writes (h : Staged f₀ img st) (hcs : ∀ c ∈ cs, c.length ≤ 2048)
    (hpre : st.flashOtaOffset = 0 → otaDownloadPrecheck f₀ appSpaceOffset (img ++ cs.flatten) true = true) :
    Staged f₀ (laid img cs) (otaPersistentWrites st cs) := by
  induction cs generalizing img st with
  | nil => exact h
  | cons c cs ih =>
    have hstep := h.write (hcs c (by simp)) fun h0 hlong => by
      refine Eq.trans (otaDownloadPrecheck_congr ?_) (hpre h0)
      have hhdr : imageHdrSize ≤ (img ++ c).length := by
        simp only [sectorSize4KB, imageHdrSize] at hlong ⊢
        omega
      rw [List.flatten_cons, ← List.append_assoc, List.take_append_of_le_length hhdr]
    refine ih hstep (fun x hx => hcs x (by simp [hx])) fun h0 => ?_
    -- nothing was saved yet, so there is no gap
    have hplain : lay img c = img ++ c := by
      apply lay_plain
      intro hgap
      have hlen := hstep.length
      have hshort := hstep.short
      rw [h0, lay_gap hgap] at hlen
      simp only [List.length_append, List.length_singleton, sectorSize4KB] at hlen hshort hgap
      omega
    have hoff : st.flashOtaOffset = 0 := by
      have hlen := h.length
      have hlen' := hstep.length
      have hshort := hstep.short
      have hsec := h.sectors
      rw [h0, hplain, List.length_append] at hlen'
      simp only [sectorSize4KB] at hshort hsec
      omega
    rw [hplain, List.append_assoc, ← List.flatten_cons]
    exact hpre hoff

/-- The flash after the last sector. -/
theorem Staged.finish (h : Staged f₀ img st) (hoff : st.flashOtaOffset ≠ 0) :
    readBytes (otaPersistentFinish st).2.dev.flash otaSpaceOffset (st.flashOtaOffset + sectorSize4KB) =
      img ++ List.replicate (sectorSize4KB - st.temp4kOffset) 0 := by
  obtain ⟨rest, hbuf, hrest, -, hzero⟩ := h.buf
  have hfull : (img.drop st.flashOtaOffset ++ rest).length = sectorSize4KB := by
    have hshort := h.short
    rw [List.length_append, h.staged_length, hrest]
    omega
  unfold otaPersistentFinish
  rw [h.started, hbuf]
  refine (readBytes_save st hfull).trans ?_
  rw [h.saved, ← List.append_assoc, List.take_append_drop, hzero hoff]

/-- The length of a stream, rounded up to whole sectors. -/
def sectorsLen (n : ℕ) : ℕ := (n + sectorSize4KB - 1) / sectorSize4KB * sectorSize4KB

theorem getD_append_zeros (l : Bytes) (k i : ℕ) : (l ++ List.replicate k 0).getD i 0 = l.getD i 0 := by
  rcases Nat.lt_or_ge i l.length with hi | hi
  · rw [List.getD_append _ _ _ _ hi]
  · rw [List.getD_append_right _ _ _ _ hi, List.getD_eq_default _ _ hi, List.getD_eq_getElem?_getD,
      List.getElem?_replicate]
    split_ifs <;> rfl

/-- Two byte strings of one length that end in zeros. -/
theorem take_zeros_eq_iff {l s : Bytes} {r k : ℕ} (hs : s.length ≤ r) (hk : r ≤ l.length + k) :
    (l ++ List.replicate k 0).take r = s ++ List.replicate (r - s.length) 0 ↔ ∀ i < r, l.getD i 0 = s.getD i 0 := by
  have hlen : ((l ++ List.replicate k 0).take r).length = r := by
    rw [List.length_take, List.length_append, List.length_replicate]
    omega
  have hlen' : (s ++ List.replicate (r - s.length) 0).length = r := by
    rw [List.length_append, List.length_replicate]
    omega
  have hget : ∀ i < r, ((l ++ List.replicate k 0).take r).getD i 0 = l.getD i 0 := by
    intro i hi
    rw [List.getD_eq_getElem?_getD, List.getElem?_take, if_pos hi, ← List.getD_eq_getElem?_getD, getD_append_zeros]
  constructor
  · intro h i hi
    rw [← hget i hi, h, getD_append_zeros]
  · intro h
    apply List.ext_getElem (hlen.trans hlen'.symm)
    intro i h1 h2
    rw [← List.getD_eq_getElem _ 0 h1, ← List.getD_eq_getElem _ 0 h2, hget i (by omega), h i (by omega), getD_append_zeros]

/-- The start of an original image of version 0.1. -/
def sampleHeader : Bytes := leBytes 4 1 ++ [0, 1] ++ List.replicate 250 0

/-- A piece with the header and a piece of zeros, one sector together. -/
def sectorPieces : List Bytes := [sampleHeader ++ List.replicate 1792 0, List.replicate 2048 0]

/-- A stream of one sector whose second piece ends one byte before its end. -/
def gapPieces : List Bytes := [sampleHeader ++ List.replicate 1792 0, List.replicate 2047 0, [1]]

end Ln882x.Ota
