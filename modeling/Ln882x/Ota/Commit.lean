import Ln882x.Ota.Attempts

/-! When the upgrade is committed. The flag that the precheck sets is read long
after, when other sectors were saved and other attempts were made. It speaks of
the image in flash as long as no attempt ends with its first sector unchecked. -/

namespace Ln882x.Ota

open Nor

variable {st st' : Download} {f : Flash}

/-! ### Headers in flash -/

theorem imageHeaderFastRead_save_before (st : Download) (b : Bytes) (addr : ℕ)
    (h : addr + imageHdrSize ≤ otaSpaceOffset + st.flashOtaOffset) (hlt : addr + imageHdrSize ≤ 2 ^ 32) :
    imageHeaderFastRead (st.save b).flash addr = imageHeaderFastRead st.dev.flash addr := by
  rw [imageHeaderFastRead, imageHeaderFastRead, flashRead_eq_readBytes hlt, flashRead_eq_readBytes hlt,
    readBytes_save_before st h]

/-- The first sector carries the header. -/
theorem imageHeaderFastRead_save_first {b : Bytes} (hb : b.length = sectorSize4KB) (h0 : st.flashOtaOffset = 0) :
    imageHeaderFastRead (st.save b).flash otaSpaceOffset = b.take imageHdrSize := by
  have hsave := readBytes_save st hb
  rw [h0, readBytes_zero, List.nil_append, Nat.zero_add] at hsave
  have hslice := readBytes_slice (st.save b).flash otaSpaceOffset sectorSize4KB 0 imageHdrSize (by decide)
  rw [Nat.add_zero, List.drop_zero, hsave] at hslice
  rw [imageHeaderFastRead, flashRead_eq_readBytes (by decide), hslice]

theorem otaDownloadPrecheck_flash {f g : Flash} {appOffset : ℕ} {h : ImageHdr} {mallocOk : Bool}
    (he : imageHeaderFastRead f appOffset = imageHeaderFastRead g appOffset) :
    otaDownloadPrecheck f appOffset h mallocOk = otaDownloadPrecheck g appOffset h mallocOk := by
  unfold otaDownloadPrecheck
  rw [he]

theorem otaDownloadPrecheck_malloc {appOffset : ℕ} {h : ImageHdr} {mallocOk : Bool}
    (hok : otaDownloadPrecheck f appOffset h mallocOk = true) : otaDownloadPrecheck f appOffset h true = true := by
  cases mallocOk with
  | false => exact nomatch hok
  | true => exact hok

/-! ### Events that keep the flag honest -/

/-- The sizes of the header do not wrap, and an original image fits the OTA partition. -/
def Fits (h : ImageHdr) : Prop :=
  (h.imageType = some .original → h.imgSizeOrig + imageHdrSize ≤ otaSpaceSize) ∧
    (h.imageType = some .originalXz → h.imgSizeOrig + imageHdrSize < 2 ^ 32 ∧ h.imgSizeOrigXz + imageHdrSize < 2 ^ 32)

instance (h : ImageHdr) : Decidable (Fits h) := inferInstanceAs (Decidable (_ ∧ _))

/-- The image in the OTA partition passes the precheck. -/
def Vouched (f : Flash) : Prop :=
  otaDownloadPrecheck f appSpaceOffset (imageHeaderFastRead f otaSpaceOffset) true = true ∧
    Fits (imageHeaderFastRead f otaSpaceOffset)

/-- The header of a first sector has sizes that fit, and no attempt ends before its first
sector is saved while the flag is set. -/
def Guarded (st : Download) : Event → Prop
  | .start _ => True
  | .recv buf _ => sectorSize4KB - 1 ≤ st.temp4kOffset + buf.length → st.flashOtaOffset = 0 →
      Fits (splice (st.temp4KBuf.getD []) st.temp4kOffset (st.head buf))
  | .finished => st.isPersistentStarted = true → st.isPrecheckOk = true → st.flashOtaOffset ≠ 0

instance (st : Download) : ∀ e, Decidable (Guarded st e)
  | .start _ => .isTrue trivial
  | .recv _ _ => inferInstanceAs (Decidable (_ → _))
  | .finished => inferInstanceAs (Decidable (_ → _))

theorem fits_take (h : Bytes) : Fits (h.take imageHdrSize) ↔ Fits h := by
  have htype : ImageHdr.imageType (h.take imageHdrSize) = ImageHdr.imageType h := by
    rw [ImageHdr.imageType, ImageHdr.imageType, u32At_take (by decide)]
  have horig : ImageHdr.imgSizeOrig (h.take imageHdrSize) = ImageHdr.imgSizeOrig h := u32At_take (by decide)
  have hxz : ImageHdr.imgSizeOrigXz (h.take imageHdrSize) = ImageHdr.imgSizeOrigXz h := u32At_take (by decide)
  rw [Fits, Fits, htype, horig, hxz]

/-- The flag speaks of the image in flash. -/
def Honest (st : Download) : Prop := st.isPrecheckOk = true → Vouched st.dev.flash

/-- A later sector does not touch the headers. -/
theorem vouched_save (hs : Sized st) (b : Bytes) (h0 : st.flashOtaOffset ≠ 0) (hv : Vouched st.dev.flash) :
    Vouched (st.save b).flash := by
  have hsec := hs.sectors
  have hge : imageHdrSize ≤ st.flashOtaOffset := by
    simp only [sectorSize4KB, imageHdrSize] at hsec ⊢
    omega
  have hota := imageHeaderFastRead_save_before st b otaSpaceOffset (by omega) (by decide)
  have happ := imageHeaderFastRead_save_before st b appSpaceOffset
    (by simp only [appSpaceOffset, otaSpaceOffset, imageHdrSize]; omega) (by decide)
  rw [Vouched, hota, otaDownloadPrecheck_flash happ]
  exact hv

/-- The first sector is saved after its precheck. -/
theorem vouched_save_first {b : Bytes} {mallocOk : Bool} (hb : b.length = sectorSize4KB) (h0 : st.flashOtaOffset = 0)
    (hpre : otaDownloadPrecheck st.dev.flash appSpaceOffset b mallocOk = true) (hfits : Fits b) :
    Vouched (st.save b).flash := by
  have happ := imageHeaderFastRead_save_before st b appSpaceOffset
    (by simp only [appSpaceOffset, otaSpaceOffset, imageHdrSize]; omega) (by decide)
  rw [Vouched, imageHeaderFastRead_save_first hb h0, otaDownloadPrecheck_flash happ, otaDownloadPrecheck_take, fits_take]
  exact ⟨otaDownloadPrecheck_malloc hpre, hfits⟩

theorem Honest.on (h : Honest st) (hs : Sized st) {e : Event} (hg : Guarded st e) : Honest (st.on e) := by
  cases e with
  | start mallocOk =>
    have hst := otaPersistentStart_started st mallocOk
    simp only [Download.on]
    generalize (otaPersistentStart st mallocOk).2 = r at hst
    cases hst <;> exact h
  | recv buf mallocOk =>
    have hw := otaPersistentWrite_written st buf mallocOk
    simp only [Download.on]
    generalize otaPersistentWrite st buf mallocOk = r at hw
    cases hw with
    | idle => exact h
    | kept => exact h
    | refused =>
      intro hno
      cases hno
    | @saved tempBuf _ hstart htemp hfull hpre hsaved =>
      intro hflag
      rw [hsaved.dev]
      rw [hsaved.precheck] at hflag
      by_cases h0 : st.flashOtaOffset = 0
      · have hfits := hg hfull h0
        rw [htemp, Option.getD_some] at hfits
        exact vouched_save_first (hs.filled_length htemp buf) h0 (hpre h0) hfits
      · rw [if_neg h0] at hflag
        exact vouched_save hs _ h0 (h hflag)
  | finished =>
    have hf := otaPersistentFinish_finished st
    simp only [Download.on]
    generalize (otaPersistentFinish st).2 = r at hf
    cases hf with
    | idle => exact h
    | saved hstart htemp =>
      intro hflag
      exact vouched_save hs _ (hg hstart hflag) (h hflag)

theorem Honest.run {events : List Event} (h : Honest st) (hs : Sized st) (hsmall : ∀ e ∈ events, e.Small)
    (hg : Always Guarded st events) : Honest (st.run events) := by
  induction events generalizing st with
  | nil => exact h
  | cons e events ih =>
    exact ih (h.on hs hg.1) (hs.on (hsmall e (by simp))) (fun x hx => hsmall x (by simp [hx])) hg.2

/-! ### The attempts as events -/

/-- The events of a round. -/
def roundEvents (st : Download) (a : Attempt) : List Event :=
  if !a.infoOk || !a.initOk then []
  else if (otaPersistentStart st a.startOk).1 then
    .start a.startOk :: ((a.pieces.map fun p => .recv p.1 p.2) ++ if a.ending = .finished then [.finished] else [])
  else [.start a.startOk]

theorem httpGetPieces_run (st : Download) (pieces : List (Bytes × Bool)) :
    (httpGetPieces st pieces).1 = st.run (pieces.map fun p => .recv p.1 p.2) := by
  induction pieces generalizing st with
  | nil => rfl
  | cons p pieces ih => exact ih _

theorem httpGet_run (st : Download) (pieces : List (Bytes × Bool)) (ending : Ending) :
    (httpGet st pieces ending).1 =
      st.run ((pieces.map fun p => .recv p.1 p.2) ++ if ending = .finished then [.finished] else []) := by
  rw [run_append, ← httpGetPieces_run]
  cases ending with
  | failed => rfl
  | closed => rfl
  | finished => rfl

theorem httpOtaRound_run (st : Download) (recvTotal : ℤ) (a : Attempt) :
    (httpOtaRound st recvTotal a).1 = st.run (roundEvents st a) := by
  unfold httpOtaRound roundEvents
  by_cases h1 : (!a.infoOk || !a.initOk) = true
  · rw [if_pos h1, if_pos h1]
    rfl
  · rw [if_neg h1, if_neg h1]
    dsimp only
    by_cases h2 : (otaPersistentStart st a.startOk).1 = true
    · rw [if_pos h2, if_pos h2]
      exact httpGet_run _ _ _
    · rw [if_neg h2, if_neg h2]
      rfl

/-- The events of the rounds that are made. -/
def loopEvents (st : Download) (recvTotal : ℤ) : List Attempt → List Event
  | [] => []
  | a :: attempts =>
    let r := httpOtaRound st recvTotal a
    roundEvents st a ++ if r.2.2 then [] else loopEvents r.1 r.2.1 attempts

theorem httpOtaLoop_run {recvTotal : ℤ} {attempts : List Attempt} (h : httpOtaLoop st recvTotal attempts = some st') :
    st' = st.run (loopEvents st recvTotal attempts) := by
  induction attempts generalizing st recvTotal with
  | nil => exact nomatch h
  | cons a attempts ih =>
    rw [httpOtaLoop] at h
    rw [loopEvents, run_append, ← httpOtaRound_run st recvTotal a]
    split_ifs at h ⊢ with hend
    · exact (Option.some.inj h).symm
    · exact ih h

theorem roundEvents_small (st : Download) {a : Attempt} (ha : ∀ p ∈ a.pieces, p.1.length ≤ 2048) :
    ∀ e ∈ roundEvents st a, e.Small := by
  intro e he
  unfold roundEvents at he
  split_ifs at he with h1 h2 h3
  · exact absurd he List.not_mem_nil
  · simp only [List.mem_cons, List.mem_append, List.mem_map, List.not_mem_nil, or_false] at he
    rcases he with rfl | ⟨p, hp, rfl⟩ | rfl
    · trivial
    · exact ha p hp
    · trivial
  · simp only [List.append_nil, List.mem_cons, List.mem_map] at he
    rcases he with rfl | ⟨p, hp, rfl⟩
    · trivial
    · exact ha p hp
  · rw [List.mem_singleton.mp he]
    trivial

theorem loopEvents_small {recvTotal : ℤ} {attempts : List Attempt}
    (ha : ∀ a ∈ attempts, ∀ p ∈ a.pieces, p.1.length ≤ 2048) : ∀ e ∈ loopEvents st recvTotal attempts, e.Small := by
  induction attempts generalizing st recvTotal with
  | nil => exact fun e he => absurd he List.not_mem_nil
  | cons a attempts ih =>
    intro e he
    rw [loopEvents, List.mem_append] at he
    rcases he with he | he
    · exact roundEvents_small st (ha a (by simp)) e he
    · split_ifs at he
      · exact absurd he List.not_mem_nil
      · exact ih (fun x hx => ha x (by simp [hx])) e he

/-! ### The commit -/

/-- What the stored image satisfies: it verifies, it may be restored, it is newer than the
application, and both it and what it restores have room. -/
structure CommitSound (f : Flash) : Prop where
  header : imageHeaderVerify (imageHeaderFastRead f otaSpaceOffset) = true
  body : ∃ t, (t = .original ∨ t = .originalXz) ∧ (imageHeaderFastRead f otaSpaceOffset).imageType = some t ∧
    (lnCrc32SignleCal (flashRead f (otaSpaceOffset + imageHdrSize)
      ((imageHeaderFastRead f otaSpaceOffset).bodySize t))).toNat = (imageHeaderFastRead f otaSpaceOffset).bodyCrc32 t ∧
    imageHdrSize + (imageHeaderFastRead f otaSpaceOffset).bodySize t ≤ otaSpaceSize
  version : (imageHeaderFastRead f appSpaceOffset).ver < (imageHeaderFastRead f otaSpaceOffset).ver
  size : imageHdrSize + (imageHeaderFastRead f otaSpaceOffset).imgSizeOrig ≤ appSpaceSize

/-- What a vouched image says in true integers. -/
theorem Vouched.sizes (h : Vouched f) {t : ImageType} (ht : (imageHeaderFastRead f otaSpaceOffset).imageType = some t) :
    (t = .original ∨ t = .originalXz) ∧ (imageHeaderFastRead f appSpaceOffset).ver < (imageHeaderFastRead f otaSpaceOffset).ver ∧
      imageHdrSize + (imageHeaderFastRead f otaSpaceOffset).imgSizeOrig ≤ appSpaceSize ∧
      imageHdrSize + (imageHeaderFastRead f otaSpaceOffset).bodySize t ≤ otaSpaceSize := by
  obtain ⟨hpre, horig, hxz⟩ := h
  unfold otaDownloadPrecheck at hpre
  rw [ht] at hpre horig hxz
  simp only [Bool.not_true, Bool.false_eq_true, if_false, Option.some.injEq] at hpre horig hxz
  split_ifs at hpre with htype hver hsize
  have happ : appSpaceSize < 2 ^ 32 := by decide
  have hota : otaSpaceSize < 2 ^ 32 := by decide
  rcases htype with rfl | rfl
  · have hfit := horig rfl
    rw [Nat.mod_eq_of_lt (by omega : (imageHeaderFastRead f otaSpaceOffset).imgSizeOrig + imageHdrSize < 2 ^ 32)] at hsize
    refine ⟨.inl rfl, by omega, by omega, ?_⟩
    rw [ImageHdr.bodySize]
    omega
  · obtain ⟨hfit, hfit'⟩ := hxz rfl
    rw [Nat.mod_eq_of_lt hfit, Nat.mod_eq_of_lt hfit'] at hsize
    refine ⟨.inr rfl, by omega, by omega, ?_⟩
    rw [ImageHdr.bodySize]
    omega

theorem httpOtaEntry_sound (f : Flash) (attempts : List Attempt) (hsmall : ∀ a ∈ attempts, ∀ p ∈ a.pieces, p.1.length ≤ 2048)
    (hg : Always Guarded (.init f) (loopEvents (.init f) 0 attempts)) {fl : Flash}
    (h : httpOtaEntry f attempts = some fl) : CommitSound fl := by
  unfold httpOtaEntry at h
  split at h
  · contradiction
  · next st' hloop =>
    split_ifs at h with hcond
    obtain rfl := Option.some.inj h
    simp only [Bool.and_eq_true] at hcond
    obtain ⟨⟨hflag, -⟩, hverify⟩ := hcond
    have hhonest : Honest (.init f) := fun hno => nomatch hno
    have hrun := hhonest.run (sized_init f) (loopEvents_small hsmall) hg
    rw [← httpOtaLoop_run hloop] at hrun
    have hv := hrun hflag
    simp only [otaVerifyDownload, Bool.and_eq_true, decide_eq_true_eq] at hverify
    obtain ⟨hhdr, hbody⟩ := hverify
    unfold imageBodyVerify at hbody
    split at hbody
    · contradiction
    · next t ht =>
      split_ifs at hbody with hcrc
      obtain ⟨htype, hver, hsize, hroom⟩ := hv.sizes ht
      rw [bodyCrc_eq] at hcrc
      exact ⟨hhdr, ⟨t, htype, ht, hcrc, hroom⟩, hver, hsize⟩

/-! ### Two downloads -/

/-- The header of an original image of the version, with an empty body. -/
def emptyImage (verMinor : UInt8) : Bytes := sealHeader (leBytes 4 1 ++ [0, verMinor] ++ List.replicate 246 0)

/-- A body of one sector with a newer image. -/
def newerBody : List (Bytes × Bool) := [(emptyImage 1 ++ List.replicate 1792 0, true), (List.replicate 2048 0, true)]

/-- One attempt that downloads a newer image. -/
theorem httpOtaEntry_newer :
    ∃ fl, httpOtaEntry (fun _ => 0) [⟨true, true, true, newerBody, .finished⟩] = some fl ∧ CommitSound fl := by
  have hsome : (httpOtaEntry (fun _ => 0) [⟨true, true, true, newerBody, .finished⟩]).isSome = true := by decide +kernel
  obtain ⟨fl, hfl⟩ := Option.isSome_iff_exists.mp hsome
  refine ⟨fl, hfl, httpOtaEntry_sound _ _ ?_ ?_ hfl⟩
  · decide +kernel
  · decide +kernel

/-- The newer image breaks off after its first sector; the second attempt gets an image that is
not newer, too short for a precheck. -/
theorem httpOtaEntry_unsound : ¬ ∀ (f : Flash) (attempts : List Attempt),
    (∀ a ∈ attempts, ∀ p ∈ a.pieces, p.1.length ≤ 2048) → ∀ fl, httpOtaEntry f attempts = some fl → CommitSound fl := by
  intro hall
  have hver : (httpOtaEntry (fun _ => 0) [⟨true, true, true, newerBody, .failed⟩,
      ⟨true, true, true, [(emptyImage 0, true)], .finished⟩]).map (fun fl =>
        ((imageHeaderFastRead fl appSpaceOffset).ver, (imageHeaderFastRead fl otaSpaceOffset).ver)) = some (0, 0) := by
    decide +kernel
  obtain ⟨fl, hfl, hpair⟩ := Option.map_eq_some_iff.mp hver
  have hlt := (hall _ _ (by decide +kernel) fl hfl).version
  simp only [Prod.mk.injEq] at hpair
  omega

end Ln882x.Ota
