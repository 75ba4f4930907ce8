import Ln882x.Ota.Upgrade

/-! Upgrades that fail. The agent erases APP before it looks at the type of the OTA
image and before it decodes anything, so an image that cannot be restored costs the
application. The application is kept exactly if what is restored verifies. -/

namespace Ln882x.Ota

open Nor

variable {f : Flash} {p : UpgPort} {app ota : PartitionInfo}

-- no proof below walks the table or decodes
attribute [local irreducible] lnFetchPartitionInfo verifyTotalImgPartition xzDecompressBufToBuf

/-! ### Statements -/

/-- If the agent returns without a jump, an application that verified still does. -/
def KeepsApp (p : UpgPort) (f : Flash) : Prop :=
  Verifies f partitionTypeApp → ∀ ret, (agentRun p f).1 = .returned ret → Verifies (agentRun p f).2.flash partitionTypeApp

/-- The partitions lie apart, an original image lies inside OTA, and what is restored and what is
verified afterwards lie inside APP. -/
structure Fitting (f : Flash) (app ota : PartitionInfo) : Prop where
  layout : Layout f app ota
  inside : (partitionHdr f partitionTypeOta).imageType = some .original →
    imageHdrSize + (partitionHdr f partitionTypeOta).imgSizeOrig ≤ ota.size
  restored : imageHdrSize + decodedSize f ≤ app.size
  verified : (partitionHdr f partitionTypeOta).imageType = some .originalXz →
    imageHdrSize + (partitionHdr f partitionTypeOta).imgSizeOrig ≤ app.size

/-- The OTA image is of type original, or it is compressed and the bytes that its stream is decoded
to, filled up with erased ones to the announced size, have the announced checksum. -/
def RestoresWell (f : Flash) : Prop :=
  (partitionHdr f partitionTypeOta).imageType = some .original ∨
  (partitionHdr f partitionTypeOta).imageType = some .originalXz ∧
    (lnCrc32SignleCal (((xzRestoredOta f).2.2.2 ++ blank (partitionHdr f partitionTypeOta).imgSizeOrig).take
      (partitionHdr f partitionTypeOta).imgSizeOrig)).toNat = (partitionHdr f partitionTypeOta).imgCrc32Orig

/-! ### After the run -/

/-- A jump needs an application that verifies, so only the last flash matters. -/
theorem keepsApp_iff : KeepsApp p f ↔ (Verifies f partitionTypeApp → Verifies (agentRun p f).2.flash partitionTypeApp) := by
  constructor
  · intro hkeep hv
    cases hexit : (agentRun p f).1 with
    | jumped addr ret => exact (agentRun_verified p f addr ret hexit).1
    | returned ret => exact hkeep hv ret hexit
  · intro hkeep hv _ _
    exact hkeep hv

theorem take_append_blank {xs : Bytes} {n k : ℕ} (h : n ≤ xs.length + k) : (xs ++ blank k).take n = (xs ++ blank n).take n := by
  rw [List.take_append, List.take_append, blank, blank, List.take_replicate, List.take_replicate, Nat.min_eq_left (by omega),
    Nat.min_eq_left (by omega)]

/-- What is restored verifies if its body has the checksum of the header. -/
theorem Rewritten.verifies_iff {hdr : ImageHdr} {ds : List Bytes} {a : Agent} (hr : Rewritten f hdr ds a)
    (hl : Layout f app ota) (hlen : hdr.length = imageHdrSize) (htype : hdr.imageType = some .original)
    (hhdr : imageHeaderVerify hdr = true) (hfit : imageHdrSize + ds.flatten.length ≤ app.size)
    (hfit' : imageHdrSize + hdr.imgSizeOrig ≤ app.size) :
    Verifies a.flash partitionTypeApp ↔
      (lnCrc32SignleCal ((ds.flatten ++ blank hdr.imgSizeOrig).take hdr.imgSizeOrig)).toNat = hdr.imgCrc32Orig := by
  have hread := readBytes_restoreOps hl hlen hr.nonempty hfit
  have hout := sameOutside_applyAll (restoreOps_inApp hl hlen hr.nonempty hfit) f
  rw [← hr.flash] at hread hout
  rw [(hl.congr hout).verifies_app hread hlen htype hhdr hfit', take_append_blank (by omega)]

section Fitting
variable (h : Fitting f app ota)

include h

/-- The compressed image. -/
theorem Rewritten.verifies_xz {ds : List Bytes} {a : Agent} (hr : Rewritten f (partitionHdr f partitionTypeOta).asOriginal ds a)
    (ht : (partitionHdr f partitionTypeOta).imageType = some .originalXz) (hbody : ds.flatten = (xzRestoredOta f).2.2.2) :
    Verifies a.flash partitionTypeApp ↔ RestoresWell f := by
  have hlen := length_partitionHdr f partitionTypeOta
  have hsize : decodedSize f = (xzRestoredOta f).2.2.2.length := by rw [decodedSize, ht]
  have hfit := h.restored
  rw [hsize, ← hbody] at hfit
  rw [hr.verifies_iff h.layout (length_asOriginal hlen) (imageType_asOriginal _) (imageHeaderVerify_asOriginal hlen) hfit
    (by rw [imgSizeOrig_asOriginal hlen]; exact h.verified ht), imgSizeOrig_asOriginal hlen, imgCrc32Orig_asOriginal hlen, hbody,
    RestoresWell, ht]
  simp

/-- An original image is copied as it was verified. -/
theorem Rewritten.verifies_original {ds : List Bytes} {a : Agent} (hr : Rewritten f (partitionHdr f partitionTypeOta) ds a)
    (ht : (partitionHdr f partitionTypeOta).imageType = some .original) (hota : Verifies f partitionTypeOta)
    (hbody : ds.flatten = flashRead (preparedFlash f (partitionHdr f partitionTypeOta)) ota.bodyOffset
      (partitionHdr f partitionTypeOta).imgSizeOrig) : Verifies a.flash partitionTypeApp := by
  have hl := h.layout
  have hlen := length_partitionHdr f partitionTypeOta
  have hsize : decodedSize f = (partitionHdr f partitionTypeOta).imgSizeOrig := by rw [decodedSize, ht]
  have hfit := h.restored
  rw [hsize] at hfit
  have hflat : ds.flatten.length = (partitionHdr f partitionTypeOta).imgSizeOrig := by rw [hbody, length_flashRead]
  obtain ⟨-, hhdr, hcrc⟩ := (Ota.verifies_iff (.inr rfl)).mp hota
  have hout := hl.preparedFlash_sameOutside hlen (by omega)
  have hread : ds.flatten = flashRead f (ota.startAddr + imageHdrSize) (partitionHdr f partitionTypeOta).imgSizeOrig := by
    rw [hbody, ← flashRead_mod f]
    apply flashRead_congr
    intro i hi
    exact hout _ (hl.ota_outside (h.inside ht) hi)
  rw [imageBodyVerify_none ht, hl.partitionInfo_ota, ImageHdr.bodySize, ← hread] at hcrc
  rw [hr.verifies_iff hl hlen ht hhdr (by rw [hflat]; exact hfit) hfit, List.take_left' hflat, hcrc]
  rfl

theorem Restored.verifies_iff (hota : Verifies f partitionTypeOta) {r : Exit × Agent} (hr : Restored p f r) :
    Verifies r.2.flash partitionTypeApp ↔ RestoresWell f := by
  have hl := h.layout
  have hfit := h.restored
  cases hr with
  | @unsupported e a ht htx hf ha hx =>
    apply iff_of_false
    · rw [hl.partitionInfo_app] at hf
      have hin : ∀ o ∈ [Op.erase app.startAddr app.size], InApp app o := by
        intro o ho
        rw [List.mem_singleton.mp ho]
        exact ⟨Nat.le_refl _, Nat.le_refl _⟩
      have hout : SameOutside app a.flash f := by
        rw [hf]
        exact sameOutside_applyAll hin f
      apply (hl.congr hout).not_verifies_blank
      · rw [hf]
        exact readBytes_erase f app.startAddr app.size
      · omega
    · rintro (ht' | ⟨ht', -⟩)
      · exact ht ht'
      · exact htx ht'
  | original ht hr hlen hbody hx =>
    have hsize : decodedSize f = (partitionHdr f partitionTypeOta).imgSizeOrig := by rw [decodedSize, ht]
    rw [hsize] at hfit
    rw [hl.partitionInfo_app, hl.partitionInfo_ota] at hbody
    rw [finishRestore_flash]
    apply iff_of_true
    · exact hr.verifies_original h ht hota (hbody (hl.bodyOffset_add_le hfit) (hl.readsOutside (h.inside ht) hfit))
    · exact .inl ht
  | broken ht he hr hbody hx => exact hr.verifies_xz h ht hbody
  | decoded ht he hr hbody hx =>
    rw [finishRestore_flash]
    exact hr.verifies_xz h ht hbody

end Fitting

/-! ### Every run -/

end Ln882x.Ota
