import Ln882x.Ota.Restart

/-! Upgrades that get through. A downloaded image that fits is restored by the first
run of the agent that is not cut, whatever the cut runs before it left in APP: an
unfinished image does not verify and is restored anew, and a finished one is
recognised by its version, size and checksum. -/

namespace Ln882x.Ota

open Nor

variable {f g : Flash} {p : UpgPort} {app ota : PartitionInfo}

-- no proof below walks the table or decodes
attribute [local irreducible] lnFetchPartitionInfo verifyTotalImgPartition xzDecompressBufToBuf

/-! ### The payload -/

/-- A body inside its partition is decoded to the same bytes, wherever else the flashes differ. -/
theorem xzPayload_congr {otaOffset xzSize : ℕ} (hge : xzHeaderSize ≤ xzSize) (hsize : xzSize - xzHeaderSize < 2 ^ 31)
    (h : ∀ i < xzSize, g ((otaOffset + i) % 2 ^ 32) = f ((otaOffset + i) % 2 ^ 32)) :
    (xzPayload g otaOffset xzSize).1 = (xzPayload f otaOffset xzSize).1 ∧
      (xzPayload g otaOffset xzSize).2.2 = (xzPayload f otaOffset xzSize).2.2 := by
  have hread : ∀ t u : Bytes, t = u → True → Agree (fun s => xzHeaderSize ≤ s.alreadyRead ∧ s.alreadyRead ≤ xzSize)
      (decompressReadCb g otaOffset xzSize) (decompressReadCb f otaOffset xzSize) :=
    fun _ _ _ _ => decompressReadCb_agree hsize h
  have hwrite : ∀ block t u : Bytes, block ≠ [] → t = u → True → t ++ block = u ++ block := by
    rintro block t u - rfl -
    rfl
  have hheader : flashRead g otaOffset xzHeaderSize = flashRead f otaOffset xzHeaderSize := by
    apply flashRead_congr
    intro i hi
    exact h i (by omega)
  obtain ⟨herr, -, -, hout⟩ := xzDecompressBufToBuf_sim hread hwrite (fun _ _ _ => trivial)
    (flashRead f otaOffset xzHeaderSize) (s := ⟨xzHeaderSize, []⟩) (t := []) (u := []) ⟨Nat.le_refl _, hge⟩ rfl trivial
  unfold xzPayload
  rw [hheader]
  exact ⟨herr, hout⟩

/-- The body of the application that the OTA image holds. -/
def otaPayload (f : Flash) : Bytes :=
  match (partitionHdr f partitionTypeOta).imageType with
  | some .originalXz =>
    (xzPayload f (partitionInfo f partitionTypeOta).bodyOffset (partitionHdr f partitionTypeOta).imgSizeOrigXz).2.2
  | _ => flashRead f (partitionInfo f partitionTypeOta).bodyOffset (partitionHdr f partitionTypeOta).imgSizeOrig

/-- The compressed body has the length of a stream, and is decoded to the announced size and checksum. -/
structure Decodes (f : Flash) : Prop where
  ge : xzHeaderSize ≤ (partitionHdr f partitionTypeOta).imgSizeOrigXz
  lt : (partitionHdr f partitionTypeOta).imgSizeOrigXz - xzHeaderSize < 2 ^ 31
  ok : (xzPayload f (partitionInfo f partitionTypeOta).bodyOffset (partitionHdr f partitionTypeOta).imgSizeOrigXz).1 = none
  size : (otaPayload f).length = (partitionHdr f partitionTypeOta).imgSizeOrig
  crc : (lnCrc32SignleCal (otaPayload f)).toNat = (partitionHdr f partitionTypeOta).imgCrc32Orig

/-- A device with an upgrade in OTA. -/
structure Pending (f : Flash) (app ota : PartitionInfo) : Prop where
  layout : Layout f app ota
  verifies : Verifies f partitionTypeOta
  inside : ∀ t, (partitionHdr f partitionTypeOta).imageType = some t →
    imageHdrSize + (partitionHdr f partitionTypeOta).bodySize t ≤ ota.size
  type : (partitionHdr f partitionTypeOta).imageType = some .original ∨
    (partitionHdr f partitionTypeOta).imageType = some .originalXz ∧ Decodes f
  fits : imageHdrSize + (partitionHdr f partitionTypeOta).imgSizeOrig ≤ app.size
  older : Verifies f partitionTypeApp → (partitionHdr f partitionTypeApp).ver < (partitionHdr f partitionTypeOta).ver
  /-- No unfinished body has the checksum of the whole one. -/
  distinct : ∀ m, (otaPayload f).take m ++ blank ((otaPayload f).length - m) ≠ otaPayload f →
    lnCrc32SignleCal ((otaPayload f).take m ++ blank ((otaPayload f).length - m)) ≠ lnCrc32SignleCal (otaPayload f)

namespace Pending

theorem hdr_le (h : Pending f app ota) : imageHdrSize ≤ ota.size := by
  rcases h.type with ht | ⟨ht, -⟩
  · have := h.inside _ ht
    omega
  · have := h.inside _ ht
    omega

theorem payload (h : Pending f app ota) :
    (otaPayload f).length = (partitionHdr f partitionTypeOta).imgSizeOrig ∧
      (lnCrc32SignleCal (otaPayload f)).toNat = (partitionHdr f partitionTypeOta).imgCrc32Orig := by
  rcases h.type with ht | ⟨-, hd⟩
  · obtain ⟨-, -, hbody⟩ := (verifies_iff (.inr rfl)).mp h.verifies
    rw [imageBodyVerify_none ht, ← flashRead_mod] at hbody
    rw [otaPayload, ht]
    exact ⟨length_flashRead _ _ _, hbody⟩
  · exact ⟨hd.size, hd.crc⟩

/-- What the restored header says. -/
theorem restoredHdr (h : Pending f app ota) :
    (restoredHdr f).imageType = some .original ∧ imageHeaderVerify (restoredHdr f) = true ∧
      (restoredHdr f).imgSizeOrig = (otaPayload f).length ∧
      (restoredHdr f).imgCrc32Orig = (lnCrc32SignleCal (otaPayload f)).toNat := by
  have hlen := length_partitionHdr f partitionTypeOta
  obtain ⟨hsize, hcrc⟩ := h.payload
  rw [hsize, hcrc]
  rcases h.type with ht | ⟨ht, -⟩
  · have heq : Ota.restoredHdr f = partitionHdr f partitionTypeOta := by rw [Ota.restoredHdr, ht]
    rw [heq]
    exact ⟨ht, ((verifies_iff (.inr rfl)).mp h.verifies).2.1, rfl, rfl⟩
  · have heq : Ota.restoredHdr f = (partitionHdr f partitionTypeOta).asOriginal := by rw [Ota.restoredHdr, ht]
    rw [heq]
    exact ⟨imageType_asOriginal _, imageHeaderVerify_asOriginal hlen, imgSizeOrig_asOriginal hlen, imgCrc32Orig_asOriginal hlen⟩

/-- A change of APP does not touch the upgrade. -/
theorem verifies_ota (h : Pending f app ota) (hs : SameOutside app g f) : Verifies g partitionTypeOta := by
  have hl := h.layout
  obtain ⟨t, ht⟩ : ∃ t, (partitionHdr f partitionTypeOta).imageType = some t :=
    Option.ne_none_iff_exists'.mp (h.verifies.imageType_ne (.inr rfl))
  obtain ⟨-, hhdr, hbody⟩ := (verifies_iff (.inr rfl)).mp h.verifies
  rw [imageBodyVerify_none ht, hl.partitionInfo_ota, ← hl.flashRead_ota hs (h.inside t ht)] at hbody
  rw [verifies_iff (.inr rfl), hl.partitionHdr_ota hs h.hdr_le, imageBodyVerify_none ht, (hl.congr hs).fetchOta,
    (hl.congr hs).partitionInfo_ota]
  exact ⟨rfl, hhdr, hbody⟩

end Pending

/-! ### The finished image -/

/-- The restored image is in APP. -/
def Installed (f : Flash) (app : PartitionInfo) (g : Flash) : Prop :=
  readBytes g app.startAddr app.size =
    restoredHdr f ++ (otaPayload f ++ blank (app.size - imageHdrSize - (otaPayload f).length))

section Upgrade
variable (h : Pending f app ota) (hs : SameOutside app g f)

include h hs

theorem Installed.verifies (hfin : Installed f app g) :
    Verifies g partitionTypeApp ∧ partitionHdr g partitionTypeApp = restoredHdr f := by
  have hg := h.layout.congr hs
  have hlen := length_restoredHdr f
  obtain ⟨htype, hhdr, hsize, hcrc⟩ := h.restoredHdr
  have hfits : imageHdrSize + (restoredHdr f).imgSizeOrig ≤ app.size := by
    rw [hsize, h.payload.1]
    exact h.fits
  refine ⟨?_, hg.partitionHdr_app hfin hlen⟩
  rw [hg.verifies_app hfin hlen htype hhdr hfits, hsize, List.take_left, hcrc]

/-- An unfinished image does not verify. -/
theorem installed_or_not_verifies {m : ℕ} (hm : m ≤ (otaPayload f).length)
    (hread : readBytes g app.startAddr app.size = restoredHdr f ++ ((otaPayload f).take m ++ blank (app.size - imageHdrSize - m))) :
    Installed f app g ∨ ¬Verifies g partitionTypeApp := by
  have hg := h.layout.congr hs
  have hlen := length_restoredHdr f
  have hfits := h.fits
  obtain ⟨htype, hhdr, hsize, hcrc⟩ := h.restoredHdr
  rw [← h.payload.1] at hfits
  have hsplit : blank (app.size - imageHdrSize - m) =
      blank ((otaPayload f).length - m) ++ blank (app.size - imageHdrSize - (otaPayload f).length) := by
    have hadd : (otaPayload f).length - m + (app.size - imageHdrSize - (otaPayload f).length) = app.size - imageHdrSize - m := by
      omega
    rw [← blank_add, hadd]
  rw [hsplit, ← List.append_assoc ((otaPayload f).take m)] at hread
  by_cases heq : (otaPayload f).take m ++ blank ((otaPayload f).length - m) = otaPayload f
  · left
    rw [heq] at hread
    exact hread
  · right
    have htake : ((otaPayload f).take m ++ blank ((otaPayload f).length - m)).length = (otaPayload f).length := by
      rw [List.length_append, List.length_take, length_blank]
      omega
    rw [hg.verifies_app hread hlen htype hhdr (by rw [hsize]; exact hfits), hsize, List.take_left' htake, hcrc]
    intro hcrc'
    exact h.distinct m heq (UInt32.toNat_inj.mp hcrc')

end Upgrade

/-! ### A run that restores -/

namespace Layout

theorem bodyOffset_add_le (hl : Layout f app ota) {n : ℕ} (hfit : imageHdrSize + n ≤ app.size) : app.bodyOffset + n ≤ 2 ^ 32 := by
  by_cases hn : n = 0
  · have hlt : app.bodyOffset < 2 ^ 32 := Nat.mod_lt _ (by decide)
    omega
  · have hend := hl.appEnd
    rw [hl.bodyOffset_app (by omega)]
    omega

/-- The bytes of the OTA image lie outside APP. -/
theorem ota_outside (hl : Layout f app ota) {len i : ℕ} (hin : imageHdrSize + len ≤ ota.size) (hi : i < len) :
    (ota.bodyOffset + i) % 2 ^ 32 < app.startAddr ∨ app.startAddr + app.size ≤ (ota.bodyOffset + i) % 2 ^ 32 := by
  have hend := hl.otaEnd
  have hapart := hl.apart
  rw [PartitionInfo.bodyOffset, Nat.mod_add_mod, Nat.mod_eq_of_lt (by omega)]
  omega

theorem readsOutside (hl : Layout f app ota) {len n : ℕ} (hin : imageHdrSize + len ≤ ota.size) (hfit : imageHdrSize + n ≤ app.size) :
    ReadsOutside ota.bodyOffset len app.bodyOffset n := by
  intro i hi
  have hout := hl.ota_outside hin hi
  by_cases hn : n = 0
  · omega
  · rw [hl.bodyOffset_app (by omega)]
    omega

theorem preparedFlash_sameOutside (hl : Layout f app ota) {hdr : ImageHdr} (hlen : hdr.length = imageHdrSize)
    (hsize : imageHdrSize ≤ app.size) : SameOutside app (preparedFlash f hdr) f := by
  have hne : ∀ d ∈ ([] : List Bytes), d ≠ [] := fun _ hd => absurd hd List.not_mem_nil
  exact sameOutside_applyAll (restoreOps_inApp hl hlen hne hsize) f

end Layout

/-- The compressed image is decoded to its payload. -/
theorem Pending.xzRestoredOta (h : Pending f app ota) (ht : (partitionHdr f partitionTypeOta).imageType = some .originalXz) :
    (xzRestoredOta f).1 = none ∧ (xzRestoredOta f).2.2.2 = otaPayload f := by
  have hl := h.layout
  have hfits := h.fits
  have hd : Decodes f := by
    rcases h.type with ht' | ⟨-, hd⟩
    · rw [ht] at ht'
      exact nomatch ht'
    · exact hd
  have hin := h.inside _ ht
  rw [ImageHdr.bodySize] at hin
  have hpay : otaPayload f = (xzPayload f ota.bodyOffset (partitionHdr f partitionTypeOta).imgSizeOrigXz).2.2 := by
    rw [otaPayload, ht, hl.partitionInfo_ota]
  have hout := hl.preparedFlash_sameOutside (length_asOriginal (length_partitionHdr f partitionTypeOta)) (by omega)
  have hok := hd.ok
  have hsize := hd.size
  rw [hl.partitionInfo_ota] at hok
  rw [Ota.xzRestoredOta, hl.partitionInfo_app, hl.partitionInfo_ota]
  generalize preparedFlash f (partitionHdr f partitionTypeOta).asOriginal = k at hout
  obtain ⟨herr, hbytes⟩ := xzPayload_congr hd.ge hd.lt (fun i hi => hout _ (hl.ota_outside hin hi))
  rw [hok] at herr
  rw [← hpay] at hbytes
  rw [← hsize, ← hbytes] at hfits
  obtain ⟨herr', hbytes'⟩ := xzRestored_eq hd.ge hd.lt (hl.bodyOffset_add_le hfits) (hl.readsOutside hin hfits)
  exact ⟨herr'.trans herr, hbytes'.trans hbytes⟩

section Upgrade
variable (h : Pending f app ota) (hs : SameOutside app g f)

include h hs

/-- The calls of a restore put the image into APP. -/
theorem installed_restoreOps {ds : List Bytes} (hne : ∀ d ∈ ds, d ≠ []) (hflat : ds.flatten = otaPayload f) :
    SameOutside app (applyAll (restoreOps g (restoredHdr f) ds) g) f ∧
      Installed f app (applyAll (restoreOps g (restoredHdr f) ds) g) := by
  have hg := h.layout.congr hs
  have hlen := length_restoredHdr f
  have hfit : imageHdrSize + ds.flatten.length ≤ app.size := by
    rw [hflat, h.payload.1]
    exact h.fits
  have hread := readBytes_restoreOps hg hlen hne hfit
  rw [hflat] at hread
  exact ⟨(sameOutside_applyAll (restoreOps_inApp hg hlen hne hfit) g).trans hs, hread⟩

/-- The pieces of a restore are those of the payload. -/
theorem Restored.payload {r : Exit × Agent} (hr : Restored p g r) : ∃ ds a, Rewritten g (restoredHdr f) ds a ∧
    ds.flatten = otaPayload f ∧ r = finishRestore p a := by
  have hl := h.layout
  have hg := hl.congr hs
  have hhdr := hl.partitionHdr_ota hs h.hdr_le
  cases hr with
  | unsupported e ht htx hf ha hx =>
    rw [hhdr] at ht htx
    rcases h.type with ht' | ⟨ht', -⟩
    · exact absurd ht' ht
    · exact absurd ht' htx
  | @original ds a ht hr hlen hbody hx =>
    rw [hhdr] at ht hr hbody
    rw [hg.partitionInfo_app, hg.partitionInfo_ota] at hbody
    have hrestored : restoredHdr f = partitionHdr f partitionTypeOta := by rw [restoredHdr, ht]
    have hpay : otaPayload f = flashRead f ota.bodyOffset (partitionHdr f partitionTypeOta).imgSizeOrig := by
      rw [otaPayload, ht, hl.partitionInfo_ota]
    have hin := h.inside _ ht
    rw [ImageHdr.bodySize] at hin
    have hout := (hg.preparedFlash_sameOutside (length_partitionHdr f partitionTypeOta) (by have := h.fits; omega)).trans hs
    refine ⟨ds, a, ?_, ?_, rfl⟩
    · rw [hrestored]
      exact hr
    · rw [hbody (hg.bodyOffset_add_le h.fits) (hg.readsOutside hin h.fits), hpay]
      apply flashRead_congr
      intro i hi
      exact hout _ (hl.ota_outside hin hi)
  | broken ht he hr hbody hx =>
    rw [hhdr] at ht
    rw [xzRestoredOta_congr hl hs h.hdr_le, (h.xzRestoredOta ht).1] at he
    cases he
  | @decoded ds a ht he hr hbody hx =>
    rw [hhdr] at ht hr
    rw [xzRestoredOta_congr hl hs h.hdr_le, (h.xzRestoredOta ht).2] at hbody
    have hrestored : restoredHdr f = (partitionHdr f partitionTypeOta).asOriginal := by rw [restoredHdr, ht]
    refine ⟨ds, a, ?_, hbody, rfl⟩
    rw [hrestored]
    exact hr

/-- A run that restores puts the image into APP, records that and starts it. -/
theorem agentRun_upgrades (hr : Restores p g) (hset : p.setOk = true) : ∃ ds, (∀ d ∈ ds, d ≠ []) ∧ ds.flatten = otaPayload f ∧
    (agentRun p g).1 = .jumped app.bodyOffset none ∧
    (agentRun p g).2.acts = (restoreOps g (restoredHdr f) ds).map .flash ++ [.upgState upgStateRestoreOk] := by
  obtain ⟨ds, a, hr, hflat, heq⟩ := (agentRun_restored hr).payload h hs
  obtain ⟨hout, hfin⟩ := installed_restoreOps h hs hr.nonempty hflat
  rw [← hr.flash] at hout hfin
  obtain ⟨hjump, hacts⟩ := finishRestore_started (hfin.verifies h hout).1 hset
  rw [(h.layout.congr hout).partitionInfo_app] at hjump
  rw [hr.acts] at hacts
  rw [heq]
  exact ⟨ds, hr.nonempty, hflat, hjump, hacts⟩

end Upgrade

/-! ### A run that finds the image restored -/

/-- The image of OTA is in APP already: this is recorded, and it is started. -/
theorem agentRun_recognises (hget : p.get = some upgStateDownloadOk) (hset : p.setOk = true) (happ : Verifies f partitionTypeApp)
    (hota : Verifies f partitionTypeOta) (hver : (partitionHdr f partitionTypeApp).ver = (partitionHdr f partitionTypeOta).ver)
    (hsize : (partitionHdr f partitionTypeApp).imgSizeOrig = (partitionHdr f partitionTypeOta).imgSizeOrig)
    (hcrc : (partitionHdr f partitionTypeApp).imgCrc32Orig = (partitionHdr f partitionTypeOta).imgCrc32Orig) :
    (agentRun p f).1 = .jumped (partitionInfo f partitionTypeApp).bodyOffset none ∧
      (agentRun p f).2.acts = [.upgState upgStateRestoreOk] := by
  have hnone : (Agent.checked f).verifyOta.1 = none := (verifyOta_none (.checked f)).mpr hota
  rw [agentRun_downloadOk hget, if_pos happ]
  unfold upgradeApp
  dsimp only
  rw [hnone, checked_verifyOta hota, checked_appHeader happ]
  have hver' : (Agent.restoring f (partitionHdr f partitionTypeApp)).otaHeader.ver =
      (Agent.restoring f (partitionHdr f partitionTypeApp)).appHeader.ver := hver.symm
  dsimp only
  rw [if_neg hver'.le.not_gt, if_pos hver', if_pos ⟨hsize, hcrc⟩, if_pos hset]
  exact ⟨rfl, rfl⟩

/-- In any other state the application is just started. -/
theorem agentRun_starts (hget : p.get ≠ some upgStateDownloadOk) (happ : Verifies f partitionTypeApp) :
    (agentRun p f).1 = .jumped (partitionInfo f partitionTypeApp).bodyOffset none ∧ (agentRun p f).2.acts = [] := by
  have hnone : (Agent.boot f).verifyApp.1 = none := (verifyApp_none (.boot f)).mpr happ
  rw [agentRun_other hget]
  unfold bootApp
  dsimp only
  rw [hnone, Agent.appBodyOffset, verifyApp_info, verifyApp_acts]
  exact ⟨rfl, rfl⟩

/-! ### Devices -/

/-- The state after an action. -/
def Act.state (w : ℕ) : Act → ℕ
  | .flash _ => w
  | .upgState w' => w'

/-- The flash and the upgrade state, which outlast a reset. -/
structure Device where
  flash : Flash
  upgState : ℕ

namespace Device

/-- A run of the agent that can read and write the state. -/
def run (d : Device) : Exit × Agent := agentRun ⟨some d.upgState, true⟩ d.flash

/-- The device after the first actions of a run. -/
def after (d : Device) (acts : List Act) : Device := ⟨applyAll (driverCalls acts) d.flash, acts.foldl Act.state d.upgState⟩

/-- The power is lost after `k` actions. -/
def cut (d : Device) (k : ℕ) : Device := d.after (d.run.2.acts.take k)

/-- The run is finished. -/
def finish (d : Device) : Device := d.after d.run.2.acts

end Device

theorem Device.after_append (d : Device) (xs ys : List Act) : d.after (xs ++ ys) = (d.after xs).after ys := by
  rw [after, after, after, driverCalls_append, applyAll_append, List.foldl_append]

theorem Device.after_map (d : Device) (ops : List Op) : d.after (ops.map .flash) = ⟨applyAll ops d.flash, d.upgState⟩ := by
  have hstate : (ops.map Act.flash).foldl Act.state d.upgState = d.upgState := by
    induction ops with
    | nil => rfl
    | cons o ops ih => exact ih
  rw [after, driverCalls_map, hstate]

theorem Device.after_upgState (d : Device) (w : ℕ) : d.after [.upgState w] = ⟨d.flash, w⟩ := rfl

/-- The device while an upgrade is under way. -/
inductive Underway (f : Flash) (app : PartitionInfo) : Device → Prop
  | pending {g : Flash} (hs : SameOutside app g f)
      (hold : Verifies g partitionTypeApp → (partitionHdr g partitionTypeApp).ver < (partitionHdr f partitionTypeOta).ver) :
      Underway f app ⟨g, upgStateDownloadOk⟩
  | finished {g : Flash} {w : ℕ} (hs : SameOutside app g f) (hfin : Installed f app g)
      (hw : w = upgStateDownloadOk ∨ w = upgStateRestoreOk) : Underway f app ⟨g, w⟩

theorem Underway.sameOutside {d : Device} (h : Underway f app d) : SameOutside app d.flash f := by
  cases h with
  | pending hs hold => exact hs
  | finished hs hfin hw => exact hs

section Upgrade
variable (h : Pending f app ota)

include h

/-- A run with the image in APP. -/
theorem Installed.run (hs : SameOutside app g f) (hfin : Installed f app g) {w : ℕ} (hw : w = upgStateDownloadOk ∨ w = upgStateRestoreOk) :
    (Device.run ⟨g, w⟩).1 = .jumped app.bodyOffset none ∧
      (w = upgStateDownloadOk ∧ (Device.run ⟨g, w⟩).2.acts = [.upgState upgStateRestoreOk] ∨
        w = upgStateRestoreOk ∧ (Device.run ⟨g, w⟩).2.acts = []) := by
  have hl := h.layout
  have hg := hl.congr hs
  obtain ⟨happ, hhdr⟩ := hfin.verifies h hs
  have hotahdr := hl.partitionHdr_ota hs h.hdr_le
  obtain ⟨-, -, hsize, hcrc⟩ := h.restoredHdr
  rcases hw with rfl | rfl
  · obtain ⟨hjump, hacts⟩ := agentRun_recognises (p := ⟨some upgStateDownloadOk, true⟩) rfl rfl happ (h.verifies_ota hs)
      (by rw [hhdr, hotahdr, ver_restoredHdr]) (by rw [hhdr, hotahdr, hsize, h.payload.1])
      (by rw [hhdr, hotahdr, hcrc, h.payload.2])
    rw [hg.partitionInfo_app] at hjump
    exact ⟨hjump, .inl ⟨rfl, hacts⟩⟩
  · obtain ⟨hjump, hacts⟩ := agentRun_starts (p := ⟨some upgStateRestoreOk, true⟩) (by decide) happ
    rw [hg.partitionInfo_app] at hjump
    exact ⟨hjump, .inr ⟨rfl, hacts⟩⟩

theorem restores_pending (hs : SameOutside app g f)
    (hold : Verifies g partitionTypeApp → (partitionHdr g partitionTypeApp).ver < (partitionHdr f partitionTypeOta).ver) :
    Restores ⟨some upgStateDownloadOk, true⟩ g := by
  refine ⟨rfl, h.verifies_ota hs, ?_⟩
  rw [h.layout.partitionHdr_ota hs h.hdr_le]
  exact hold

/-- A restore that was cut. -/
theorem underway_restoreOps (hs : SameOutside app g f)
    (hold : Verifies g partitionTypeApp → (partitionHdr g partitionTypeApp).ver < (partitionHdr f partitionTypeOta).ver)
    {ds : List Bytes} (hne : ∀ d ∈ ds, d ≠ []) (hflat : ds.flatten = otaPayload f) (k : ℕ) :
    Underway f app ⟨applyAll ((restoreOps g (restoredHdr f) ds).take k) g, upgStateDownloadOk⟩ := by
  have hg := h.layout.congr hs
  have hlen := length_restoredHdr f
  have hfits := h.fits
  rw [← h.payload.1, ← hflat] at hfits
  have hout : SameOutside app (applyAll ((restoreOps g (restoredHdr f) ds).take k) g) f := by
    have hin := restoreOps_inApp hg hlen hne hfits
    exact (sameOutside_applyAll (fun o ho => hin o (List.mem_of_mem_take ho)) g).trans hs
  match k with
  | 0 => exact .pending hs hold
  | 1 =>
    have hblank : readBytes (applyAll ((restoreOps g (restoredHdr f) ds).take 1) g) app.startAddr app.size = blank app.size := by
      rw [restoreOps, hg.partitionInfo_app]
      exact readBytes_erase g app.startAddr app.size
    apply Underway.pending hout
    intro hv
    exact absurd hv ((h.layout.congr hout).not_verifies_blank hblank (by omega))
  | k + 2 =>
    -- the pieces written so far are a part of the payload
    have hsplit : (ds.take k).flatten ++ (ds.drop k).flatten = otaPayload f := by
      rw [← List.flatten_append, List.take_append_drop, hflat]
    have hle : (ds.take k).flatten.length ≤ (otaPayload f).length := by
      rw [← hsplit, List.length_append]
      exact Nat.le_add_right _ _
    have htake : (otaPayload f).take (ds.take k).flatten.length = (ds.take k).flatten := by
      rw [← hsplit, List.take_left]
    rw [hflat] at hfits
    have hne' : ∀ d ∈ ds.take k, d ≠ [] := fun d hd => hne d (List.mem_of_mem_take hd)
    have hread := readBytes_restoreOps hg hlen hne' (by omega)
    rw [← take_restoreOps, ← htake] at hread
    rw [List.length_take, Nat.min_eq_left hle] at hread
    rcases installed_or_not_verifies h hout hle hread with hfin | hno
    · exact .finished hout hfin (.inl rfl)
    · exact .pending hout fun hv => absurd hv hno

/-- A run of the agent that is cut. -/
theorem Underway.cut {d : Device} (hd : Underway f app d) (k : ℕ) : Underway f app (d.cut k) := by
  unfold Device.cut
  cases hd with
  | @pending g hs hold =>
    obtain ⟨ds, hne, hflat, -, hacts⟩ := agentRun_upgrades h hs (restores_pending h hs hold) rfl
    rw [Device.run, hacts, List.take_append, ← List.map_take, Device.after_append, Device.after_map]
    cases hk : k - ((restoreOps g (restoredHdr f) ds).map Act.flash).length with
    | zero => exact underway_restoreOps h hs hold hne hflat k
    | succ n =>
      rw [List.length_map] at hk
      obtain ⟨hout, hfin⟩ := installed_restoreOps h hs hne hflat
      rw [List.take_of_length_le (by omega), List.take_succ_cons, List.take_nil, Device.after_upgState]
      dsimp only
      exact .finished hout hfin (.inr rfl)
  | @finished g w hs hfin hw =>
    obtain ⟨-, ⟨-, hacts⟩ | ⟨-, hacts⟩⟩ := hfin.run h hs hw
    · rw [hacts]
      cases k with
      | zero => exact .finished hs hfin hw
      | succ k =>
        rw [List.take_succ_cons, List.take_nil, Device.after_upgState]
        exact .finished hs hfin (.inr rfl)
    · rw [hacts, List.take_nil]
      exact .finished hs hfin hw

/-- A run of the agent that is not. -/
theorem Underway.finish {d : Device} (hd : Underway f app d) :
    d.run.1 = .jumped app.bodyOffset none ∧ SameOutside app d.finish.flash f ∧ Installed f app d.finish.flash ∧
      d.finish.upgState = upgStateRestoreOk := by
  unfold Device.finish
  cases hd with
  | pending hs hold =>
    obtain ⟨ds, hne, hflat, hjump, hacts⟩ := agentRun_upgrades h hs (restores_pending h hs hold) rfl
    obtain ⟨hout, hfin⟩ := installed_restoreOps h hs hne hflat
    refine ⟨hjump, ?_⟩
    rw [Device.run, hacts, Device.after_append, Device.after_map, Device.after_upgState]
    dsimp only
    exact ⟨hout, hfin, rfl⟩
  | finished hs hfin hw =>
    obtain ⟨hjump, ⟨-, hacts⟩ | ⟨rfl, hacts⟩⟩ := hfin.run h hs hw
    · rw [hacts]
      exact ⟨hjump, hs, hfin, rfl⟩
    · rw [hacts]
      exact ⟨hjump, hs, hfin, rfl⟩

/-- Any number of runs that are cut. -/
theorem Underway.cuts {d : Device} (hd : Underway f app d) (ks : List ℕ) : Underway f app (ks.foldl Device.cut d) := by
  induction ks generalizing d with
  | nil => exact hd
  | cons k ks ih => exact ih (hd.cut h k)

end Upgrade

/-! ### Convergence -/

/-- The upgrade is done: OTA is as it was, the agent starts the new application, and APP holds its
header and its body. -/
structure Converged (f : Flash) (app ota : PartitionInfo) (d : Device) : Prop where
  ota_eq : readBytes d.flash ota.startAddr ota.size = readBytes f ota.startAddr ota.size
  ota_finish : readBytes d.finish.flash ota.startAddr ota.size = readBytes f ota.startAddr ota.size
  jumped : d.run.1 = .jumped app.bodyOffset none
  image : readBytes d.finish.flash app.startAddr (imageHdrSize + (otaPayload f).length) = restoredHdr f ++ otaPayload f
  state : d.finish.upgState = upgStateRestoreOk

/-- However often the runs before are cut, the next run of the agent finishes the upgrade. -/
theorem cuts_converge (h : Pending f app ota) (ks : List ℕ) :
    Converged f app ota (ks.foldl Device.cut ⟨f, upgStateDownloadOk⟩) := by
  have hd : Underway f app (ks.foldl Device.cut ⟨f, upgStateDownloadOk⟩) :=
    Underway.cuts h (.pending (.refl app f) h.older) ks
  have hota {g : Flash} (hs : SameOutside app g f) :
      readBytes g ota.startAddr ota.size = readBytes f ota.startAddr ota.size := by
    apply readBytes_congr
    intro x h0 h1
    have hapart := h.layout.apart
    exact hs x (by omega)
  generalize ks.foldl Device.cut ⟨f, upgStateDownloadOk⟩ = d at hd
  obtain ⟨hjump, hout, hfin, hstate⟩ := hd.finish h
  have hlen : (restoredHdr f ++ otaPayload f).length = imageHdrSize + (otaPayload f).length := by
    rw [List.length_append, length_restoredHdr]
  constructor
  · exact hota hd.sameOutside
  · exact hota hout
  · exact hjump
  · rw [Installed, ← List.append_assoc] at hfin
    exact readBytes_head hfin hlen
  · exact hstate

/-- An image that fills APP, after cuts behind the erasure, in front of the body and in front of the
change of the state. -/
theorem sampleDevice_converges :
    Converged (sampleDevice (blankHdr .original 0 0) (blankHdr .original 1 3840)) sampleApp sampleOta
      ([1, 2, 3].foldl Device.cut ⟨sampleDevice (blankHdr .original 0 0) (blankHdr .original 1 3840), upgStateDownloadOk⟩) := by
  have hl := layout_sampleDevice (blankHdr .original 0 0) (blankHdr .original 1 3840)
  have hlen : (blankHdr .original 0 0).length ≤ 0x1000 := by
    rw [length_blankHdr]
    decide
  obtain ⟨hota, hhdr⟩ := @verifies_sampleDevice_ota (blankHdr .original 0 0) .original 1 3840 hlen (by decide)
  obtain ⟨-, happ⟩ := @verifies_sampleDevice_app (blankHdr .original 1 3840) .original 0 0 (by decide)
  have hread := @readBytes_sampleDevice_ota (blankHdr .original 0 0) (blankHdr .original 1 3840) hlen
    (by rw [length_blankHdr]; decide)
  have htype := imageType_blankHdr .original 1 3840
  have hsize : (blankHdr .original 1 3840).imgSizeOrig = 3840 := bodySize_blankHdr .original 1 (by decide) .original
  generalize sampleDevice (blankHdr .original 0 0) (blankHdr .original 1 3840) = f at *
  have hpay : otaPayload f = blank 3840 := by
    have hslice := readBytes_slice f sampleOta.startAddr sampleOta.size imageHdrSize 3840 (by decide)
    have hoff : sampleOta.bodyOffset = sampleOta.startAddr + imageHdrSize := rfl
    rw [otaPayload, hhdr, htype, hl.partitionInfo_ota]
    dsimp only
    rw [hsize, hoff, flashRead_eq_readBytes (by decide), hslice, hread, List.drop_left' (length_blankHdr _ _ _), length_blankHdr,
      blank, List.take_replicate]
    rfl
  apply cuts_converge
  constructor
  · exact hl
  · exact hota
  · intro t ht
    rw [hhdr, htype] at ht
    rw [hhdr, ← Option.some_inj.mp ht, ImageHdr.bodySize, hsize]
    decide
  · left
    rw [hhdr, htype]
  · rw [hhdr, hsize]
    decide
  · intro _
    rw [happ, hhdr, ver_blankHdr, ver_blankHdr]
    decide
  · intro m hm
    rw [hpay] at hm
    apply absurd _ hm
    have hadd : min m 3840 + (3840 - m) = 3840 := by omega
    rw [length_blank, blank, List.take_replicate, blank, ← List.replicate_add, hadd]

end Ln882x.Ota
