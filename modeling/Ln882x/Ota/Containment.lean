import Ln882x.Ota.Layout

/-! Where the agent writes and what it reads. The sizes of a restore come from the
partition table, from the header of the image and from the head of the compressed
stream, and nothing compares them. The writes stay inside APP and the reads of a
compressed body inside that body exactly if these sizes agree. -/

namespace Ln882x.Ota

open Nor

variable {f : Flash} {p : UpgPort} {app : PartitionInfo}

/-! ### Bytes in a partition -/

def PartitionInfo.Has (app : PartitionInfo) (x : ℕ) : Prop := app.startAddr ≤ x ∧ x < app.startAddr + app.size

/-- Every byte that the call touches lies in the partition; offsets are 32-bit numbers. -/
def Inside (app : PartitionInfo) (o : Op) : Prop := ∀ i < o.len, app.Has ((o.addr + i) % 2 ^ 32)

/-- The first `n` bytes from the start of the partition. -/
theorem has_run_iff (hs : app.startAddr < 2 ^ 32) (hz : app.size < 2 ^ 32) (n : ℕ) :
    (∀ i < n, app.Has ((app.startAddr + i) % 2 ^ 32)) ↔ n ≤ app.size ∧ app.startAddr + n ≤ 2 ^ 32 := by
  unfold PartitionInfo.Has
  constructor
  · intro h
    have hwrap : app.startAddr + n ≤ 2 ^ 32 := by
      by_contra hgt
      have hzero := h (2 ^ 32 - app.startAddr) (by omega)
      have hmod : (app.startAddr + (2 ^ 32 - app.startAddr)) % 2 ^ 32 = 0 := by
        rw [Nat.add_sub_cancel' hs.le, Nat.mod_self]
      rw [hmod] at hzero
      have hsize := h app.size (by omega)
      rw [Nat.mod_eq_of_lt (by omega)] at hsize
      omega
    refine ⟨?_, hwrap⟩
    by_contra hgt
    have hsize := h app.size (by omega)
    rw [Nat.mod_eq_of_lt (by omega)] at hsize
    omega
  · rintro ⟨hle, hend⟩ i hi
    rw [Nat.mod_eq_of_lt (by omega)]
    omega

theorem inside_erase_iff (hs : app.startAddr < 2 ^ 32) (hz : app.size < 2 ^ 32) :
    Inside app (.erase app.startAddr app.size) ↔ app.startAddr + app.size ≤ 2 ^ 32 := by
  rw [Inside, Op.len, Op.addr, has_run_iff hs hz]
  omega

/-- The bytes of the pieces, one after the other. -/
theorem inside_pieces_iff {addr : ℕ} (h : addr < 2 ^ 32) (ds : List Bytes) :
    (∀ o ∈ pieces addr ds, Inside app o) ↔ ∀ i < ds.flatten.length, app.Has ((addr + i) % 2 ^ 32) := by
  induction ds generalizing addr with
  | nil => simp [pieces]
  | cons d ds ih =>
    have hmod : (addr + d.length) % 2 ^ 32 < 2 ^ 32 := Nat.mod_lt _ (by decide)
    rw [pieces, List.forall_mem_cons, ih hmod, List.flatten_cons, List.length_append]
    simp only [Inside, Op.len, Op.addr, Nat.mod_add_mod, Nat.add_assoc]
    constructor
    · rintro ⟨hd, hds⟩ i hi
      by_cases hlt : i < d.length
      · exact hd i hlt
      · have hrest := hds (i - d.length) (by omega)
        rwa [Nat.add_sub_cancel' (by omega)] at hrest
    · intro hall
      constructor
      · intro i hi
        exact hall i (by omega)
      · intro i hi
        exact hall (d.length + i) (by omega)

/-- The calls of a restore stay in the partition exactly if header and body have room there. -/
theorem inside_restore_iff (hs : app.startAddr < 2 ^ 32) (hz : app.size < 2 ^ 32) {hdr : ImageHdr}
    (hlen : hdr.length = imageHdrSize) (ds : List Bytes) :
    (∀ o ∈ (.erase app.startAddr app.size :: .program app.startAddr hdr :: pieces app.bodyOffset ds : List Op), Inside app o) ↔
      imageHdrSize + ds.flatten.length ≤ app.size ∧ app.startAddr + app.size ≤ 2 ^ 32 := by
  have hlt : app.bodyOffset < 2 ^ 32 := Nat.mod_lt _ (by decide)
  have hrun := has_run_iff hs hz (imageHdrSize + ds.flatten.length)
  rw [List.forall_mem_cons, List.forall_mem_cons, inside_erase_iff hs hz, inside_pieces_iff hlt]
  simp only [Inside, Op.len, Op.addr, hlen, PartitionInfo.bodyOffset, Nat.mod_add_mod, Nat.add_assoc]
  constructor
  · rintro ⟨herase, hhdr, hbody⟩
    have hall : ∀ i < imageHdrSize + ds.flatten.length, app.Has ((app.startAddr + i) % 2 ^ 32) := by
      intro i hi
      by_cases hlt : i < imageHdrSize
      · exact hhdr i hlt
      · have hrest := hbody (i - imageHdrSize) (by omega)
        rwa [Nat.add_sub_cancel' (by omega)] at hrest
    have hfit := hrun.mp hall
    omega
  · rintro ⟨hfit, hend⟩
    have hall := hrun.mpr ⟨hfit, by omega⟩
    exact ⟨hend, fun i hi => hall i (by omega), fun i hi => hall (imageHdrSize + i) (by omega)⟩

/-! ### The claims of a run -/

theorem fetchPartitionLoop_lt {type : ℕ} (n i : ℕ) {info : PartitionInfo} (hs : info.startAddr < 2 ^ 32) (hz : info.size < 2 ^ 32) :
    (fetchPartitionLoop f type n i info).2.startAddr < 2 ^ 32 ∧ (fetchPartitionLoop f type n i info).2.size < 2 ^ 32 := by
  induction n generalizing i info with
  | zero => exact ⟨hs, hz⟩
  | succ n ih =>
    rw [fetchPartitionLoop]
    split_ifs
    · exact ⟨u32At_lt _ _, u32At_lt _ _⟩
    · exact ⟨u32At_lt _ _, u32At_lt _ _⟩
    · exact ih (i + 1) (u32At_lt _ _) (u32At_lt _ _)

theorem partitionInfo_lt (f : Flash) (type : ℕ) :
    (partitionInfo f type).startAddr < 2 ^ 32 ∧ (partitionInfo f type).size < 2 ^ 32 :=
  fetchPartitionLoop_lt _ 0 (by decide) (by decide)

/-- The flash is changed inside APP only, and the compressed body is read inside its bounds. -/
structure Contained (app : PartitionInfo) (xzSize : ℕ) (a : Agent) : Prop where
  writes : ∀ o, .flash o ∈ a.acts → Inside app o
  reads : ∀ e ∈ a.xz.reads, 0 ≤ e.2 ∧ e.2 ≤ len4KB ∧ e.1 + e.2 ≤ xzSize
  already : a.xz.alreadyRead ≤ xzSize

/-- The sizes of the OTA image agree with the partition and with each other. -/
def RestoreFits (f : Flash) : Prop :=
  (partitionInfo f partitionTypeApp).startAddr + (partitionInfo f partitionTypeApp).size ≤ 2 ^ 32 ∧
    ((partitionHdr f partitionTypeOta).imageType = some .original →
      imageHdrSize + (partitionHdr f partitionTypeOta).imgSizeOrig ≤ (partitionInfo f partitionTypeApp).size) ∧
    ((partitionHdr f partitionTypeOta).imageType = some .originalXz →
      imageHdrSize + (xzRestoredOta f).2.2.2.length ≤ (partitionInfo f partitionTypeApp).size ∧
      xzHeaderSize ≤ (partitionHdr f partitionTypeOta).imgSizeOrigXz ∧
      ∀ q, xzProps (flashRead (preparedFlash f (partitionHdr f partitionTypeOta).asOriginal)
        (partitionInfo f partitionTypeOta).bodyOffset xzHeaderSize) = .ok q →
        (partitionHdr f partitionTypeOta).imgSizeOrigXz - xzHeaderSize < 2 ^ 31)

/-! ### Reads -/

/-- The reads made so far, and the counter. -/
def ReadsInside (xzSize : ℕ) (s : XzInput) : Prop :=
  (∀ e ∈ s.reads, 0 ≤ e.2 ∧ e.2 ≤ len4KB ∧ e.1 + e.2 ≤ xzSize) ∧ s.alreadyRead ≤ xzSize

theorem readsInside_next {otaOffset xzSize : ℕ} {s : XzInput} (hsize : xzSize - xzHeaderSize < 2 ^ 31)
    (h : ReadsInside xzSize s) (hge : xzHeaderSize ≤ s.alreadyRead) :
    ReadsInside xzSize (decompressReadCb f otaOffset xzSize s).next ∧
      xzHeaderSize ≤ (decompressReadCb f otaOffset xzSize s).next.alreadyRead := by
  have hhdr : xzHeaderSize = 13 := rfl
  obtain ⟨hreads, hle⟩ := h
  rw [decompressReadCb_inside hle (by omega) (by omega)]
  refine ⟨⟨?_, ?_⟩, ?_⟩
  · intro e he
    rcases List.mem_append.mp he with he | he
    · exact hreads e he
    · rw [List.mem_singleton.mp he]
      dsimp only
      omega
  · dsimp only
    omega
  · dsimp only
    omega

/-- A length that is not in the bounds is negative. -/
theorem decompressLen_neg {xzSize : ℕ} (hlt : xzSize < 2 ^ 32) (h : xzSize < xzHeaderSize ∨ 2 ^ 31 ≤ xzSize - xzHeaderSize) :
    decompressLen xzSize xzHeaderSize < 0 := by
  have hhdr : xzHeaderSize = 13 := rfl
  unfold decompressLen
  dsimp only
  rw [if_neg (by omega), if_neg]
  · omega
  · have h4 : (len4KB : ℤ) = 4096 := rfl
    omega

/-- The callback was called so. -/
def Logged (e : ℕ × ℤ) (s : XzInput) : Prop := e ∈ s.reads

theorem xzRestored_reads_iff (f : Flash) (appOffset otaOffset : ℕ) {xzSize : ℕ} (hlt : xzSize < 2 ^ 32) :
    ReadsInside xzSize (xzRestored f appOffset otaOffset xzSize).2.1 ↔ xzHeaderSize ≤ xzSize ∧
      ∀ q, xzProps (flashRead f otaOffset xzHeaderSize) = .ok q → xzSize - xzHeaderSize < 2 ^ 31 := by
  unfold xzRestored xzDecompressBufToBuf
  cases hq : xzProps (flashRead f otaOffset xzHeaderSize) with
  | error e => simp [ReadsInside]
  | ok q =>
    dsimp only
    have hstart : ReadsInside xzSize ⟨xzHeaderSize, []⟩ ↔ xzHeaderSize ≤ xzSize := by simp [ReadsInside]
    by_cases hin : xzHeaderSize ≤ xzSize ∧ xzSize - xzHeaderSize < 2 ^ 31
    · obtain ⟨hge, hsize⟩ := hin
      have hagree : ∀ t : Flash × Bytes, Agree (fun s => ReadsInside xzSize s ∧ xzHeaderSize ≤ s.alreadyRead)
          (decompressReadCb t.1 otaOffset xzSize) (decompressReadCb t.1 otaOffset xzSize) := by
        intro t
        exact ⟨fun _ _ => rfl, fun s hs => readsInside_next hsize hs.1 hs.2⟩
      have hinit := ((hagree (f, [])).init q ⟨hstart.mpr hge, Nat.le_refl _⟩).2
      constructor
      · intro _
        exact ⟨hge, fun _ _ => hsize⟩
      · intro _
        exact (xzBlockLoop_input hagree q.outSize (f, []) hinit).1
    · -- the first call of the callback asks for a negative length
      have hneg := decompressLen_neg hlt (by omega)
      have hfirst : Logged (xzHeaderSize, decompressLen xzSize xzHeaderSize)
          (decompressReadCb f otaOffset xzSize ⟨xzHeaderSize, []⟩).next := by
        unfold decompressReadCb
        exact List.mem_append_right _ (List.mem_singleton_self _)
      have hagree : ∀ t : Flash × Bytes, Agree (Logged (xzHeaderSize, decompressLen xzSize xzHeaderSize))
          (decompressReadCb t.1 otaOffset xzSize) (decompressReadCb t.1 otaOffset xzSize) := by
        intro t
        exact ⟨fun _ _ => rfl, fun s hs => List.mem_append_left _ hs⟩
      have hinit := (hagree (f, [])).xzInit_called q hfirst
      have hlast : Logged (xzHeaderSize, decompressLen xzSize xzHeaderSize)
          (xzBlockLoop (fun t : Flash × Bytes => decompressReadCb t.1 otaOffset xzSize)
            (fun block t => ((Op.program ((appOffset + t.2.length) % 2 ^ 32) block).apply t.1, t.2 ++ block)) q.outSize
            q.outSize 0 (xzInit (decompressReadCb f otaOffset xzSize) q ⟨xzHeaderSize, []⟩) (f, [])).2.1 :=
        xzBlockLoop_input hagree q.outSize (f, []) hinit
      constructor
      · rintro ⟨hreads, -⟩
        unfold Logged at hlast
        have hge := (hreads _ hlast).1
        dsimp only at hge
        omega
      · rintro ⟨hge, hsize⟩
        exact absurd ⟨hge, hsize q rfl⟩ hin

/-! ### Every run -/

-- no proof below walks the table or decodes
attribute [local irreducible] lnFetchPartitionInfo xzDecompressBufToBuf

theorem contained_writes {ops : List Op} {acts : List Act} {app : PartitionInfo} (h : acts = ops.map .flash ∨
    acts = ops.map .flash ++ [.upgState upgStateRestoreOk]) :
    (∀ o, .flash o ∈ acts → Inside app o) ↔ ∀ o ∈ ops, Inside app o := by
  have hmem (o : Op) : Act.flash o ∈ acts ↔ o ∈ ops := by
    rcases h with rfl | rfl
    · simp
    · simp
  simp only [hmem]

/-- The writes of a restore, whether or not it was finished. -/
theorem Rewritten.writes_iff {hdr : ImageHdr} {ds : List Bytes} {a : Agent} (hr : Rewritten f hdr ds a)
    (hlen : hdr.length = imageHdrSize) {acts : List Act} (h : acts = a.acts ∨ acts = a.acts ++ [.upgState upgStateRestoreOk]) :
    (∀ o, .flash o ∈ acts → Inside (partitionInfo f partitionTypeApp) o) ↔
      imageHdrSize + ds.flatten.length ≤ (partitionInfo f partitionTypeApp).size ∧
      (partitionInfo f partitionTypeApp).startAddr + (partitionInfo f partitionTypeApp).size ≤ 2 ^ 32 := by
  obtain ⟨hs, hz⟩ := partitionInfo_lt f partitionTypeApp
  rw [hr.acts] at h
  rw [contained_writes h]
  exact inside_restore_iff hs hz hlen ds

theorem contained_iff {xzSize : ℕ} {a : Agent} :
    Contained app xzSize a ↔ (∀ o, .flash o ∈ a.acts → Inside app o) ∧ ReadsInside xzSize a.xz := by
  constructor
  · rintro ⟨hw, hr, ha⟩
    exact ⟨hw, hr, ha⟩
  · rintro ⟨hw, hr, ha⟩
    exact ⟨hw, hr, ha⟩

theorem readsInside_zero (xzSize : ℕ) : ReadsInside xzSize ⟨0, []⟩ := by simp [ReadsInside]

theorem Kept.contained {r : Exit × Agent} (h : Kept f r) (app : PartitionInfo) (xzSize : ℕ) : Contained app xzSize r.2 := by
  rw [contained_iff]
  cases h with
  | failed e hf ha hx =>
    rw [ha, hx]
    exact ⟨fun o ho => absurd ho List.not_mem_nil, readsInside_zero xzSize⟩
  | started ret hv hf ha hx =>
    rw [ha, hx]
    exact ⟨fun o ho => absurd ho List.not_mem_nil, readsInside_zero xzSize⟩
  | marked hv hf ha hx =>
    rw [ha, hx]
    exact ⟨fun o ho => absurd ho (by simp), readsInside_zero xzSize⟩

/-- The case of a compressed image. -/
theorem fits_xz_iff (f : Flash) :
    ((imageHdrSize + (xzRestoredOta f).2.2.2.length ≤ (partitionInfo f partitionTypeApp).size ∧
      (partitionInfo f partitionTypeApp).startAddr + (partitionInfo f partitionTypeApp).size ≤ 2 ^ 32) ∧
      ReadsInside (partitionHdr f partitionTypeOta).imgSizeOrigXz (xzRestoredOta f).2.1) ↔
    (partitionInfo f partitionTypeApp).startAddr + (partitionInfo f partitionTypeApp).size ≤ 2 ^ 32 ∧
      (some ImageType.originalXz = some .original →
        imageHdrSize + (partitionHdr f partitionTypeOta).imgSizeOrig ≤ (partitionInfo f partitionTypeApp).size) ∧
      (some ImageType.originalXz = some .originalXz →
        imageHdrSize + (xzRestoredOta f).2.2.2.length ≤ (partitionInfo f partitionTypeApp).size ∧
        xzHeaderSize ≤ (partitionHdr f partitionTypeOta).imgSizeOrigXz ∧
        ∀ q, xzProps (flashRead (preparedFlash f (partitionHdr f partitionTypeOta).asOriginal)
          (partitionInfo f partitionTypeOta).bodyOffset xzHeaderSize) = .ok q →
          (partitionHdr f partitionTypeOta).imgSizeOrigXz - xzHeaderSize < 2 ^ 31) := by
  have hxz : (partitionHdr f partitionTypeOta).imgSizeOrigXz < 2 ^ 32 := u32At_lt _ _
  have hreads := xzRestored_reads_iff (preparedFlash f (partitionHdr f partitionTypeOta).asOriginal)
    (partitionInfo f partitionTypeApp).bodyOffset (partitionInfo f partitionTypeOta).bodyOffset hxz
  rw [← xzRestoredOta] at hreads
  rw [hreads]
  constructor
  · rintro ⟨⟨hfit, hend⟩, hin⟩
    exact ⟨hend, fun hno => absurd hno (by decide), fun _ => ⟨hfit, hin⟩⟩
  · rintro ⟨hend, -, hin⟩
    exact ⟨⟨(hin rfl).1, hend⟩, (hin rfl).2⟩

theorem Restored.contained_iff {r : Exit × Agent} (h : Restored p f r) :
    Contained (partitionInfo f partitionTypeApp) (partitionHdr f partitionTypeOta).imgSizeOrigXz r.2 ↔ RestoreFits f := by
  obtain ⟨hs, hz⟩ := partitionInfo_lt f partitionTypeApp
  have hlen := length_partitionHdr f partitionTypeOta
  rw [Ota.contained_iff, RestoreFits]
  cases h with
  | unsupported e ht htx hf ha hx =>
    rw [ha, hx]
    have hwrites : (∀ o, Act.flash o ∈ [Act.flash (.erase (partitionInfo f partitionTypeApp).startAddr
        (partitionInfo f partitionTypeApp).size)] → Inside (partitionInfo f partitionTypeApp) o) ↔
        (partitionInfo f partitionTypeApp).startAddr + (partitionInfo f partitionTypeApp).size ≤ 2 ^ 32 := by
      rw [← inside_erase_iff hs hz]
      simp
    rw [hwrites]
    constructor
    · rintro ⟨hend, -⟩
      exact ⟨hend, fun hno => absurd hno ht, fun hno => absurd hno htx⟩
    · rintro ⟨hend, -, -⟩
      exact ⟨hend, readsInside_zero _⟩
  | original ht hr hlen' hbody hx =>
    rw [finishRestore_xz, hx, hr.writes_iff hlen (finishRestore_acts p _), hlen', ht]
    constructor
    · rintro ⟨⟨hfit, hend⟩, -⟩
      exact ⟨hend, fun _ => hfit, fun hno => nomatch hno⟩
    · rintro ⟨hend, hfit, -⟩
      exact ⟨⟨hfit rfl, hend⟩, readsInside_zero _⟩
  | broken ht he hr hbody hx =>
    rw [hx, hr.writes_iff (length_asOriginal hlen) (.inl rfl), hbody, ht]
    exact fits_xz_iff f
  | decoded ht he hr hbody hx =>
    rw [finishRestore_xz, hx, hr.writes_iff (length_asOriginal hlen) (finishRestore_acts p _), hbody, ht]
    exact fits_xz_iff f

/-- Every run of the agent. -/
theorem agentRun_contained_iff (p : UpgPort) (f : Flash) :
    Contained (partitionInfo f partitionTypeApp) (partitionHdr f partitionTypeOta).imgSizeOrigXz (agentRun p f).2 ↔
      (Restores p f → RestoreFits f) := by
  by_cases h : Restores p f
  · rw [(agentRun_restored h).contained_iff]
    exact ⟨fun hfit _ => hfit, fun hfit => hfit h⟩
  · exact ⟨fun _ hr => absurd hr h, fun _ => (agentRun_kept h).contained _ _⟩

/-- An original image of 3841 bytes is restored to a partition of 4096. -/
theorem agentRun_not_contained : ¬ ∀ (p : UpgPort) (f : Flash), (lnFetchPartitionInfo f partitionTypeApp .zero).1 = true →
    Verifies f partitionTypeOta →
    Contained (partitionInfo f partitionTypeApp) (partitionHdr f partitionTypeOta).imgSizeOrigXz (agentRun p f).2 := by
  intro hall
  have hl := layout_sampleDevice [] (blankHdr .original 1 3841)
  obtain ⟨hota, hhdr⟩ := @verifies_sampleDevice_ota [] .original 1 3841 (Nat.zero_le _) (by decide)
  have hrestores : Restores ⟨some upgStateDownloadOk, true⟩ (sampleDevice [] (blankHdr .original 1 3841)) :=
    ⟨rfl, hota, fun hv => absurd hv (not_verifies_sampleDevice _)⟩
  have hin := hall ⟨some upgStateDownloadOk, true⟩ _ (by rw [hl.fetchApp]) hota
  obtain ⟨-, hfit, -⟩ := (agentRun_restored hrestores).contained_iff.mp hin
  rw [hhdr, hl.partitionInfo_app] at hfit
  have hsize : (blankHdr .original 1 3841).imgSizeOrig = 3841 := bodySize_blankHdr .original 1 (by decide) .original
  have hle := hfit (imageType_blankHdr .original 1 3841)
  rw [hsize] at hle
  exact absurd hle (by decide)

end Ln882x.Ota
