import Ln882x.Ota.Restore

/-! Partitions that do not get in each other's way. Where the APP partition lies
apart from the table and from the OTA image, a restore leaves both as they are,
and what it puts into APP can be said byte by byte: the header, then the pieces
of the body, and erased flash behind them. -/

namespace Ln882x.Ota

open Nor

variable {f g : Flash} {p : UpgPort}

/-! ### Headers -/

section AsOriginal
variable {h : ImageHdr} (hlen : h.length = imageHdrSize)

theorem asOriginal_eq (h : ImageHdr) :
    h.asOriginal = sealHeader (leBytes 4 ImageType.original.code ++ (h.drop 4).take (imageHdrSize - 8)) := rfl

theorem imageType_asOriginal (h : ImageHdr) : h.asOriginal.imageType = some .original := by
  have htype : u32At h.asOriginal 0 = 1 := by
    rw [asOriginal_eq, sealHeader, List.append_assoc]
    exact u32At_leBytes (X := []) rfl (by decide)
  rw [ImageHdr.imageType, htype]
  rfl

include hlen

theorem length_asOriginal : h.asOriginal.length = imageHdrSize := by
  rw [asOriginal_eq, sealHeader]
  simp only [List.length_append, length_leBytes, List.length_take, List.length_drop, hlen, imageHdrSize]
  decide

theorem imageHeaderVerify_asOriginal : imageHeaderVerify h.asOriginal = true := by
  rw [asOriginal_eq]
  apply imageHeaderVerify_sealHeader
  simp only [List.length_append, length_leBytes, List.length_take, List.length_drop, hlen, imageHdrSize]
  decide

/-- All but the type and the checksum is kept. -/
theorem getElem?_asOriginal {i : ℕ} (h4 : 4 ≤ i) (hi : i < imageHdrSize - 4) : h.asOriginal[i]? = h[i]? := by
  rw [asOriginal_eq, sealHeader, List.getElem?_append_left, List.getElem?_append_right, length_leBytes,
    List.getElem?_take_of_lt, List.getElem?_drop]
  · congr 1
    omega
  · simp only [imageHdrSize] at hi ⊢
    omega
  · rw [length_leBytes]
    exact h4
  · simp only [List.length_append, length_leBytes, List.length_take, List.length_drop, hlen, imageHdrSize] at hi ⊢
    omega

theorem u32At_asOriginal {off : ℕ} (h4 : 4 ≤ off) (hoff : off + 4 ≤ imageHdrSize - 4) :
    u32At h.asOriginal off = u32At h off := by
  rw [u32At, u32At]
  congr 1
  apply List.ext_getElem?
  intro i
  by_cases hi : i < 4
  · rw [List.getElem?_take_of_lt hi, List.getElem?_take_of_lt hi, List.getElem?_drop, List.getElem?_drop,
      getElem?_asOriginal hlen (by omega) (by omega)]
  · rw [List.getElem?_eq_none, List.getElem?_eq_none]
    · rw [List.length_take]
      omega
    · rw [List.length_take]
      omega

theorem imgSizeOrig_asOriginal : h.asOriginal.imgSizeOrig = h.imgSizeOrig := u32At_asOriginal hlen (by decide) (by decide)

theorem imgCrc32Orig_asOriginal : h.asOriginal.imgCrc32Orig = h.imgCrc32Orig := u32At_asOriginal hlen (by decide) (by decide)

theorem ver_asOriginal : h.asOriginal.ver = h.ver := by
  rw [ImageHdr.ver, ImageHdr.ver, List.getD_eq_getElem?_getD, List.getD_eq_getElem?_getD, List.getD_eq_getElem?_getD,
    List.getD_eq_getElem?_getD, getElem?_asOriginal hlen (by decide) (by decide),
    getElem?_asOriginal hlen (by decide) (by decide)]

end AsOriginal

theorem length_partitionHdr (f : Flash) (type : ℕ) : (partitionHdr f type).length = imageHdrSize := length_flashRead _ _ _

/-! ### The table -/

theorem fetchPartitionLoop_congr (h : ∀ x, partitionTabBase ≤ x → x < partitionTabBase + partitionTabSize → f x = g x) {type : ℕ}
    (n i : ℕ) (hn : i + n ≤ partitionTabSize / partitionInfoSize) (info : PartitionInfo) :
    fetchPartitionLoop f type n i info = fetchPartitionLoop g type n i info := by
  induction n generalizing i info with
  | zero => rfl
  | succ n ih =>
    have hread : flashRead f (partitionTabBase + i * partitionInfoSize) partitionInfoSize =
        flashRead g (partitionTabBase + i * partitionInfoSize) partitionInfoSize := by
      apply flashRead_congr
      intro j hj
      simp only [partitionTabBase, partitionTabSize, partitionInfoSize] at hn hj h ⊢
      rw [Nat.mod_eq_of_lt (by omega)]
      exact h _ (by omega) (by omega)
    rw [fetchPartitionLoop, fetchPartitionLoop, hread, ih (i + 1) (by omega)]

/-- The partitions are what the table says. -/
theorem lnFetchPartitionInfo_congr (h : ∀ x, partitionTabBase ≤ x → x < partitionTabBase + partitionTabSize → f x = g x)
    (type : ℕ) (info : PartitionInfo) : lnFetchPartitionInfo f type info = lnFetchPartitionInfo g type info :=
  fetchPartitionLoop_congr h _ 0 (Nat.zero_add _).le info

/-! ### Partitions apart -/

/-- A valid table with partitions that lie in the flash, APP apart from OTA and from the table. -/
structure Layout (f : Flash) (app ota : PartitionInfo) : Prop where
  fetchApp : lnFetchPartitionInfo f partitionTypeApp .zero = (true, app)
  fetchOta : lnFetchPartitionInfo f partitionTypeOta .zero = (true, ota)
  appEnd : app.startAddr + app.size ≤ 2 ^ 32
  otaEnd : ota.startAddr + ota.size ≤ 2 ^ 32
  apart : app.startAddr + app.size ≤ ota.startAddr ∨ ota.startAddr + ota.size ≤ app.startAddr
  table : app.startAddr + app.size ≤ partitionTabBase ∨ partitionTabBase + partitionTabSize ≤ app.startAddr

variable {app ota : PartitionInfo}

/-- The flashes agree outside APP. -/
def SameOutside (app : PartitionInfo) (f g : Flash) : Prop :=
  ∀ x, x < app.startAddr ∨ app.startAddr + app.size ≤ x → f x = g x

theorem SameOutside.refl (app : PartitionInfo) (f : Flash) : SameOutside app f f := fun _ _ => rfl

theorem SameOutside.trans {k : Flash} (h : SameOutside app f g) (h' : SameOutside app g k) : SameOutside app f k := by
  intro x hx
  rw [h x hx, h' x hx]

theorem SameOutside.symm (h : SameOutside app f g) : SameOutside app g f := by
  intro x hx
  exact (h x hx).symm

/-- The driver call stays inside APP. -/
def InApp (app : PartitionInfo) (o : Op) : Prop := app.startAddr ≤ o.addr ∧ o.addr + o.len ≤ app.startAddr + app.size

theorem sameOutside_applyAll {ops : List Op} (h : ∀ o ∈ ops, InApp app o) (f : Flash) : SameOutside app (applyAll ops f) f := by
  intro x hx
  apply applyAll_outside
  intro o ho
  have hin := h o ho
  unfold InApp at hin
  omega

namespace Layout

theorem partitionInfo_app (hl : Layout f app ota) : partitionInfo f partitionTypeApp = app := by
  rw [partitionInfo, hl.fetchApp]

theorem partitionInfo_ota (hl : Layout f app ota) : partitionInfo f partitionTypeOta = ota := by
  rw [partitionInfo, hl.fetchOta]

/-- A change inside APP keeps the layout. -/
theorem congr (hl : Layout f app ota) (h : SameOutside app g f) : Layout g app ota := by
  have htab : ∀ x, partitionTabBase ≤ x → x < partitionTabBase + partitionTabSize → g x = f x := by
    intro x h0 h1
    have hx := hl.table
    exact h x (by omega)
  constructor
  · rw [lnFetchPartitionInfo_congr htab, hl.fetchApp]
  · rw [lnFetchPartitionInfo_congr htab, hl.fetchOta]
  · exact hl.appEnd
  · exact hl.otaEnd
  · exact hl.apart
  · exact hl.table

/-- Reads of the OTA partition do not see APP. -/
theorem flashRead_ota (hl : Layout f app ota) (h : SameOutside app g f) {off len : ℕ} (hend : off + len ≤ ota.size) :
    flashRead g (ota.startAddr + off) len = flashRead f (ota.startAddr + off) len := by
  apply flashRead_congr
  intro i hi
  have hota := hl.otaEnd
  have hapart := hl.apart
  rw [Nat.mod_eq_of_lt (by omega)]
  exact h _ (by omega)

theorem partitionHdr_ota (hl : Layout f app ota) (h : SameOutside app g f) (hsize : imageHdrSize ≤ ota.size) :
    partitionHdr g partitionTypeOta = partitionHdr f partitionTypeOta := by
  rw [partitionHdr, partitionHdr, (hl.congr h).partitionInfo_ota, hl.partitionInfo_ota]
  exact hl.flashRead_ota h (show 0 + imageHdrSize ≤ ota.size by omega)

/-- The header at the start of APP. -/
theorem partitionHdr_app (hl : Layout f app ota) {hdr rest : Bytes} (hread : readBytes f app.startAddr app.size = hdr ++ rest)
    (hlen : hdr.length = imageHdrSize) : partitionHdr f partitionTypeApp = hdr := by
  have hsize := congrArg List.length hread
  have hend := hl.appEnd
  rw [length_readBytes, List.length_append] at hsize
  rw [partitionHdr, hl.partitionInfo_app, imageHeaderFastRead, flashRead_eq_readBytes (by omega)]
  exact readBytes_head hread hlen

/-- An original image in APP verifies if its body has the checksum of its header. -/
theorem verifies_app (hl : Layout f app ota) {hdr rest : Bytes} (hread : readBytes f app.startAddr app.size = hdr ++ rest)
    (hlen : hdr.length = imageHdrSize) (htype : ImageHdr.imageType hdr = some .original) (hv : imageHeaderVerify hdr = true)
    (hfit : imageHdrSize + ImageHdr.imgSizeOrig hdr ≤ app.size) :
    Verifies f partitionTypeApp ↔
      (lnCrc32SignleCal (rest.take (ImageHdr.imgSizeOrig hdr))).toNat = ImageHdr.imgCrc32Orig hdr := by
  have hend := hl.appEnd
  have hbody : flashRead f (app.startAddr + imageHdrSize) (ImageHdr.imgSizeOrig hdr) = rest.take (ImageHdr.imgSizeOrig hdr) := by
    rw [flashRead_eq_readBytes (by omega), readBytes_slice f app.startAddr app.size _ _ hfit, hread, List.drop_left' hlen]
  rw [verifies_iff (.inl rfl), hl.partitionHdr_app hread hlen, hl.fetchApp, hl.partitionInfo_app, imageBodyVerify_none htype,
    ImageHdr.bodySize, ImageHdr.bodyCrc32, hbody]
  simp [hv]

/-- An erased APP does not verify. -/
theorem not_verifies_blank (hl : Layout f app ota) (hread : readBytes f app.startAddr app.size = blank app.size)
    (hsize : imageHdrSize ≤ app.size) : ¬Verifies f partitionTypeApp := by
  have hsplit : blank app.size = blank imageHdrSize ++ blank (app.size - imageHdrSize) := by
    rw [← blank_add, Nat.add_sub_cancel' hsize]
  rw [hsplit] at hread
  rw [verifies_iff (.inl rfl), hl.partitionHdr_app hread (length_blank _)]
  rintro ⟨-, -, hbody⟩
  have htype : ImageHdr.imageType (blank imageHdrSize) = none := by decide +kernel
  rw [imageBodyVerify, htype] at hbody
  cases hbody

theorem bodyOffset_app (hl : Layout f app ota) (h : imageHdrSize < app.size) :
    app.bodyOffset = app.startAddr + imageHdrSize := by
  have hend := hl.appEnd
  exact Nat.mod_eq_of_lt (by omega)

end Layout

/-! ### What a restore leaves in APP -/

theorem take_pieces (addr : ℕ) (ds : List Bytes) (k : ℕ) : (pieces addr ds).take k = pieces addr (ds.take k) := by
  induction ds generalizing addr k with
  | nil => simp [pieces]
  | cons d ds ih =>
    cases k with
    | zero => rfl
    | succ k => rw [pieces, List.take_succ_cons, List.take_succ_cons, pieces, ih]

theorem take_restoreOps (f : Flash) (hdr : ImageHdr) (ds : List Bytes) (k : ℕ) :
    (restoreOps f hdr ds).take (k + 2) = restoreOps f hdr (ds.take k) := by
  rw [restoreOps, restoreOps, List.take_succ_cons, List.take_succ_cons, take_pieces]

theorem flatten_eq_nil {ds : List Bytes} (hne : ∀ d ∈ ds, d ≠ []) (h : ds.flatten.length = 0) : ds = [] := by
  cases ds with
  | nil => rfl
  | cons d ds =>
    have hd : 0 < d.length := List.length_pos_iff.mpr (hne d List.mem_cons_self)
    rw [List.flatten_cons, List.length_append] at h
    omega

section Contents
variable {hdr : ImageHdr} {ds : List Bytes} (hl : Layout f app ota) (hlen : hdr.length = imageHdrSize)
  (hne : ∀ d ∈ ds, d ≠ []) (hfit : imageHdrSize + ds.flatten.length ≤ app.size)

include hl hlen hne hfit

/-- Every call of a restore stays inside APP. -/
theorem restoreOps_inApp : ∀ o ∈ restoreOps f hdr ds, InApp app o := by
  intro o ho
  have hend := hl.appEnd
  rw [restoreOps, hl.partitionInfo_app, List.mem_cons, List.mem_cons] at ho
  rcases ho with rfl | rfl | ho
  · exact ⟨Nat.le_refl _, Nat.le_refl _⟩
  · exact ⟨Nat.le_refl _, by rw [Op.addr, Op.len, hlen]; omega⟩
  · by_cases h0 : ds.flatten.length = 0
    · rw [flatten_eq_nil hne h0] at ho
      exact absurd ho List.not_mem_nil
    · rw [hl.bodyOffset_app (by omega)] at ho
      have hin := mem_pieces_within hne (by omega) ho
      unfold InApp
      omega

/-- The header, the body as far as it is written, and erased flash. -/
theorem readBytes_restoreOps :
    readBytes (applyAll (restoreOps f hdr ds) f) app.startAddr app.size =
      hdr ++ (ds.flatten ++ blank (app.size - imageHdrSize - ds.flatten.length)) := by
  have hend := hl.appEnd
  obtain ⟨n, hn⟩ : ∃ n, app.size = imageHdrSize + n := ⟨app.size - imageHdrSize, by omega⟩
  have herase := readBytes_erase f app.startAddr app.size
  have hblank : blank app.size = blank hdr.length ++ blank n := by rw [hlen, ← blank_add, hn]
  rw [hblank] at herase
  have hprog := readBytes_program_head herase
  rw [restoreOps, hl.partitionInfo_app, applyAll_cons, applyAll_cons]
  generalize (Op.program app.startAddr hdr).apply ((Op.erase app.startAddr app.size).apply f) = k at hprog
  rw [hn, readBytes_add] at hprog ⊢
  obtain ⟨hhead, hrest⟩ := List.append_inj hprog (by rw [length_readBytes, hlen])
  by_cases h0 : ds.flatten.length = 0
  · rw [flatten_eq_nil hne h0, pieces, applyAll_nil, hhead, hrest]
    simp
  · have hbody := hl.bodyOffset_app (by omega)
    rw [hbody, readBytes_pieces hne hrest (by omega) (by omega), Nat.add_sub_cancel_left]
    congr 1
    apply Eq.trans _ hhead
    apply readBytes_congr
    intro x _ hx
    apply applyAll_outside
    intro o ho
    have hin := mem_pieces_within hne (by omega) ho
    omega

end Contents

/-! ### A device -/

/-- A flash with bytes at some places, erased elsewhere. -/
def deviceWith : List (ℕ × Bytes) → Flash
  | [] => fun _ => 0xFF
  | (addr, bs) :: rest => fun x => if addr ≤ x ∧ x < addr + bs.length then bs.getD (x - addr) 0xFF else deviceWith rest x

theorem readBytes_deviceWith_nil (addr n : ℕ) : readBytes (deviceWith []) addr n = blank n :=
  erased_iff_read.mp fun _ _ _ => rfl

theorem readBytes_deviceWith_self (addr : ℕ) (bs : Bytes) (rest : List (ℕ × Bytes)) :
    readBytes (deviceWith ((addr, bs) :: rest)) addr bs.length = bs := by
  apply List.ext_getElem?
  intro i
  by_cases hi : i < bs.length
  · rw [getElem?_readBytes _ _ _ _ hi]
    simp only [deviceWith]
    rw [if_pos (by omega), Nat.add_sub_cancel_left, List.getD_eq_getElem?_getD, List.getElem?_eq_getElem hi, Option.getD_some]
  · rw [List.getElem?_eq_none (by simpa using hi), List.getElem?_eq_none (by simpa using hi)]

theorem readBytes_deviceWith_skip {addr a n : ℕ} {bs : Bytes} (rest : List (ℕ × Bytes))
    (h : a + n ≤ addr ∨ addr + bs.length ≤ a) :
    readBytes (deviceWith ((addr, bs) :: rest)) a n = readBytes (deviceWith rest) a n := by
  apply readBytes_congr
  intro x h0 h1
  simp only [deviceWith]
  rw [if_neg (by omega)]

/-- An entry of the partition table. -/
def tableEntry (type startAddr size : ℕ) : Bytes := sealHeader (leBytes 4 type ++ (leBytes 4 startAddr ++ leBytes 4 size))

theorem length_tableEntry (type startAddr size : ℕ) : (tableEntry type startAddr size).length = partitionInfoSize := by
  simp [tableEntry, sealHeader, partitionInfoSize]

/-- What the agent makes of an entry. -/
def PartitionInfo.ofEntry (type startAddr size : ℕ) : PartitionInfo :=
  ⟨type, startAddr, size, (lnCrc32SignleCal (leBytes 4 type ++ (leBytes 4 startAddr ++ leBytes 4 size))).toNat⟩

section Entry
variable {type startAddr size : ℕ} (ht : type < 2 ^ 32) (hs : startAddr < 2 ^ 32) (hz : size < 2 ^ 32)

include ht hs hz

theorem ofBytes_tableEntry : PartitionInfo.ofBytes (tableEntry type startAddr size) = .ofEntry type startAddr size := by
  have hcrc := (lnCrc32SignleCal (leBytes 4 type ++ (leBytes 4 startAddr ++ leBytes 4 size))).toNat_lt
  have heq : tableEntry type startAddr size = leBytes 4 type ++ (leBytes 4 startAddr ++ (leBytes 4 size ++
      (leBytes 4 (lnCrc32SignleCal (leBytes 4 type ++ (leBytes 4 startAddr ++ leBytes 4 size))).toNat ++ []))) := by
    simp [tableEntry, sealHeader]
  unfold PartitionInfo.ofBytes PartitionInfo.ofEntry
  rw [heq]
  congr 1
  · exact u32At_leBytes (X := []) rfl ht
  · exact u32At_leBytes (length_leBytes 4 type) hs
  · rw [← List.append_assoc]
    exact u32At_leBytes (by simp) hz
  · rw [← List.append_assoc, ← List.append_assoc]
    exact u32At_leBytes (by simp) hcrc

theorem fetchPartitionLoop_hit {n i : ℕ}
    (h : flashRead f (partitionTabBase + i * partitionInfoSize) partitionInfoSize = tableEntry type startAddr size)
    (info : PartitionInfo) : fetchPartitionLoop f type (n + 1) i info = (true, .ofEntry type startAddr size) := by
  rw [fetchPartitionLoop, h, ofBytes_tableEntry ht hs hz]
  have htake : (tableEntry type startAddr size).take (partitionInfoSize - 4) =
      leBytes 4 type ++ (leBytes 4 startAddr ++ leBytes 4 size) := List.take_left' (by simp [partitionInfoSize])
  have htype : (PartitionInfo.ofEntry type startAddr size).type = type := rfl
  rw [if_pos htype, htake]
  simp [PartitionInfo.ofEntry]

theorem fetchPartitionLoop_skip {n i type' : ℕ}
    (h : flashRead f (partitionTabBase + i * partitionInfoSize) partitionInfoSize = tableEntry type startAddr size)
    (hne : type ≠ type') (h0 : 0 < size) (info : PartitionInfo) :
    fetchPartitionLoop f type' (n + 1) i info = fetchPartitionLoop f type' n (i + 1) (.ofEntry type startAddr size) := by
  rw [fetchPartitionLoop, h, ofBytes_tableEntry ht hs hz]
  have htype : (PartitionInfo.ofEntry type startAddr size).type ≠ type' := hne
  rw [if_neg htype, if_neg]
  intro hzero
  have hsize := congrArg PartitionInfo.size hzero
  simp only [PartitionInfo.ofEntry, PartitionInfo.zero] at hsize
  omega

end Entry

/-- A header for a body of `size` erased bytes: all sizes and all checksums are those of the body. -/
def blankHdr (t : ImageType) (verMinor : UInt8) (size : ℕ) : ImageHdr :=
  let n := leBytes 4 size
  let c := leBytes 4 (lnCrc32SignleCal (blank size)).toNat
  sealHeader (leBytes 4 t.code ++ ([0, verMinor, 0, 0] ++ (n ++ (n ++ (n ++ (n ++ (c ++ (c ++ (c ++ (c ++
    List.replicate 212 0))))))))))

section BlankHdr
variable (t : ImageType) (verMinor : UInt8) {size : ℕ}

theorem length_blankHdr (size : ℕ) : (blankHdr t verMinor size).length = imageHdrSize := by
  rw [blankHdr, sealHeader]
  simp only [List.length_append, length_leBytes, List.length_replicate, List.length_cons, List.length_nil, imageHdrSize]

theorem imageHeaderVerify_blankHdr (size : ℕ) : imageHeaderVerify (blankHdr t verMinor size) = true := by
  apply imageHeaderVerify_sealHeader
  simp only [List.length_append, length_leBytes, List.length_replicate, List.length_cons, List.length_nil, imageHdrSize]

theorem imageType_blankHdr (size : ℕ) : (blankHdr t verMinor size).imageType = some t := by
  have hcode : t.code < 2 ^ 32 := by cases t <;> decide
  have htype : u32At (blankHdr t verMinor size) 0 = t.code := by
    rw [blankHdr, sealHeader, List.append_assoc]
    exact u32At_leBytes (X := []) rfl hcode
  rw [ImageHdr.imageType, htype]
  cases t <;> rfl

theorem ver_blankHdr (size : ℕ) : (blankHdr t verMinor size).ver = verMinor.toNat := by
  rw [ImageHdr.ver, blankHdr, sealHeader]
  generalize List.replicate 212 (0 : UInt8) = rest
  simp [leBytes]

theorem bodySize_blankHdr (hsize : size < 2 ^ 32) (t' : ImageType) : (blankHdr t verMinor size).bodySize t' = size := by
  have hfield (off : ℕ) (hoff : off = 8 ∨ off = 12 ∨ off = 16 ∨ off = 20) : u32At (blankHdr t verMinor size) off = size := by
    rw [blankHdr, sealHeader]
    simp only [List.append_assoc]
    have h4 := length_leBytes 4 size
    rcases hoff with rfl | rfl | rfl | rfl
    · rw [u32At_skip 4 (length_leBytes 4 _), u32At_skip 0 rfl]
      exact u32At_leBytes (X := []) rfl hsize
    · rw [u32At_skip 8 (length_leBytes 4 _), u32At_skip 4 rfl, u32At_skip 0 h4]
      exact u32At_leBytes (X := []) rfl hsize
    · rw [u32At_skip 12 (length_leBytes 4 _), u32At_skip 8 rfl, u32At_skip 4 h4, u32At_skip 0 h4]
      exact u32At_leBytes (X := []) rfl hsize
    · rw [u32At_skip 16 (length_leBytes 4 _), u32At_skip 12 rfl, u32At_skip 8 h4, u32At_skip 4 h4, u32At_skip 0 h4]
      exact u32At_leBytes (X := []) rfl hsize
  cases t' with
  | original => exact hfield 8 (by decide)
  | originalXz => exact hfield 12 (by decide)
  | diff => exact hfield 16 (by decide)
  | diffXz => exact hfield 20 (by decide)

theorem bodyCrc32_blankHdr (size : ℕ) (t' : ImageType) :
    (blankHdr t verMinor size).bodyCrc32 t' = (lnCrc32SignleCal (blank size)).toNat := by
  have hlt := (lnCrc32SignleCal (blank size)).toNat_lt
  have hfield (off : ℕ) (hoff : off = 24 ∨ off = 28 ∨ off = 32 ∨ off = 36) :
      u32At (blankHdr t verMinor size) off = (lnCrc32SignleCal (blank size)).toNat := by
    rw [blankHdr, sealHeader]
    generalize (lnCrc32SignleCal (blank size)).toNat = c at hlt
    simp only [List.append_assoc]
    have h4 := length_leBytes 4 size
    have hc := length_leBytes 4 c
    have hskip (k : ℕ) (Y : Bytes) : u32At (leBytes 4 t.code ++ ([0, verMinor, 0, 0] ++ (leBytes 4 size ++ (leBytes 4 size ++
        (leBytes 4 size ++ (leBytes 4 size ++ Y)))))) (24 + k) = u32At Y k := by
      have hoff : 24 + k = 4 + (4 + (4 + (4 + (4 + (4 + k))))) := by omega
      rw [hoff, u32At_skip _ (length_leBytes 4 _), u32At_skip _ rfl, u32At_skip _ h4, u32At_skip _ h4, u32At_skip _ h4,
        u32At_skip _ h4]
    rcases hoff with rfl | rfl | rfl | rfl
    · rw [hskip 0]
      exact u32At_leBytes (X := []) rfl hlt
    · rw [hskip 4, u32At_skip 0 hc]
      exact u32At_leBytes (X := []) rfl hlt
    · rw [hskip 8, u32At_skip 4 hc, u32At_skip 0 hc]
      exact u32At_leBytes (X := []) rfl hlt
    · rw [hskip 12, u32At_skip 8 hc, u32At_skip 4 hc, u32At_skip 0 hc]
      exact u32At_leBytes (X := []) rfl hlt
  cases t' with
  | original => exact hfield 24 (by decide)
  | originalXz => exact hfield 28 (by decide)
  | diff => exact hfield 32 (by decide)
  | diffXz => exact hfield 36 (by decide)

/-- A partition with such a header, and erased behind it, verifies. -/
theorem verifies_blankHdr {type n m : ℕ} {info : PartitionInfo} (ht : type = partitionTypeApp ∨ type = partitionTypeOta)
    (hfetch : lnFetchPartitionInfo f type .zero = (true, info)) (hend : info.startAddr + (imageHdrSize + m) ≤ 2 ^ 32)
    (hread : readBytes f info.startAddr (imageHdrSize + m) = blankHdr t verMinor n ++ blank m) (hn : n ≤ m) :
    Verifies f type ∧ partitionHdr f type = blankHdr t verMinor n := by
  have hlen := length_blankHdr t verMinor n
  have h256 : imageHdrSize = 256 := rfl
  have hinfo : partitionInfo f type = info := by rw [partitionInfo, hfetch]
  have hhdr : partitionHdr f type = blankHdr t verMinor n := by
    rw [partitionHdr, hinfo, imageHeaderFastRead, flashRead_eq_readBytes (by omega)]
    exact readBytes_head hread hlen
  have hbody : flashRead f (info.startAddr + imageHdrSize) n = blank n := by
    have hslice := readBytes_slice f info.startAddr (imageHdrSize + m) imageHdrSize n (by omega)
    rw [flashRead_eq_readBytes (by omega), hslice, hread, List.drop_left' hlen, blank, List.take_replicate, Nat.min_eq_left hn]
    rfl
  refine ⟨?_, hhdr⟩
  rw [verifies_iff ht, hhdr, hinfo, hfetch, imageBodyVerify_none (imageType_blankHdr t verMinor n),
    bodySize_blankHdr t verMinor (by omega), bodyCrc32_blankHdr, hbody]
  simp [imageHeaderVerify_blankHdr]

end BlankHdr

def sampleApp : PartitionInfo := .ofEntry partitionTypeApp 0xA000 0x1000

def sampleOta : PartitionInfo := .ofEntry partitionTypeOta 0x20000 0x2000

/-- A device with a table and an image in each of its two partitions. -/
def sampleDevice (appImage otaImage : Bytes) : Flash :=
  deviceWith [(partitionTabBase, tableEntry partitionTypeApp 0xA000 0x1000 ++ tableEntry partitionTypeOta 0x20000 0x2000),
    (0xA000, appImage), (0x20000, otaImage)]

section Sample
variable (appImage otaImage : Bytes)

theorem layout_sampleDevice : Layout (sampleDevice appImage otaImage) sampleApp sampleOta := by
  have hself := readBytes_deviceWith_self partitionTabBase
    (tableEntry partitionTypeApp 0xA000 0x1000 ++ tableEntry partitionTypeOta 0x20000 0x2000) [(0xA000, appImage), (0x20000, otaImage)]
  rw [List.length_append, length_tableEntry, length_tableEntry, readBytes_add] at hself
  obtain ⟨hfirst, hsecond⟩ := List.append_inj hself (by rw [length_readBytes, length_tableEntry])
  have hentry0 : flashRead (sampleDevice appImage otaImage) (partitionTabBase + 0 * partitionInfoSize) partitionInfoSize =
      tableEntry partitionTypeApp 0xA000 0x1000 := by
    rw [flashRead_eq_readBytes (by decide)]
    exact hfirst
  have hentry1 : flashRead (sampleDevice appImage otaImage) (partitionTabBase + 1 * partitionInfoSize) partitionInfoSize =
      tableEntry partitionTypeOta 0x20000 0x2000 := by
    rw [flashRead_eq_readBytes (by decide)]
    exact hsecond
  constructor
  · exact fetchPartitionLoop_hit (by decide) (by decide) (by decide) (n := 255) hentry0 .zero
  · have hskip := fetchPartitionLoop_skip (by decide) (by decide) (by decide) (n := 255) hentry0
      (by decide : partitionTypeApp ≠ partitionTypeOta) (by decide) .zero
    exact hskip.trans (fetchPartitionLoop_hit (by decide) (by decide) (by decide) (n := 254) hentry1 _)
  · decide
  · decide
  · decide
  · decide

variable {appImage otaImage}

theorem readBytes_image {addr n : ℕ} {image : Bytes} (rest : List (ℕ × Bytes)) (h : image.length ≤ n)
    (hrest : readBytes (deviceWith rest) (addr + image.length) (n - image.length) = blank (n - image.length)) :
    readBytes (deviceWith ((addr, image) :: rest)) addr n = image ++ blank (n - image.length) := by
  obtain ⟨m, rfl⟩ : ∃ m, n = image.length + m := ⟨n - image.length, by omega⟩
  rw [Nat.add_sub_cancel_left] at hrest ⊢
  rw [readBytes_add, readBytes_deviceWith_self, readBytes_deviceWith_skip rest (.inr (Nat.le_refl _)), hrest]

theorem readBytes_sampleDevice_app (ha : appImage.length ≤ 0x1000) :
    readBytes (sampleDevice appImage otaImage) sampleApp.startAddr sampleApp.size =
      appImage ++ blank (0x1000 - appImage.length) := by
  have htab : (tableEntry partitionTypeApp 0xA000 0x1000 ++ tableEntry partitionTypeOta 0x20000 0x2000).length = 32 := by
    rw [List.length_append, length_tableEntry, length_tableEntry]
    rfl
  have hstart : sampleApp.startAddr = 0xA000 := rfl
  have hsize : sampleApp.size = 0x1000 := rfl
  rw [hstart, hsize, sampleDevice, readBytes_deviceWith_skip]
  · apply readBytes_image _ ha
    rw [readBytes_deviceWith_skip _ (.inl (by omega)), readBytes_deviceWith_nil]
  · right
    rw [htab]
    decide

theorem readBytes_sampleDevice_ota (ha : appImage.length ≤ 0x1000) (ho : otaImage.length ≤ 0x2000) :
    readBytes (sampleDevice appImage otaImage) sampleOta.startAddr sampleOta.size =
      otaImage ++ blank (0x2000 - otaImage.length) := by
  have htab : (tableEntry partitionTypeApp 0xA000 0x1000 ++ tableEntry partitionTypeOta 0x20000 0x2000).length = 32 := by
    rw [List.length_append, length_tableEntry, length_tableEntry]
    rfl
  have hstart : sampleOta.startAddr = 0x20000 := rfl
  have hsize : sampleOta.size = 0x2000 := rfl
  rw [hstart, hsize, sampleDevice, readBytes_deviceWith_skip, readBytes_deviceWith_skip]
  · apply readBytes_image _ ho
    exact readBytes_deviceWith_nil _ _
  · right
    omega
  · right
    rw [htab]
    decide

/-- An image with an erased body in OTA verifies. -/
theorem verifies_sampleDevice_ota {t : ImageType} {verMinor : UInt8} {n : ℕ} (ha : appImage.length ≤ 0x1000) (hn : n ≤ 7936) :
    Verifies (sampleDevice appImage (blankHdr t verMinor n)) partitionTypeOta ∧
      partitionHdr (sampleDevice appImage (blankHdr t verMinor n)) partitionTypeOta = blankHdr t verMinor n := by
  have hlen := length_blankHdr t verMinor n
  have h256 : imageHdrSize = 256 := rfl
  have hl := layout_sampleDevice appImage (blankHdr t verMinor n)
  have hread := @readBytes_sampleDevice_ota appImage (blankHdr t verMinor n) ha (by omega)
  rw [hlen] at hread
  exact verifies_blankHdr t verMinor (.inr rfl) hl.fetchOta (m := 7936) (by decide) hread hn

/-- An image with an erased body in APP verifies. -/
theorem verifies_sampleDevice_app {t : ImageType} {verMinor : UInt8} {n : ℕ} (hn : n ≤ 3840) :
    Verifies (sampleDevice (blankHdr t verMinor n) otaImage) partitionTypeApp ∧
      partitionHdr (sampleDevice (blankHdr t verMinor n) otaImage) partitionTypeApp = blankHdr t verMinor n := by
  have hlen := length_blankHdr t verMinor n
  have h256 : imageHdrSize = 256 := rfl
  have hl := layout_sampleDevice (blankHdr t verMinor n) otaImage
  have hread := @readBytes_sampleDevice_app (blankHdr t verMinor n) otaImage (by omega)
  rw [hlen] at hread
  exact verifies_blankHdr t verMinor (.inl rfl) hl.fetchApp (m := 3840) (by decide) hread hn

/-- An erased APP does not. -/
theorem not_verifies_sampleDevice (otaImage : Bytes) : ¬Verifies (sampleDevice [] otaImage) partitionTypeApp := by
  have hl := layout_sampleDevice [] otaImage
  apply hl.not_verifies_blank
  · exact readBytes_sampleDevice_app (Nat.zero_le _)
  · decide

end Sample

end Ln882x.Ota
