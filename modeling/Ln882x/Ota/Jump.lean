import Ln882x.Ota.Layout

/-! What the agent starts. Every jump follows a verification of the APP partition,
and the flash is not changed between the two. But the verification takes an image
of any of the four types, while only the body of an original image is code. -/

namespace Ln882x.Ota

open Nor

variable {f g : Flash} {p : UpgPort} {a : Agent}

/-! ### Statements -/

/-- The table names an APP partition with an original image whose checksums are right, and
`addr` is the first byte of its body. -/
structure Startable (f : Flash) (addr : ℕ) : Prop where
  table : (lnFetchPartitionInfo f partitionTypeApp .zero).1 = true
  header : imageHeaderVerify (partitionHdr f partitionTypeApp) = true
  original : (partitionHdr f partitionTypeApp).imageType = some .original
  body : (lnCrc32SignleCal (flashRead f addr (partitionHdr f partitionTypeApp).imgSizeOrig)).toNat =
    (partitionHdr f partitionTypeApp).imgCrc32Orig
  addr_eq : addr = (partitionInfo f partitionTypeApp).bodyOffset

/-- Whatever the upgrade state is and whether or not it can be read and written, what the agent
starts is startable at that moment. -/
def JumpsSafely (f : Flash) : Prop :=
  ∀ p addr ret, (agentRun p f).1 = .jumped addr ret → Startable (agentRun p f).2.flash addr

/-- No compressed or differential image passes for the application. -/
def OriginalApp (f : Flash) : Prop :=
  Verifies f partitionTypeApp → (partitionHdr f partitionTypeApp).imageType = some .original

/-- The agent restores the OTA image once it is marked as downloaded. -/
def Upgradable (f : Flash) : Prop :=
  Verifies f partitionTypeOta ∧
    (Verifies f partitionTypeApp → (partitionHdr f partitionTypeApp).ver < (partitionHdr f partitionTypeOta).ver)

/-- APP has an address for each byte of a header, and neither its erasure nor a body of `n` bytes in
it reaches the partition table. -/
def KeepsTable (app : PartitionInfo) (n : ℕ) : Prop :=
  app.startAddr + imageHdrSize ≤ 2 ^ 32 ∧ ∀ i < max app.size (imageHdrSize + n),
    (app.startAddr + i) % 2 ^ 32 < partitionTabBase ∨ partitionTabBase + partitionTabSize ≤ (app.startAddr + i) % 2 ^ 32

/-- The images that can be restored keep off the partition table. -/
def RestoreKeepsTable (f : Flash) : Prop :=
  ((partitionHdr f partitionTypeOta).imageType = some .original →
    KeepsTable (partitionInfo f partitionTypeApp) (partitionHdr f partitionTypeOta).imgSizeOrig) ∧
  ((partitionHdr f partitionTypeOta).imageType = some .originalXz →
    KeepsTable (partitionInfo f partitionTypeApp) (xzRestoredOta f).2.2.2.length)

/-! ### Programming clears bits -/

theorem le_mono {xs ys : Bytes} (hlen : xs.length = ys.length) (h : ∀ (i : ℕ) (x y : UInt8), xs[i]? = some x → ys[i]? = some y → x ≤ y) :
    le xs ≤ le ys := by
  induction xs generalizing ys with
  | nil => rw [List.length_eq_zero_iff.mp hlen.symm]
  | cons x xs ih =>
    cases ys with
    | nil => exact absurd hlen (by simp)
    | cons y ys =>
      have hhead : x.toNat ≤ y.toNat := h 0 x y rfl rfl
      have htail : le xs ≤ le ys := by
        apply ih (by simpa using hlen)
        intro i x' y' hx hy
        exact h (i + 1) x' y' hx hy
      have hcons (b : UInt8) (bs : Bytes) : le (b :: bs) = b.toNat + 256 * le bs := Nat.ofDigits_cons
      rw [hcons, hcons]
      omega

theorem program_le (addr : ℕ) (data : Bytes) (f : Flash) (x : ℕ) : (Op.program addr data).apply f x ≤ f x := by
  simp only [Op.apply]
  split_ifs
  · exact UInt8.and_le_left
  · exact UInt8.le_refl _

theorem pieces_le (addr : ℕ) (ds : List Bytes) (f : Flash) (x : ℕ) : applyAll (pieces addr ds) f x ≤ f x := by
  induction ds generalizing addr f with
  | nil => exact UInt8.le_refl _
  | cons d ds ih => exact UInt8.le_trans (ih _ _) (program_le addr d f x)

/-- A header that is programmed over, now or later, names no larger type. -/
theorem u32At_pieces_le (addr : ℕ) {start : ℕ} (ds : List Bytes) {hdr : ImageHdr} (hlen : hdr.length = imageHdrSize)
    (h : start + imageHdrSize ≤ 2 ^ 32) (f : Flash) :
    u32At (flashRead (applyAll (pieces addr ds) ((Op.program start hdr).apply f)) start imageHdrSize) 0 ≤ u32At hdr 0 := by
  have h256 : imageHdrSize = 256 := rfl
  apply le_mono
  · simp [hlen]
  · intro i x y hx hy
    have hi : i < 4 := (List.getElem?_eq_some_iff.mp hy).1.trans_le (by simp)
    rw [List.drop_zero, List.getElem?_take_of_lt hi] at hx hy
    rw [flashRead_eq_readBytes h, getElem?_readBytes _ _ _ _ (by omega), Option.some_inj] at hx
    obtain ⟨hi', rfl⟩ := List.getElem?_eq_some_iff.mp hy
    have hle := pieces_le addr ds ((Op.program start hdr).apply f) (start + i)
    rw [hx, program_inside hi'] at hle
    exact UInt8.le_trans hle UInt8.and_le_right

theorem imageType_of_le {h : ImageHdr} (hle : u32At h 0 ≤ 1) (hsome : h.imageType ≠ none) : h.imageType = some .original := by
  rw [ImageHdr.imageType] at hsome ⊢
  rcases Nat.le_one_iff_eq_zero_or_eq_one.mp hle with h0 | h1
  · rw [h0] at hsome
    exact absurd rfl hsome
  · rw [h1]
    rfl

theorem u32At_original {h : ImageHdr} (ht : h.imageType = some .original) : u32At h 0 = 1 := by
  unfold ImageHdr.imageType at ht
  split at ht
  · assumption
  all_goals exact nomatch ht

/-! ### Verified and original -/

/-- An image that verifies is of one of the types. -/
theorem Verifies.imageType_ne {type : ℕ} (ht : type = partitionTypeApp ∨ type = partitionTypeOta) (hv : Verifies f type) :
    (partitionHdr f type).imageType ≠ none := by
  intro hnone
  obtain ⟨-, -, hbody⟩ := (verifies_iff ht).mp hv
  rw [imageBodyVerify, hnone] at hbody
  cases hbody

theorem startable_bodyOffset (hv : Verifies f partitionTypeApp) :
    Startable f (partitionInfo f partitionTypeApp).bodyOffset ↔ (partitionHdr f partitionTypeApp).imageType = some .original := by
  constructor
  · exact fun h => h.original
  · intro ht
    obtain ⟨htab, hhdr, hbody⟩ := (verifies_iff (.inl rfl)).mp hv
    rw [imageBodyVerify_none ht, ← flashRead_mod] at hbody
    exact ⟨htab, hhdr, ht, hbody, rfl⟩

/-- A restore that keeps off the table leaves an original image in APP, or none. -/
theorem Rewritten.originalApp {hdr : ImageHdr} {ds : List Bytes} (hr : Rewritten f hdr ds a) (hlen : hdr.length = imageHdrSize)
    (ht : hdr.imageType = some .original) (hk : KeepsTable (partitionInfo f partitionTypeApp) ds.flatten.length) :
    OriginalApp a.flash := by
  intro hv
  obtain ⟨hend, hout⟩ := hk
  have h256 : imageHdrSize = 256 := rfl
  have htab : ∀ x, partitionTabBase ≤ x → x < partitionTabBase + partitionTabSize → a.flash x = f x := by
    intro x h0 h1
    have hx : x < 2 ^ 32 := h1.trans (by decide)
    rw [hr.flash]
    apply applyAll_outside
    intro o ho
    by_contra hin
    rw [restoreOps, List.mem_cons, List.mem_cons] at ho
    rcases ho with rfl | rfl | ho
    · simp only [Op.addr, Op.len] at hin
      have hx' := hout (x - (partitionInfo f partitionTypeApp).startAddr) (by omega)
      rw [Nat.add_sub_cancel' (by omega), Nat.mod_eq_of_lt hx] at hx'
      omega
    · simp only [Op.addr, Op.len] at hin
      have hx' := hout (x - (partitionInfo f partitionTypeApp).startAddr) (by omega)
      rw [Nat.add_sub_cancel' (by omega), Nat.mod_eq_of_lt hx] at hx'
      omega
    · obtain ⟨off, d, rfl, hle, -⟩ := mem_pieces (Nat.mod_lt _ (by decide)) ho
      simp only [Op.addr, Op.len, Nat.mod_add_mod] at hin
      have hx' := hout (imageHdrSize + off + (x - ((partitionInfo f partitionTypeApp).startAddr + imageHdrSize + off) % 2 ^ 32))
        (by omega)
      omega
  have hinfo : partitionInfo a.flash partitionTypeApp = partitionInfo f partitionTypeApp := by
    rw [partitionInfo, partitionInfo, lnFetchPartitionInfo_congr htab]
  apply imageType_of_le _ (hv.imageType_ne (.inl rfl))
  rw [partitionHdr, hinfo, hr.flash, restoreOps, applyAll_cons, applyAll_cons]
  have hle := u32At_pieces_le (partitionInfo f partitionTypeApp).bodyOffset ds hlen hend
    ((Op.erase (partitionInfo f partitionTypeApp).startAddr (partitionInfo f partitionTypeApp).size).apply f)
  rw [u32At_original ht] at hle
  exact hle

/-! ### Every jump -/

-- no proof below walks the table or decodes
attribute [local irreducible] lnFetchPartitionInfo verifyTotalImgPartition xzDecompressBufToBuf

/-- Every jump goes to an application that verifies. -/
def Verified (r : Exit × Agent) : Prop :=
  ∀ addr ret, r.1 = .jumped addr ret →
    Verifies r.2.flash partitionTypeApp ∧ addr = (partitionInfo r.2.flash partitionTypeApp).bodyOffset

theorem finishRestore_verified (p : UpgPort) (a : Agent) : Verified (finishRestore p a) := by
  intro addr ret hjump
  by_cases h : Verifies a.flash partitionTypeApp ∧ p.setOk = true
  · rw [(finishRestore_started h.1 h.2).1] at hjump
    rw [finishRestore_flash]
    exact ⟨h.1, (Exit.jumped.inj hjump).1.symm⟩
  · obtain ⟨⟨e, he⟩, -⟩ := finishRestore_failed h
    rw [he] at hjump
    exact nomatch hjump

theorem Kept.verified {r : Exit × Agent} (h : Kept f r) : Verified r := by
  intro addr ret hjump
  cases h with
  | failed e hf ha hx => exact nomatch hjump
  | started ret hv hf ha hx =>
    rw [hf]
    exact ⟨hv, (Exit.jumped.inj hjump).1.symm⟩
  | marked hv hf ha hx =>
    rw [hf]
    exact ⟨hv, (Exit.jumped.inj hjump).1.symm⟩

theorem Restored.verified {r : Exit × Agent} (h : Restored p f r) : Verified r := by
  cases h with
  | unsupported e ht htx hf ha hx =>
    intro addr ret hjump
    exact nomatch hjump
  | original ht hr hlen hbody hx => exact finishRestore_verified p _
  | broken ht he hr hbody hx =>
    intro addr ret hjump
    exact nomatch hjump
  | decoded ht he hr hbody hx => exact finishRestore_verified p _

theorem agentRun_verified (p : UpgPort) (f : Flash) : Verified (agentRun p f) := by
  by_cases h : Restores p f
  · exact (agentRun_restored h).verified
  · exact (agentRun_kept h).verified

theorem Kept.flash_eq {r : Exit × Agent} (h : Kept f r) : r.2.flash = f := by
  cases h with
  | failed e hf ha hx => exact hf
  | started ret hv hf ha hx => exact hf
  | marked hv hf ha hx => exact hf

/-- What a restore starts is of type original. -/
theorem Restored.originalApp {r : Exit × Agent} (h : Restored p f r) (hk : RestoreKeepsTable f) {addr : ℕ}
    {ret : Option OtaErr} (hjump : r.1 = .jumped addr ret) : OriginalApp r.2.flash := by
  have hlen := length_partitionHdr f partitionTypeOta
  cases h with
  | unsupported e ht htx hf ha hx => exact nomatch hjump
  | broken ht he hr hbody hx => exact nomatch hjump
  | original ht hr hlen' hbody hx =>
    rw [finishRestore_flash]
    exact hr.originalApp hlen ht (by rw [hlen']; exact hk.1 ht)
  | decoded ht he hr hbody hx =>
    rw [finishRestore_flash]
    exact hr.originalApp (length_asOriginal hlen) (imageType_asOriginal _) (by rw [hbody]; exact hk.2 ht)

/-- Without an upgrade state the application is verified and started. -/
theorem agentRun_unset (hv : Verifies f partitionTypeApp) : ∃ addr, (agentRun ⟨none, true⟩ f).1 = .jumped addr none := by
  have hnone : (Agent.boot f).verifyApp.1 = none := (verifyApp_none (.boot f)).mpr hv
  use (Agent.boot f).verifyApp.2.appBodyOffset
  rw [agentRun_other (Option.some_ne_none _).symm]
  unfold bootApp
  dsimp only
  rw [hnone]

theorem JumpsSafely.originalApp (h : JumpsSafely f) : OriginalApp f := by
  intro hv
  obtain ⟨addr, hjump⟩ := agentRun_unset hv
  have hkept := agentRun_kept (p := ⟨none, true⟩) (f := f) (fun hr => nomatch hr.1)
  have hstart := h _ addr none hjump
  rw [hkept.flash_eq] at hstart
  exact hstart.original

end Ln882x.Ota
