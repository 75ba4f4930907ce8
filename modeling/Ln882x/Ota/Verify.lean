import Ln882x.Ota.Image

/-! What the verification of an image says: the checksum over segments is the
checksum of the bytes in flash. -/

namespace Ln882x.Ota

open Nor

variable {f g : Flash}

/-! ### Driver reads -/

@[simp] theorem length_flashRead (f : Flash) (offset len : ℕ) : (flashRead f offset len).length = len := by
  simp [flashRead]

theorem flashRead_add (f : Flash) (offset m n : ℕ) :
    flashRead f offset (m + n) = flashRead f offset m ++ flashRead f (offset + m) n := by
  unfold flashRead
  rw [List.range_add, List.map_append, List.map_map]
  congr 2
  funext i
  rw [Function.comp_apply, Nat.add_assoc]

theorem flashRead_mod (f : Flash) (offset len : ℕ) : flashRead f (offset % 2 ^ 32) len = flashRead f offset len := by
  unfold flashRead
  congr 1
  funext i
  rw [Nat.mod_add_mod]

theorem flashRead_of_mod {a b : ℕ} (h : a % 2 ^ 32 = b % 2 ^ 32) (len : ℕ) : flashRead f a len = flashRead f b len := by
  rw [← flashRead_mod, h, flashRead_mod]

theorem flashRead_eq_readBytes {offset len : ℕ} (h : offset + len ≤ 2 ^ 32) :
    flashRead f offset len = readBytes f offset len := by
  unfold flashRead readBytes
  rw [List.range'_eq_map_range, List.map_map]
  apply List.map_congr_left
  intro i hi
  rw [List.mem_range] at hi
  rw [Function.comp_apply, Nat.mod_eq_of_lt (by omega)]

/-- A read takes the same bytes from two devices that agree where it reads. -/
theorem flashRead_congr {offset len : ℕ} (h : ∀ i < len, f ((offset + i) % 2 ^ 32) = g ((offset + i) % 2 ^ 32)) :
    flashRead f offset len = flashRead g offset len := by
  unfold flashRead
  apply List.map_congr_left
  intro i hi
  exact h i (List.mem_range.mp hi)

/-! ### The checksum -/

theorem crc32SignleByte_eq (crc : UInt32) (b : UInt8) : crc32SignleByte crc b = crc32UpdateByte crc b := by
  have hshift : (crc >>> 8) &&& (0x00FFFFFF : UInt32) = crc >>> 8 := by
    apply UInt32.toNat_inj.mp
    rw [UInt32.toNat_and, UInt32.toNat_shiftRight]
    have hlt := crc.toNat_lt
    have hmask : (0x00FFFFFF : UInt32).toNat = 2 ^ 24 - 1 := rfl
    have hquot : crc.toNat >>> ((8 : UInt32).toNat % 32) < 2 ^ 24 := by
      have h8 : (8 : UInt32).toNat % 32 = 8 := rfl
      rw [h8, Nat.shiftRight_eq_div_pow]
      omega
    rw [hmask, Nat.and_two_pow_sub_one_of_lt_two_pow hquot]
  have hindex : (crc ^^^ b.toUInt32) &&& (0xFF : UInt32) = (crc &&& 0xFF) ^^^ b.toUInt32 := by
    apply UInt32.toNat_inj.mp
    simp only [UInt32.toNat_and, UInt32.toNat_xor, UInt8.toNat_toUInt32]
    have hb := b.toNat_lt
    have hmask : (0xFF : UInt32).toNat = 2 ^ 8 - 1 := rfl
    rw [hmask, Nat.and_xor_distrib_right, Nat.and_two_pow_sub_one_of_lt_two_pow hb]
  rw [crc32SignleByte, crc32UpdateByte, hshift, hindex]

theorem lnCrc32SignleCal_eq (data : Bytes) :
    lnCrc32SignleCal data = lnCrc32Final (lnCrc32Update lnCrc32Init data) := by
  have hstep : crc32SignleByte = crc32UpdateByte := by
    funext crc b
    exact crc32SignleByte_eq crc b
  rw [lnCrc32SignleCal, hstep]
  rfl

theorem lnCrc32Update_append (crc : UInt32) (xs ys : Bytes) :
    lnCrc32Update crc (xs ++ ys) = lnCrc32Update (lnCrc32Update crc xs) ys := List.foldl_append

theorem bodyVerifyLoop_eq (f : Flash) (n offset : ℕ) (crc : UInt32) :
    (bodyVerifyLoop f n offset crc).1 = lnCrc32Update crc (flashRead f offset (n * tempBufLen)) ∧
      (bodyVerifyLoop f n offset crc).2 % 2 ^ 32 = (offset + n * tempBufLen) % 2 ^ 32 := by
  induction n generalizing offset crc with
  | zero => simp [bodyVerifyLoop, flashRead, lnCrc32Update]
  | succ n ih =>
    obtain ⟨h1, h2⟩ := ih ((offset + tempBufLen) % 2 ^ 32) (lnCrc32Update crc (flashRead f offset tempBufLen))
    have hsize : (n + 1) * tempBufLen = tempBufLen + n * tempBufLen := by rw [Nat.succ_mul, Nat.add_comm]
    rw [bodyVerifyLoop, h1, h2, flashRead_mod, hsize, flashRead_add, lnCrc32Update_append, Nat.mod_add_mod, Nat.add_assoc]
    exact ⟨rfl, rfl⟩

/-- The checksum of a body, segment by segment, is that of its bytes. -/
theorem bodyCrc_eq (f : Flash) (startAddr size : ℕ) :
    bodyCrc f startAddr size = lnCrc32SignleCal (flashRead f (startAddr + imageHdrSize) size) := by
  obtain ⟨h1, h2⟩ := bodyVerifyLoop_eq f (size / tempBufLen) ((startAddr + imageHdrSize) % 2 ^ 32) lnCrc32Init
  have hsize : size / tempBufLen * tempBufLen + size % tempBufLen = size := Nat.div_add_mod' size tempBufLen
  have hoff : (bodyVerifyLoop f (size / tempBufLen) ((startAddr + imageHdrSize) % 2 ^ 32) lnCrc32Init).2 % 2 ^ 32 =
      (startAddr + imageHdrSize + size / tempBufLen * tempBufLen) % 2 ^ 32 := by
    rw [h2, Nat.mod_add_mod]
  unfold bodyCrc
  dsimp only
  rw [h1, flashRead_mod, flashRead_of_mod hoff, ← lnCrc32Update_append, ← flashRead_add, hsize, lnCrc32SignleCal_eq]

theorem imageBodyVerify_none {h : ImageHdr} {t : ImageType} (ht : h.imageType = some t) (f : Flash) (startAddr : ℕ) :
    imageBodyVerify f startAddr h = none ↔
      (lnCrc32SignleCal (flashRead f (startAddr + imageHdrSize) (h.bodySize t))).toNat = h.bodyCrc32 t := by
  rw [imageBodyVerify, ht]
  dsimp only
  rw [bodyCrc_eq]
  by_cases heq : (lnCrc32SignleCal (flashRead f (startAddr + imageHdrSize) (h.bodySize t))).toNat = h.bodyCrc32 t
  · rw [if_pos heq]
    exact iff_of_true rfl heq
  · rw [if_neg heq]
    exact iff_of_false (Option.some_ne_none _) heq

/-! ### Records with a checksum -/

/-- An image header with its checksum. -/
def sealHeader (h : Bytes) : Bytes := h ++ leBytes 4 (lnCrc32SignleCal h).toNat

theorem u32At_lt (bs : Bytes) (off : ℕ) : u32At bs off < 2 ^ 32 := le_lt (List.length_take_le 4 _)

/-- A number where it was put. -/
theorem u32At_leBytes {X Y : Bytes} {off v : ℕ} (hoff : X.length = off) (hv : v < 2 ^ 32) :
    u32At (X ++ (leBytes 4 v ++ Y)) off = v := by
  rw [u32At, List.drop_left' hoff, List.take_left' (length_leBytes 4 v), le_leBytes 4 v hv]

/-- The number behind another one. -/
theorem u32At_skip {X Y : Bytes} (off : ℕ) (hX : X.length = 4) : u32At (X ++ Y) (4 + off) = u32At Y off := by
  rw [u32At, u32At, ← hX, List.drop_length_add_append]

theorem headerCrc32_sealHeader {h : Bytes} (hlen : h.length = imageHdrSize - 4) :
    ImageHdr.headerCrc32 (sealHeader h) = (lnCrc32SignleCal h).toNat := by
  have hseal : sealHeader h = h ++ (leBytes 4 (lnCrc32SignleCal h).toNat ++ []) := by rw [List.append_nil, sealHeader]
  rw [ImageHdr.headerCrc32, hseal]
  exact u32At_leBytes hlen (lnCrc32SignleCal h).toNat_lt

/-- A sealed header verifies. -/
theorem imageHeaderVerify_sealHeader {h : Bytes} (hlen : h.length = imageHdrSize - 4) :
    imageHeaderVerify (sealHeader h) = true := by
  rw [imageHeaderVerify, headerCrc32_sealHeader hlen, sealHeader, List.take_left' hlen]
  exact decide_eq_true rfl

end Ln882x.Ota
