import Ln882x.Crc.Reflected
import Ln882x.Ota.Verify

/-! The checksum of `components/utils/crc32.c` is CRC-32. Its table holds the
remainders of the bytes under the reflected polynomial, so the two loops over the
table compute the bit-serial remainder: the one that goes on from piece to piece
and the one over a whole string. The verification of an image body then compares
the CRC-32 of the bytes that the image type selects. -/

namespace Ln882x.Ota

open Nor

/-- The reflected polynomial. -/
def crc32Poly : BitVec 32 := 0xEDB88320#32

/-- CRC-32 bit by bit. -/
def bitSerialCrc32 (data : Bytes) : UInt32 :=
  ⟨Crc.serial crc32Poly (BitVec.allOnes 32) (data.map UInt8.toBitVec) ^^^ BitVec.allOnes 32⟩

/-- The loop of `ln_crc32_signle_cal` at `ptr` with `len` to go; `len` is an `int`. -/
def crc32SignleLoop : Bytes → ℤ → UInt32 → UInt32
  | [], _, crc => crc
  | b :: ptr, len, crc => if 0 < len then crc32SignleLoop ptr (len - 1) (crc32SignleByte crc b) else crc

/-- `ln_crc32_signle_cal` on the first `len` bytes at `ptr`. -/
def lnCrc32SignleCalLen (ptr : Bytes) (len : ℤ) : UInt32 := crc32SignleLoop ptr len 0xFFFFFFFF ^^^ 0xFFFFFFFF

theorem crc32SignleLoop_eq (ptr : Bytes) (len : ℤ) (crc : UInt32) :
    crc32SignleLoop ptr len crc = (ptr.take len.toNat).foldl crc32SignleByte crc := by
  induction ptr generalizing len crc with
  | nil => rw [crc32SignleLoop, List.take_nil, List.foldl_nil]
  | cons b ptr ih =>
    rw [crc32SignleLoop]
    by_cases hlen : 0 < len
    · have hsucc : len.toNat = (len - 1).toNat + 1 := by omega
      rw [if_pos hlen, ih, hsucc, List.take_succ_cons, List.foldl_cons]
    · have hzero : len.toNat = 0 := by omega
      rw [if_neg hlen, hzero, List.take_zero, List.foldl_nil]

theorem lnCrc32SignleCalLen_eq (ptr : Bytes) (len : ℤ) :
    lnCrc32SignleCalLen ptr len = lnCrc32SignleCal (ptr.take len.toNat) := by
  rw [lnCrc32SignleCalLen, crc32SignleLoop_eq, lnCrc32SignleCal]

/-! ### The table -/

/-- The entries of the table, one after the other. -/
theorem crc32Table_remainders :
    ∀ i : Fin 256, (crc32Table.getD i.val 0).toBitVec = Crc.shiftBits crc32Poly 8 (BitVec.ofNat 32 i.val) := by
  decide +kernel

theorem crc32Entry_remainder (i : BitVec 8) :
    (crc32Table.getD i.toNat 0).toBitVec = Crc.shiftBits crc32Poly 8 (i.setWidth 32) := by
  have h := crc32Table_remainders ⟨i.toNat, i.isLt⟩
  rwa [BitVec.ofNat_toNat] at h

/-- One byte of the update is one byte of the bit-serial remainder. -/
theorem crc32UpdateByte_serial (crc : UInt32) (b : UInt8) :
    (crc32UpdateByte crc b).toBitVec = Crc.serialByte crc32Poly crc.toBitVec b.toBitVec := by
  have hindex : ((crc &&& 0xFF) ^^^ b.toUInt32).toNat = (crc.toBitVec.setWidth 8 ^^^ b.toBitVec).toNat := by
    have hmask : (0xFF : UInt32).toNat = 2 ^ 8 - 1 := rfl
    rw [UInt32.toNat_xor, UInt32.toNat_and, hmask, Nat.and_two_pow_sub_one_eq_mod, UInt8.toNat_toUInt32,
      BitVec.toNat_xor, BitVec.toNat_setWidth, UInt32.toNat_toBitVec, UInt8.toNat_toBitVec]
  rw [Crc.serialByte_table crc32Poly crc32Entry_remainder (by decide), crc32UpdateByte, crc32Entry, hindex,
    UInt32.toBitVec_xor, UInt32.toBitVec_shiftRight]
  rfl

theorem lnCrc32Update_serial (data : Bytes) (crc : UInt32) :
    (lnCrc32Update crc data).toBitVec = Crc.serial crc32Poly crc.toBitVec (data.map UInt8.toBitVec) := by
  induction data generalizing crc with
  | nil => rfl
  | cons b data ih =>
    show (lnCrc32Update (crc32UpdateByte crc b) data).toBitVec = _
    rw [ih, crc32UpdateByte_serial]
    rfl

theorem lnCrc32SignleCal_serial (data : Bytes) : lnCrc32SignleCal data = bitSerialCrc32 data := by
  apply UInt32.toBitVec_inj.mp
  rw [lnCrc32SignleCal_eq, lnCrc32Final, UInt32.toBitVec_xor, lnCrc32Update_serial]
  rfl

/-- The pieces of a string leave what the string leaves. -/
theorem foldl_lnCrc32Update (pieces : List Bytes) (crc : UInt32) :
    pieces.foldl lnCrc32Update crc = lnCrc32Update crc pieces.flatten := by
  induction pieces generalizing crc with
  | nil => rfl
  | cons piece pieces ih => rw [List.foldl_cons, ih, List.flatten_cons, lnCrc32Update_append]

/-! ### Agreement -/

/-- The checksum over pieces, the one over the whole string and CRC-32 agree, and a
body verifies when its CRC-32 is the one its header states for the image type. -/
theorem crc32_agree :
    (∀ pieces : List Bytes,
      lnCrc32Final (pieces.foldl lnCrc32Update lnCrc32Init) =
        lnCrc32SignleCalLen pieces.flatten pieces.flatten.length ∧
      lnCrc32SignleCalLen pieces.flatten pieces.flatten.length = bitSerialCrc32 pieces.flatten) ∧
    ∀ (f : Flash) (startAddr : ℕ) (h : ImageHdr), imageBodyVerify f startAddr h = none ↔
      ∃ t, h.imageType = some t ∧
        (bitSerialCrc32 (flashRead f (startAddr + imageHdrSize) (h.bodySize t))).toNat = h.bodyCrc32 t := by
  constructor
  · intro pieces
    have hwhole : lnCrc32SignleCalLen pieces.flatten pieces.flatten.length = lnCrc32SignleCal pieces.flatten := by
      rw [lnCrc32SignleCalLen_eq, Int.toNat_natCast, List.take_length]
    constructor
    · rw [hwhole, lnCrc32SignleCal_eq, foldl_lnCrc32Update]
    · rw [hwhole, lnCrc32SignleCal_serial]
  · intro f startAddr h
    cases ht : h.imageType with
    | none =>
      rw [imageBodyVerify, ht]
      apply iff_of_false (Option.some_ne_none _)
      rintro ⟨_, hsome, _⟩
      cases hsome
    | some t =>
      rw [imageBodyVerify_none ht, lnCrc32SignleCal_serial]
      constructor
      · intro heq
        exact ⟨t, rfl, heq⟩
      · rintro ⟨t', hsome, heq⟩
        cases hsome
        exact heq

end Ln882x.Ota
