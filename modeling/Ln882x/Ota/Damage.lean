import Ln882x.Crc.Burst
import Ln882x.Ota.Checksum
import Ln882x.Ota.Jump
import Ln882x.Ota.Partitions

/-! Damaged images. Three checksums guard a partition: one in its entry of the table,
one in the header of the image, and one in that header for the body. Whatever they
guard, a burst of at most 32 wrong bits shows in one of them, also where it runs from
the header into the body. A partition that verified is then no longer started, nor
copied over another one. -/

namespace Ln882x.Ota

open Nor

variable {f f' : Flash} {type : ℕ}

/-! ### Statements -/

/-- The bits of a string in the order in which the checksum takes them. -/
def bitsOf (bs : Bytes) : List Bool := Crc.bits (bs.map UInt8.toBitVec)

/-- Two strings differ in at most 32 bits in a row. -/
def Damaged (x y : Bytes) : Prop := Crc.Burst 32 (bitsOf x) (bitsOf y)

/-- The length of the body that the header in a partition announces. -/
def partitionBodySize (f : Flash) (type : ℕ) : ℕ :=
  match (partitionHdr f type).imageType with
  | some t => (partitionHdr f type).bodySize t
  | none => 0

/-- `g` reads like `f`, but for a burst in the image of a partition or in its entry of the table. -/
inductive PartitionDamage (f g : Flash) (type : ℕ) : Prop
  | image (table : ∀ i < partitionCount, partitionBytes g i = partitionBytes f i)
      (burst : Damaged (flashRead f (partitionInfo f type).startAddr (imageHdrSize + partitionBodySize f type))
        (flashRead g (partitionInfo f type).startAddr (imageHdrSize + partitionBodySize f type)))
  | entry (i : ℕ) (only : ∀ j < partitionCount, j ≠ i → (partitionEntry f j).type = type → ¬EntrySealed f j)
      (table : ∀ j < partitionCount, j ≠ i → partitionBytes g j = partitionBytes f j)
      (burst : Damaged (partitionBytes f i) (partitionBytes g i))

/-! ### Records with their checksum -/

theorem msb_crc32Poly : crc32Poly.msb = true := by decide

theorem value_bitsOf (bs : Bytes) : Crc.value (bitsOf bs) = le bs := by
  induction bs with
  | nil => rfl
  | cons b bs ih =>
    have hcons : bitsOf (b :: bs) = Crc.byteBits b.toBitVec ++ bitsOf bs := rfl
    have hle : le (b :: bs) = b.toNat + 256 * le bs := Nat.ofDigits_cons
    rw [hcons, Crc.value_append, Crc.value_byteBits, ih, Crc.length_byteBits, hle]
    rfl

theorem Damaged.crc_ne {x y : Bytes} (h : Damaged x y) : lnCrc32SignleCal x ≠ lnCrc32SignleCal y := by
  intro heq
  rw [lnCrc32SignleCal_serial, lnCrc32SignleCal_serial] at heq
  have hvec := congrArg UInt32.toBitVec heq
  exact Crc.serial_burst msb_crc32Poly (by decide) h ((BitVec.xor_left_inj _).mp hvec)

/-- A record that ends with its checksum leaves one fixed remainder. -/
theorem serial_sealed {data tail : Bytes} (htail : tail.length = 4) (h : le tail = (lnCrc32SignleCal data).toNat) :
    Crc.serial crc32Poly (BitVec.allOnes 32) ((data ++ tail).map UInt8.toBitVec) =
      Crc.shiftBits crc32Poly 32 (BitVec.allOnes 32) := by
  have hcrc : BitVec.ofNat 32 (le tail) =
      Crc.serial crc32Poly (BitVec.allOnes 32) (data.map UInt8.toBitVec) ^^^ BitVec.allOnes 32 := by
    rw [h, lnCrc32SignleCal_serial, ← UInt32.toNat_toBitVec, BitVec.ofNat_toNat, BitVec.setWidth_eq]
    rfl
  have hvalue : Crc.value (Crc.bits (tail.map UInt8.toBitVec)) = le tail := value_bitsOf tail
  rw [List.map_append, Crc.serial_tail crc32Poly (by decide) _ _ _ (by simp [htail]), hvalue, hcrc, ← BitVec.xor_assoc,
    BitVec.xor_self, BitVec.zero_xor, List.length_map, htail]

/-- A damaged record does not carry its checksum. -/
theorem Damaged.unsealed {x y : Bytes} {n : ℕ} (h : Damaged x y) (hx : x.length = n + 4) (hy : y.length = n + 4)
    (hseal : u32At x n = (lnCrc32SignleCal (x.take n)).toNat) : u32At y n ≠ (lnCrc32SignleCal (y.take n)).toNat := by
  intro hseal'
  have hremainder {bs : Bytes} (hlen : bs.length = n + 4) (hs : u32At bs n = (lnCrc32SignleCal (bs.take n)).toNat) :
      Crc.serial crc32Poly (BitVec.allOnes 32) (bs.map UInt8.toBitVec) = Crc.shiftBits crc32Poly 32 (BitVec.allOnes 32) := by
    have hdrop : (bs.drop n).length = 4 := by simp [hlen]
    rw [u32At, List.take_of_length_le hdrop.le] at hs
    have hwhole := serial_sealed hdrop hs
    rwa [List.take_append_drop] at hwhole
  exact Crc.serial_burst msb_crc32Poly (by decide) h ((hremainder hx hseal).trans (hremainder hy hseal').symm)

theorem Damaged.header {h h' : ImageHdr} (hd : Damaged h h') (hlen : h.length = imageHdrSize) (hlen' : h'.length = imageHdrSize)
    (hv : imageHeaderVerify h = true) : imageHeaderVerify h' = false := by
  rw [imageHeaderVerify, decide_eq_true_iff] at hv
  rw [imageHeaderVerify, decide_eq_false_iff_not]
  exact hd.unsealed hlen hlen' hv

theorem Damaged.entry {i : ℕ} (hd : Damaged (partitionBytes f i) (partitionBytes f' i)) (hs : EntrySealed f i) :
    ¬EntrySealed f' i :=
  hd.unsealed (length_flashRead _ _ _) (length_flashRead _ _ _) hs

/-- Damage to an image is damage to its header, or else to the body behind the same header. -/
theorem Damaged.append {x x' y y' : Bytes} (h : Damaged (x ++ x') (y ++ y')) (hlen : x.length = y.length) :
    Damaged x y ∨ x = y ∧ Damaged x' y' := by
  have hbits : bitsOf (x ++ x') = bitsOf x ++ bitsOf x' := by simp [bitsOf]
  have hbits' : bitsOf (y ++ y') = bitsOf y ++ bitsOf y' := by simp [bitsOf]
  rw [Damaged, hbits, hbits'] at h
  rcases h.append (by simp [bitsOf, hlen]) with hd | ⟨heq, hd⟩
  · exact .inl hd
  · have hvec := Crc.bits_inj (by simp [hlen]) heq
    exact .inr ⟨(List.map_inj_right fun _ _ => UInt8.toBitVec_inj.mp).mp hvec, hd⟩

/-! ### Partitions -/

theorem fetchPartitionLoop_bytes (h : ∀ i < partitionCount, partitionBytes f' i = partitionBytes f i) (n i : ℕ)
    (hend : i + n ≤ partitionCount) (info : PartitionInfo) :
    fetchPartitionLoop f' type n i info = fetchPartitionLoop f type n i info := by
  induction n generalizing i info with
  | zero => rfl
  | succ n ih =>
    have hbytes : flashRead f' (partitionTabBase + i * partitionInfoSize) partitionInfoSize =
        flashRead f (partitionTabBase + i * partitionInfoSize) partitionInfoSize := h i (by omega)
    simp only [fetchPartitionLoop, hbytes, ih (i + 1) (by omega)]

/-- No entry of the type carries its checksum. -/
theorem lnFetchPartitionInfo_unsealed (h : ∀ j < partitionCount, (partitionEntry f j).type = type → ¬EntrySealed f j) (info : PartitionInfo) :
    (lnFetchPartitionInfo f type info).1 = false := by
  cases hfetch : lnFetchPartitionInfo f type info with
  | mk ok r =>
    cases ok with
    | false => rfl
    | true =>
      obtain ⟨j, hj, hseal, -⟩ := (lnFetchPartitionInfo_iff info r).mp hfetch
      exact absurd hseal (h j hj.1.1 hj.2.1)

theorem PartitionDamage.not_verifies (hd : PartitionDamage f f' type) (ht : type = partitionTypeApp ∨ type = partitionTypeOta)
    (hv : Verifies f type) : ¬Verifies f' type := by
  intro hv'
  obtain ⟨htab, hhdr, hbody⟩ := (verifies_iff ht).mp hv
  obtain ⟨htab', hhdr', hbody'⟩ := (verifies_iff ht).mp hv'
  cases hd with
  | image table burst =>
    have hinfo : partitionInfo f' type = partitionInfo f type := by
      have hfetch : lnFetchPartitionInfo f' type .zero = lnFetchPartitionInfo f type .zero :=
        fetchPartitionLoop_bytes table _ 0 (Nat.zero_add _).le _
      rw [partitionInfo, partitionInfo, hfetch]
    rw [flashRead_add, flashRead_add] at burst
    rcases burst.append (by simp) with hburst | ⟨hsame, hburst⟩
    · have hverdict := hburst.header (length_flashRead _ _ _) (length_flashRead _ _ _) hhdr
      rw [partitionHdr, hinfo] at hhdr'
      exact absurd hhdr' (ne_true_of_eq_false hverdict)
    · have hhdrs : partitionHdr f' type = partitionHdr f type := by
        rw [partitionHdr, hinfo]
        exact hsame.symm
      rw [hhdrs, hinfo] at hbody'
      cases htype : (partitionHdr f type).imageType with
      | none =>
        rw [imageBodyVerify, htype] at hbody
        cases hbody
      | some t =>
        have hsize : partitionBodySize f type = (partitionHdr f type).bodySize t := by
          rw [partitionBodySize, htype]
        rw [imageBodyVerify_none htype, ← hsize] at hbody hbody'
        exact hburst.crc_ne (UInt32.toNat_inj.mp (hbody.trans hbody'.symm))
  | entry i only table burst =>
    have hsealed : EntrySealed f i := by
      obtain ⟨j, hj, hseal, -⟩ := (lnFetchPartitionInfo_iff .zero (partitionInfo f type)).mp (Prod.ext htab rfl)
      by_cases hji : j = i
      · exact hji ▸ hseal
      · exact absurd hseal (only j hj.1.1 hji hj.2.1)
    rw [lnFetchPartitionInfo_unsealed] at htab'
    · cases htab'
    · intro j hlt hj
      by_cases hji : j = i
      · subst hji
        exact burst.entry hsealed
      · rw [partitionEntry, table j hlt hji] at hj
        rw [EntrySealed, partitionEntry, table j hlt hji]
        exact only j hlt hji hj

/-- A burst of at most 32 wrong bits in an image that verified, or in its entry of the table, takes it
out of use whatever the upgrade state is: a damaged application is not started unless the other
image has first been restored over it, and a damaged download is not restored. -/
theorem agentRun_damaged (p : UpgPort) (ht : type = partitionTypeApp ∨ type = partitionTypeOta) (hv : Verifies f type)
    (hd : PartitionDamage f f' type) :
    ¬Verifies f' type ∧
      (type = partitionTypeApp → ∀ addr ret, (agentRun p f').1 = .jumped addr ret → Restores p f') ∧
      (type = partitionTypeOta → (agentRun p f').2.flash = f') := by
  have hnot := hd.not_verifies ht hv
  refine ⟨hnot, ?_, ?_⟩
  · rintro rfl addr ret hjump
    by_contra hr
    have hkept := agentRun_kept hr
    obtain ⟨hstarted, -⟩ := agentRun_verified p f' addr ret hjump
    rw [hkept.flash_eq] at hstarted
    exact hnot hstarted
  · rintro rfl
    exact (agentRun_kept fun hr => hnot hr.2.1).flash_eq

/-- A byte of a driver read that is no longer what it was. -/
theorem damaged_update {a k n : ℕ} {v : UInt8} (hend : a + n ≤ 2 ^ 32) (hk : k < n) (hv : f (a + k) ≠ v) :
    Damaged (flashRead f a n) (flashRead (Function.update f (a + k) v) a n) := by
  have hat (g : Flash) {i : ℕ} (hi : i < n) : (flashRead g a n)[i]? = some (g (a + i)) := by
    rw [flashRead_eq_readBytes hend, getElem?_readBytes _ _ _ _ hi]
  have hbyte : Crc.Burst 4 (flashRead f a n) (flashRead (Function.update f (a + k) v) a n) := by
    refine ⟨?_, by simp, k, ?_⟩
    · intro heq
      have hsame := congrArg (·[k]?) heq
      simp only [hat _ hk, Function.update_self] at hsame
      exact hv (Option.some.inj hsame)
    · intro i hi
      by_cases hin : i < n
      · rw [hat _ hin, hat _ hin] at hi
        by_cases hik : i = k
        · omega
        · rw [Function.update_of_ne (by omega)] at hi
          exact absurd rfl hi
      · simp [Nat.le_of_not_lt hin] at hi
  exact (hbyte.map fun _ _ => UInt8.toBitVec_inj.mp).ofBytes

theorem agentRun_damaged_header :
    ¬Verifies (Function.update (sampleDevice (blankHdr .original 0 0) []) (0xA000 + 16)
      (sampleDevice (blankHdr .original 0 0) [] (0xA000 + 16) + 1)) partitionTypeApp := by
  obtain ⟨hv, hhdr⟩ := @verifies_sampleDevice_app [] .original 0 0 (by decide)
  have hinfo : partitionInfo (sampleDevice (blankHdr .original 0 0) []) partitionTypeApp = sampleApp := by
    rw [partitionInfo, (layout_sampleDevice _ _).fetchApp]
  have hsize : partitionBodySize (sampleDevice (blankHdr .original 0 0) []) partitionTypeApp = 0 := by
    rw [partitionBodySize, hhdr, imageType_blankHdr]
    exact bodySize_blankHdr .original 0 (by decide) .original
  refine (agentRun_damaged ⟨none, true⟩ (.inl rfl) hv (.image ?_ ?_)).1
  · intro i hi
    have hcount : partitionCount = 256 := rfl
    have hbase : partitionTabBase = 0x9000 := rfl
    have hinfoSize : partitionInfoSize = 16 := rfl
    apply flashRead_congr
    intro j hj
    rw [hbase, hinfoSize] at *
    rw [Function.update_of_ne (by omega)]
  · rw [hinfo, hsize]
    have hstart : sampleApp.startAddr = 0xA000 := rfl
    rw [hstart]
    exact damaged_update (by decide) (by decide) (by simp)

end Ln882x.Ota
