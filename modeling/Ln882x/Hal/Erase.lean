import Ln882x.Hal.Chip

/-! Erasing a range. `FLASH_Erase` runs 4 KB sectors up to the next 32 KB boundary,
then 32 KB blocks, then 4 KB sectors; its transactions make the chip erase a tiling of
the request. `ExFlash_Erase` takes the largest units first from wherever the request
starts, so its erases tile the request only when the start is on a boundary of the
largest unit it uses; otherwise the first erase clears bytes in front. -/

namespace Ln882x.Hal

open Nor

/-! ### The internal flash -/

def falshSize4K : ℕ := 4 * 1024
def falshSizeBlock32K : ℕ := 32 * 1024
def falshSizeBlock64K : ℕ := 64 * 1024
def falshSizeMax : ℕ := 4 * 1024 * 1024

/-- `Flash_Cmd_t`, as far as the functions here send its commands. -/
inductive FlashCmd
  | pageProgram
  | writeEnable
  | sectorErase
  | block32KErase
  | block64KErase
  | securityProgram
  deriving DecidableEq

def FlashCmd.code : FlashCmd → UInt8
  | .pageProgram => 0x02
  | .writeEnable => 0x06
  | .sectorErase => 0x20
  | .block32KErase => 0x52
  | .block64KErase => 0xD8
  | .securityProgram => 0x42

/-- `Flash_EraseType_t` -/
inductive FlashEraseType
  | eraseSector4KB
  | eraseBlock32KB
  | eraseBlock64KB
  | eraseChip
  deriving DecidableEq

/-- The `switch` of `FLASH_EraseBlock`; a chip erase falls through to the default. -/
def FlashEraseType.cmd : FlashEraseType → FlashCmd
  | .eraseSector4KB => .sectorErase
  | .eraseBlock32KB => .block32KErase
  | .eraseBlock64KB => .block64KErase
  | .eraseChip => .sectorErase

def flashWriteEnable : Transaction := [FlashCmd.writeEnable.code]

def flashEraseBlock (type : FlashEraseType) (offset : ℕ) : List Transaction :=
  [flashWriteEnable, type.cmd.code :: addrBytes offset]

def flashErase (offset length : ℕ) : Option (List Transaction) := do
  assertParam (offset % falshSize4K = 0)
  assertParam (length % falshSize4K = 0)
  if length ≥ falshSizeBlock32K then
    let tailingLength := (offset / falshSizeBlock32K * falshSizeBlock32K + falshSizeBlock32K - offset) % 2 ^ 32
    let tailing4kNum := tailingLength / falshSize4K % 2 ^ 8
    let head := eraseLoop (flashEraseBlock .eraseSector4KB) falshSize4K tailing4kNum offset
    let remainderLen := (length + 2 ^ 32 - tailingLength) % 2 ^ 32
    let num32k := remainderLen / falshSizeBlock32K % 2 ^ 16
    let remainderLen := remainderLen % falshSizeBlock32K
    let num4k := (remainderLen / falshSize4K + if remainderLen % falshSize4K ≠ 0 then 1 else 0) % 2 ^ 16
    let middle := eraseLoop (flashEraseBlock .eraseBlock32KB) falshSizeBlock32K num32k head.2
    let tail := eraseLoop (flashEraseBlock .eraseSector4KB) falshSize4K num4k middle.2
    pure (head.1 ++ middle.1 ++ tail.1)
  else
    let num4k := (length / falshSize4K + if length % falshSize4K ≠ 0 then 1 else 0) % 2 ^ 16
    pure (eraseLoop (flashEraseBlock .eraseSector4KB) falshSize4K num4k offset).1

theorem flashEraseBlock_performs {type : FlashEraseType} {unit : ℕ} (hu : eraseUnit type.cmd.code = some unit)
    {a : ℕ} (ha : a < falshSizeMax) :
    Performs falshSizeMax (flashEraseBlock type a) [.erase ⟨a, unit⟩] :=
  performs_erase (by decide) hu ha

/-- `k` sectors from a sector boundary. -/
theorem sectors_tile (k : ℕ) {off : ℕ} (ho : falshSize4K ∣ off) (hin : off + k * falshSize4K ≤ falshSizeMax) :
    ∃ ts es, eraseLoop (flashEraseBlock .eraseSector4KB) falshSize4K k off = (ts, off + k * falshSize4K) ∧
      Performs falshSizeMax ts (es.map .erase) ∧ Tiles off es (off + k * falshSize4K) := by
  obtain ⟨hend, hperf⟩ := eraseLoop_performs (flashEraseBlock .eraseSector4KB) falshSize4K k off (by decide)
    (fun _ => flashEraseBlock_performs rfl) (by decide) hin
  exact ⟨_, _, Prod.ext rfl hend, hperf, tiles_unitsFrom (by decide) k (.inl ho)⟩

/-- `k` blocks of 32 KB, from a block boundary. -/
theorem blocks_tile (k : ℕ) {off : ℕ} (ho : falshSizeBlock32K ∣ off)
    (hin : off + k * falshSizeBlock32K ≤ falshSizeMax) :
    ∃ ts es, eraseLoop (flashEraseBlock .eraseBlock32KB) falshSizeBlock32K k off =
        (ts, off + k * falshSizeBlock32K) ∧
      Performs falshSizeMax ts (es.map .erase) ∧ Tiles off es (off + k * falshSizeBlock32K) := by
  obtain ⟨hend, hperf⟩ := eraseLoop_performs (flashEraseBlock .eraseBlock32KB) falshSizeBlock32K k off
    (by decide) (fun _ => flashEraseBlock_performs rfl) (by decide) hin
  exact ⟨_, _, Prod.ext rfl hend, hperf, tiles_unitsFrom (by decide) k (.inl ho)⟩

/-- The three counts of `FLASH_Erase`: head sectors to a block boundary (eight when the start
is on one), whole blocks, and sectors to the end. The 8- and 16-bit counters hold them. -/
theorem flashErase_counts {offset length : ℕ} (ho : falshSize4K ∣ offset) (hl : falshSize4K ∣ length)
    (hin : offset + length ≤ falshSizeMax) (hlong : length ≥ falshSizeBlock32K) :
    ∃ tl r k m n,
      (offset / falshSizeBlock32K * falshSizeBlock32K + falshSizeBlock32K - offset) % 2 ^ 32 = tl ∧
      (length + 2 ^ 32 - tl) % 2 ^ 32 = r ∧
      tl / falshSize4K % 2 ^ 8 = k ∧ r / falshSizeBlock32K % 2 ^ 16 = m ∧
      (r % falshSizeBlock32K / falshSize4K + if r % falshSizeBlock32K % falshSize4K ≠ 0 then 1 else 0) % 2 ^ 16 = n ∧
      falshSizeBlock32K ∣ offset + k * falshSize4K ∧
      offset + k * falshSize4K + m * falshSizeBlock32K + n * falshSize4K = offset + length := by
  obtain ⟨o, rfl⟩ := ho
  obtain ⟨l, rfl⟩ := hl
  have hrest : ∀ q, falshSize4K * q % falshSizeBlock32K % falshSize4K = 0 := by
    intro q
    simp only [falshSize4K, falshSizeBlock32K]
    omega
  refine ⟨falshSize4K * (8 - o % 8), falshSize4K * (l - (8 - o % 8)), 8 - o % 8,
    (l - (8 - o % 8)) / 8, (l - (8 - o % 8)) % 8, ?_⟩
  rw [if_neg (not_not.mpr (hrest _))]
  simp only [falshSize4K, falshSizeBlock32K, falshSizeMax] at *
  omega

/-- `FLASH_Erase` inside the device tiles the request with sectors and 32 KB blocks. -/
theorem flashErase_performs {offset length : ℕ} (ho : falshSize4K ∣ offset) (hl : falshSize4K ∣ length)
    (hin : offset + length ≤ falshSizeMax) :
    ∃ ts es, flashErase offset length = some ts ∧ Performs falshSizeMax ts (es.map .erase) ∧
      Tiles offset es (offset + length) := by
  rw [flashErase, assertParam_true (Nat.mod_eq_zero_of_dvd ho), assertParam_true (Nat.mod_eq_zero_of_dvd hl)]
  simp only [Option.bind_eq_bind, Option.bind_some, Option.pure_def]
  by_cases hlong : length ≥ falshSizeBlock32K
  · obtain ⟨tl, r, k, m, n, htl, hr, hk, hm, hn, hblock, hend⟩ := flashErase_counts ho hl hin hlong
    rw [if_pos hlong, htl, hr, hk, hm, hn]
    obtain ⟨ts₁, es₁, h₁, hp₁, ht₁⟩ := sectors_tile k ho (by omega)
    obtain ⟨ts₂, es₂, h₂, hp₂, ht₂⟩ := blocks_tile m hblock (by omega)
    have hsector : falshSize4K ∣ offset + k * falshSize4K + m * falshSizeBlock32K :=
      Nat.dvd_add (Nat.dvd_add ho (Nat.dvd_mul_left _ _)) (Dvd.dvd.mul_left (by decide) m)
    obtain ⟨ts₃, es₃, h₃, hp₃, ht₃⟩ := sectors_tile n hsector (by omega)
    rw [h₁, h₂, h₃]
    refine ⟨_, es₁ ++ es₂ ++ es₃, rfl, ?_, ?_⟩
    · rw [List.map_append, List.map_append]
      exact (hp₁.append hp₂).append hp₃
    · exact hend ▸ (ht₁.append ht₂).append ht₃
  · have hn : (length / falshSize4K + if length % falshSize4K ≠ 0 then 1 else 0) % 2 ^ 16 =
        length / falshSize4K := by
      rw [if_neg (not_not.mpr (Nat.mod_eq_zero_of_dvd hl))]
      exact Nat.mod_eq_of_lt (by simp only [falshSize4K, falshSizeBlock32K] at *; omega)
    have hlen : length / falshSize4K * falshSize4K = length := Nat.div_mul_cancel hl
    obtain ⟨ts, es, h, hp, ht⟩ := sectors_tile (length / falshSize4K) ho (by omega)
    rw [if_neg hlong, hn]
    exact ⟨ts, es, by rw [h], hp, by rwa [hlen] at ht⟩

/-- `FLASH_Erase` clears the request and nothing else: its 32 KB erases are issued at block
boundaries, and no two erases meet in a byte. -/
theorem flashErase_covers (wel : Bool) (f : Flash) {offset length : ℕ} (ho : falshSize4K ∣ offset)
    (hl : falshSize4K ∣ length) (hin : offset + length ≤ falshSizeMax) :
    ∃ ts, ∃ es : List UnitErase, flashErase offset length = some ts ∧ chipOps falshSizeMax wel ts = es.map .erase ∧
      clearedBytes (chipOps falshSizeMax wel ts) = Set.Ico offset (offset + length) ∧
      (∀ e ∈ es, e.size = falshSizeBlock32K → falshSizeBlock32K ∣ e.addr) ∧
      (es.Pairwise fun e e' => ∀ x, ¬ (e.Clears x ∧ e'.Clears x)) ∧
      applyOps (chipOps falshSizeMax wel ts) f = (Op.erase offset length).apply f := by
  obtain ⟨ts, es, hts, hperf, htiles⟩ := flashErase_performs ho hl hin
  have hops := hperf.chipOps_eq wel
  refine ⟨ts, es, hts, hops, ?_, fun e he hs => hs ▸ htiles.aligned e he, htiles.disjoint, ?_⟩
  · rw [hops, clearedBytes_tiles htiles]
  · rw [hops, applyOps_erases, htiles.foldl_apply_eq, Nat.add_sub_cancel_left]

/-- A request from a sector in the middle of a block over the next block boundary. -/
theorem flashErase_covers_over_boundary :
    ∃ ts, ∃ es : List UnitErase, flashErase 0x7000 0x12000 = some ts ∧ chipOps falshSizeMax false ts = es.map .erase ∧
      clearedBytes (chipOps falshSizeMax false ts) = Set.Ico 0x7000 (0x7000 + 0x12000) ∧
      (∀ e ∈ es, e.size = falshSizeBlock32K → falshSizeBlock32K ∣ e.addr) ∧
      (es.Pairwise fun e e' => ∀ x, ¬ (e.Clears x ∧ e'.Clears x)) ∧
      applyOps (chipOps falshSizeMax false ts) (fun _ => 0) = (Op.erase 0x7000 0x12000).apply (fun _ => 0) :=
  flashErase_covers false (fun _ => 0) (by decide) (by decide) (by decide)

/-! ### The external flash -/

def exFalshSize4K : ℕ := 4 * 1024
def exFalshSize32K : ℕ := 32 * 1024
def exFalshSize64K : ℕ := 64 * 1024
def exFalshSizeMax : ℕ := 2 * 1024 * 1024

def exFlashCmdWriteEnable : UInt8 := 0x06
def exFlashCmdSectorErase : UInt8 := 0x20
def exFlashCmdBlockErase32KB : UInt8 := 0x52
def exFlashCmdBlockErase64KB : UInt8 := 0xD8

def exFlashWriteEnable : Transaction := [exFlashCmdWriteEnable]

def exFlashEraseSector (addr : ℕ) : List Transaction :=
  let addr := addr % exFalshSizeMax
  [exFlashWriteEnable, exFlashCmdSectorErase :: addrBytes addr]

def exFlashEraseBlock (type : UInt8) (addr : ℕ) : List Transaction :=
  let addr := addr % exFalshSizeMax
  let cmd := if type = exFlashCmdBlockErase32KB then exFlashCmdBlockErase32KB else exFlashCmdBlockErase64KB
  [exFlashWriteEnable, cmd :: addrBytes addr]

def exFlashErase (offset length : ℕ) : List Transaction :=
  let num64k := length / exFalshSize64K
  let length := length % exFalshSize64K
  let num32k := length / exFalshSize32K
  let length := length % exFalshSize32K
  let num4k := length / exFalshSize4K + if length % exFalshSize4K ≠ 0 then 1 else 0
  let head := eraseLoop (exFlashEraseBlock exFlashCmdBlockErase64KB) exFalshSize64K num64k offset
  let middle := eraseLoop (exFlashEraseBlock exFlashCmdBlockErase32KB) exFalshSize32K num32k head.2
  let tail := eraseLoop exFlashEraseSector exFalshSize4K num4k middle.2
  head.1 ++ middle.1 ++ tail.1

theorem exFlashEraseSector_performs {a : ℕ} (ha : a < exFalshSizeMax) :
    Performs exFalshSizeMax (exFlashEraseSector a) [.erase ⟨a, exFalshSize4K⟩] := by
  rw [exFlashEraseSector, Nat.mod_eq_of_lt ha]
  exact performs_erase (by decide) rfl ha

theorem exFlashEraseBlock_performs {type : UInt8} {unit : ℕ} (hu : eraseUnit type = some unit)
    (ht : type = exFlashCmdBlockErase32KB ∨ type = exFlashCmdBlockErase64KB) {a : ℕ}
    (ha : a < exFalshSizeMax) : Performs exFalshSizeMax (exFlashEraseBlock type a) [.erase ⟨a, unit⟩] := by
  rw [exFlashEraseBlock, Nat.mod_eq_of_lt ha]
  rcases ht with rfl | rfl
  · exact performs_erase (by decide) hu ha
  · exact performs_erase (by decide) hu ha

/-- The units `ExFlash_Erase` takes, the largest first, from wherever the request starts. -/
def greedyUnits (offset length : ℕ) : List UnitErase :=
  unitsFrom exFalshSize64K (length / exFalshSize64K) offset ++
  unitsFrom exFalshSize32K (length % exFalshSize64K / exFalshSize32K)
    (offset + length / exFalshSize64K * exFalshSize64K) ++
  unitsFrom exFalshSize4K (length % exFalshSize64K % exFalshSize32K / exFalshSize4K)
    (offset + length / exFalshSize64K * exFalshSize64K + length % exFalshSize64K / exFalshSize32K * exFalshSize32K)

theorem exFlashErase_performs {offset length : ℕ} (hl : exFalshSize4K ∣ length)
    (hin : offset + length ≤ exFalshSizeMax) :
    Performs exFalshSizeMax (exFlashErase offset length) ((greedyUnits offset length).map .erase) := by
  have h64 := length.div_add_mod' exFalshSize64K
  have h32 := (length % exFalshSize64K).div_add_mod' exFalshSize32K
  have h4 : length % exFalshSize64K % exFalshSize32K % exFalshSize4K = 0 := by
    rw [Nat.mod_mod_of_dvd _ (by decide), Nat.mod_mod_of_dvd _ (by decide)]
    exact Nat.mod_eq_zero_of_dvd hl
  have h4' := (length % exFalshSize64K % exFalshSize32K).div_add_mod' exFalshSize4K
  obtain ⟨he₁, hp₁⟩ := eraseLoop_performs (exFlashEraseBlock exFlashCmdBlockErase64KB) exFalshSize64K
    (length / exFalshSize64K) offset (by decide) (fun _ => exFlashEraseBlock_performs rfl (.inr rfl))
    (by decide) (by omega)
  obtain ⟨he₂, hp₂⟩ := eraseLoop_performs (exFlashEraseBlock exFlashCmdBlockErase32KB) exFalshSize32K
    (length % exFalshSize64K / exFalshSize32K) (offset + length / exFalshSize64K * exFalshSize64K)
    (by decide) (fun _ => exFlashEraseBlock_performs rfl (.inl rfl)) (by decide) (by omega)
  obtain ⟨-, hp₃⟩ := eraseLoop_performs exFlashEraseSector exFalshSize4K
    (length % exFalshSize64K % exFalshSize32K / exFalshSize4K)
    (offset + length / exFalshSize64K * exFalshSize64K + length % exFalshSize64K / exFalshSize32K * exFalshSize32K)
    (by decide) (fun _ => exFlashEraseSector_performs) (by decide) (by omega)
  simp only [exFlashErase, greedyUnits, List.map_append]
  rw [if_neg (not_not.mpr h4), he₁, he₂]
  exact (hp₁.append hp₂).append hp₃

/-- The start is on a boundary of the largest unit taken. -/
def GreedyAligned (offset length : ℕ) : Prop :=
  (exFalshSize64K ≤ length → exFalshSize64K ∣ offset) ∧ (exFalshSize32K ≤ length → exFalshSize32K ∣ offset)

theorem greedyUnits_tile {offset length : ℕ} (ho : exFalshSize4K ∣ offset) (hl : exFalshSize4K ∣ length)
    (ha : GreedyAligned offset length) : Tiles offset (greedyUnits offset length) (offset + length) := by
  have h64 : exFalshSize64K ∣ offset ∨ length / exFalshSize64K = 0 := by
    rw [Nat.div_eq_zero_iff_lt (by decide)]
    by_cases hlen : exFalshSize64K ≤ length
    · exact .inl (ha.1 hlen)
    · exact .inr (by omega)
  have h32 : exFalshSize32K ∣ offset + length / exFalshSize64K * exFalshSize64K ∨
      length % exFalshSize64K / exFalshSize32K = 0 := by
    rw [Nat.div_eq_zero_iff_lt (by decide)]
    by_cases hlen : exFalshSize32K ≤ length % exFalshSize64K
    · have hlong := ha.2 (hlen.trans (Nat.mod_le _ _))
      exact .inl (Nat.dvd_add hlong (Dvd.dvd.mul_left (by decide) _))
    · exact .inr (by omega)
  have h4 : exFalshSize4K ∣ offset + length / exFalshSize64K * exFalshSize64K +
      length % exFalshSize64K / exFalshSize32K * exFalshSize32K :=
    Nat.dvd_add (Nat.dvd_add ho (Dvd.dvd.mul_left (by decide) _)) (Dvd.dvd.mul_left (by decide) _)
  have hend : offset + length / exFalshSize64K * exFalshSize64K +
      length % exFalshSize64K / exFalshSize32K * exFalshSize32K +
      length % exFalshSize64K % exFalshSize32K / exFalshSize4K * exFalshSize4K = offset + length := by
    simp only [exFalshSize4K, exFalshSize32K, exFalshSize64K] at *
    omega
  exact hend ▸ ((tiles_unitsFrom (by decide) _ h64).append (tiles_unitsFrom (by decide) _ h32)).append
    (tiles_unitsFrom (by decide) _ (.inl h4))

/-- The first erase, off its boundary, clears a byte in front of the request. -/
theorem unitsFrom_clears_before {n k off : ℕ} (hn : 0 < n) (hk : k ≠ 0) (ho : ¬ n ∣ off) :
    ∃ x, x < off ∧ Cleared (unitsFrom n k off) x := by
  obtain ⟨j, rfl⟩ := Nat.exists_eq_succ_of_ne_zero hk
  obtain ⟨x, hx, hc⟩ := clears_before hn ho
  exact ⟨x, hx, (cleared_cons _ _ x).mpr (.inl hc)⟩

theorem greedyAligned_of_cleared {offset length : ℕ}
    (h : ∀ x, Cleared (greedyUnits offset length) x → offset ≤ x) : GreedyAligned offset length := by
  have h64 : exFalshSize64K ≤ length → exFalshSize64K ∣ offset := by
    intro hlen
    by_contra hno
    obtain ⟨x, hx, hc⟩ := unitsFrom_clears_before (k := length / exFalshSize64K) (by decide)
      (by rw [Ne, Nat.div_eq_zero_iff_lt (by decide)]; omega) hno
    have hle := h x (cleared_append_left (cleared_append_left hc))
    omega
  refine ⟨h64, fun hlen => ?_⟩
  by_cases hlong : exFalshSize64K ≤ length
  · exact Dvd.dvd.trans (by decide) (h64 hlong)
  · -- no 64 KB unit is taken, so the 32 KB unit is the first
    by_contra hno
    have h0 : length / exFalshSize64K = 0 := Nat.div_eq_of_lt (by omega)
    have hm : length % exFalshSize64K = length := Nat.mod_eq_of_lt (by omega)
    obtain ⟨x, hx, hc⟩ := unitsFrom_clears_before (k := length / exFalshSize32K) (by decide)
      (by rw [Ne, Nat.div_eq_zero_iff_lt (by decide)]; omega) hno
    have hle := h x (cleared_append_left (cleared_append_right (by rw [hm, h0, Nat.zero_mul]; exact hc)))
    omega

/-- `ExFlash_Erase` clears the request and nothing else exactly when the request starts on a
boundary of the largest unit it uses. -/
theorem exFlashErase_exact_iff (wel : Bool) {offset length : ℕ} (ho : exFalshSize4K ∣ offset)
    (hl : exFalshSize4K ∣ length) (hin : offset + length ≤ exFalshSizeMax) :
    clearedBytes (chipOps exFalshSizeMax wel (exFlashErase offset length)) =
        Set.Ico offset (offset + length) ↔
      (exFalshSize64K ≤ length → exFalshSize64K ∣ offset) ∧
        (exFalshSize32K ≤ length → exFalshSize32K ∣ offset) := by
  rw [(exFlashErase_performs hl hin).chipOps_eq wel]
  constructor
  · intro h
    apply greedyAligned_of_cleared
    intro x hx
    have hmem : x ∈ Set.Ico offset (offset + length) := h ▸ (mem_clearedBytes x).mpr hx
    exact hmem.1
  · intro h
    exact clearedBytes_tiles (greedyUnits_tile ho hl h)

/-- A 64 KB request from a 64 KB boundary, and one from the sector behind it. -/
theorem exFlashErase_exact_iff_64k :
    (clearedBytes (chipOps exFalshSizeMax false (exFlashErase 0x10000 0x10000)) =
        Set.Ico 0x10000 (0x10000 + 0x10000) ↔
      (exFalshSize64K ≤ 0x10000 → exFalshSize64K ∣ 0x10000) ∧
        (exFalshSize32K ≤ 0x10000 → exFalshSize32K ∣ 0x10000)) ∧
    (clearedBytes (chipOps exFalshSizeMax false (exFlashErase 0x1000 0x10000)) =
        Set.Ico 0x1000 (0x1000 + 0x10000) ↔
      (exFalshSize64K ≤ 0x10000 → exFalshSize64K ∣ 0x1000) ∧
        (exFalshSize32K ≤ 0x10000 → exFalshSize32K ∣ 0x1000)) :=
  ⟨exFlashErase_exact_iff false (by decide) (by decide) (by decide),
    exFlashErase_exact_iff false (by decide) (by decide) (by decide)⟩

/-- A 64 KB erase from the second sector on clears the first. -/
theorem exFlashErase_clears_in_front :
    ¬ ∀ (wel : Bool) (offset length : ℕ), exFalshSize4K ∣ offset → exFalshSize4K ∣ length →
      offset + length ≤ exFalshSizeMax →
      clearedBytes (chipOps exFalshSizeMax wel (exFlashErase offset length)) =
        Set.Ico offset (offset + length) := by
  intro h
  have h0 : (0 : ℕ) ∈ clearedBytes (chipOps exFalshSizeMax false (exFlashErase 0x1000 0x10000)) :=
    ⟨⟨0x1000, 0x10000⟩, by decide, rfl⟩
  rw [h false 0x1000 0x10000 (by decide) (by decide) (by decide)] at h0
  exact absurd h0.1 (by decide)

end Ln882x.Hal
