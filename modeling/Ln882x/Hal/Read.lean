import Ln882x.Hal.Erase

/-! Reading the internal flash into memory. `FLASH_Read` reads bytes up to the next word
boundary of the destination, then words by DMA, then the bytes left over. The head is
as long as the way to the boundary, whether or not the request is; and one DMA block
comes to an end only when the controller, told the length of the whole read in a 16-bit
register, delivers that many frames. A read that clears both writes what
`FLASH_ReadByCache` writes. -/

namespace Ln882x.Hal

open Nor

/-! ### Writes to memory -/

/-- Bytes stored at addresses of 32 bits. -/
abbrev Writes := List (ℕ × UInt8)

/-- The bytes stored one after another. -/
def store : ℕ → Bytes → Writes
  | _, [] => []
  | p, b :: bs => (p % 2 ^ 32, b) :: store (p + 1) bs

def applyWrites (w : Writes) (mem : ℕ → UInt8) : ℕ → UInt8 :=
  w.foldl (fun m p => Function.update m p.1 p.2) mem

def Touches (w : Writes) (a : ℕ) : Prop := ∃ b, (a, b) ∈ w

theorem store_append (p : ℕ) (bs cs : Bytes) :
    store p (bs ++ cs) = store p bs ++ store (p + bs.length) cs := by
  induction bs generalizing p with
  | nil => rfl
  | cons b bs ih =>
    rw [List.cons_append, store, store, List.cons_append, ih, List.length_cons, Nat.add_assoc, Nat.add_comm 1]

theorem store_congr {p q : ℕ} (h : p % 2 ^ 32 = q % 2 ^ 32) (bs : Bytes) : store p bs = store q bs := by
  induction bs generalizing p q with
  | nil => rfl
  | cons b bs ih => rw [store, store, h, ih (show (p + 1) % 2 ^ 32 = (q + 1) % 2 ^ 32 by omega)]

theorem touches_store (p a : ℕ) (bs : Bytes) :
    Touches (store p bs) a ↔ ∃ i, i < bs.length ∧ a = (p + i) % 2 ^ 32 := by
  induction bs generalizing p with
  | nil => simp [Touches, store]
  | cons b bs ih =>
    have hcons : Touches (store p (b :: bs)) a ↔ a = p % 2 ^ 32 ∨ Touches (store (p + 1) bs) a := by
      simp [Touches, store, exists_or]
    rw [hcons, ih]
    constructor
    · rintro (rfl | ⟨i, hi, rfl⟩)
      · exact ⟨0, by simp, rfl⟩
      · exact ⟨i + 1, by simpa using hi, by rw [Nat.add_assoc, Nat.add_comm 1]⟩
    · rintro ⟨i, hi, rfl⟩
      cases i with
      | zero => exact .inl rfl
      | succ i => exact .inr ⟨i, by simpa using hi, by rw [Nat.add_assoc, Nat.add_comm 1]⟩

theorem applyWrites_of_not_touches {w : Writes} {a : ℕ} (h : ¬ Touches w a) (mem : ℕ → UInt8) :
    applyWrites w mem a = mem a := by
  induction w generalizing mem with
  | nil => rfl
  | cons q w ih =>
    have hq : a ≠ q.1 := by
      rintro rfl
      exact h ⟨q.2, List.mem_cons_self⟩
    have hw : ¬ Touches w a := fun ⟨b, hb⟩ => h ⟨b, List.mem_cons_of_mem _ hb⟩
    rw [applyWrites, List.foldl_cons]
    exact (ih hw _).trans (Function.update_of_ne hq _ _)

/-- Less than the address space of bytes does not overwrite itself. -/
theorem applyWrites_store {p : ℕ} {bs : Bytes} (hl : bs.length ≤ 2 ^ 32) (mem : ℕ → UInt8) {i : ℕ}
    (hi : i < bs.length) : applyWrites (store p bs) mem ((p + i) % 2 ^ 32) = bs[i] := by
  induction bs generalizing p mem i with
  | nil => exact absurd hi (Nat.not_lt_zero i)
  | cons b bs ih =>
    rw [List.length_cons] at hl hi
    rw [store, applyWrites, List.foldl_cons]
    cases i with
    | zero =>
      have hlater : ¬ Touches (store (p + 1) bs) (p % 2 ^ 32) := by
        rw [touches_store]
        rintro ⟨j, hj, he⟩
        omega
      exact (applyWrites_of_not_touches hlater _).trans (Function.update_self _ _ _)
    | succ i =>
      have h := ih (p := p + 1) (by omega) (Function.update mem (p % 2 ^ 32) b) (i := i) (by omega)
      rwa [Nat.add_assoc, Nat.add_comm 1] at h

/-! ### The chip and the controller -/

def FlashCmd.standardRead : UInt8 := 0x03

/-- The bytes from an address on, as the chip counts addresses. -/
def flashBytes (f : Flash) (a n : ℕ) : Bytes := (List.range n).map fun i => f ((a + i) % falshSizeMax)

/-- The chip's answer to a read command. -/
def chipRead (f : Flash) (n : ℕ) : Transaction → Option Bytes
  | [op, a2, a1, a0] =>
    if op = FlashCmd.standardRead then
      some (flashBytes f ((a2.toNat * 2 ^ 16 + a1.toNat * 2 ^ 8 + a0.toNat) % falshSizeMax) n)
    else none
  | _ => none

/-- `LL_QSPI_CtrlR1Set(rd_len - 1)`: the 16-bit register holds the number of data frames to be
continuously received, less one. -/
def rxFrames (rdLen : ℕ) : ℕ := (rdLen - 1) % 2 ^ 16 + 1

def maxDmacTransferSize : ℕ := 4095

/-- `qspi_standard_read_byte`. The wait for `rd_len` bytes ends when the controller receives as
many. -/
def qspiStandardReadByte (f : Flash) (buffer rdLen : ℕ) (cmd : Transaction) : Option Writes := do
  let data ← chipRead f rdLen cmd
  if rdLen ≤ rxFrames rdLen then pure (store buffer data) else none

/-- `offset` and `buffer` of a read. -/
structure ReadPos where
  offset : ℕ
  buffer : ℕ

/-- `offset += n; buffer += n;` -/
def ReadPos.advance (c : ReadPos) (n : ℕ) : ReadPos := ⟨(c.offset + n) % 2 ^ 32, (c.buffer + n) % 2 ^ 32⟩

def ReadPos.cmd (c : ReadPos) : Transaction := FlashCmd.standardRead :: addrBytes c.offset

/-- One DMA block of words: `HAL_DMA_WaitDone` returns when the controller delivered them. -/
def dmaBlock (f : Flash) (frames words : ℕ) (c : ReadPos) : Option Writes := do
  let data ← chipRead f (4 * words) c.cmd
  if words ≤ frames then pure (store c.buffer data) else none

def dmaBlocks (f : Flash) (frames : ℕ) : ℕ → ReadPos → Option (Writes × ReadPos)
  | 0, c => pure ([], c)
  | cycles + 1, c => do
    let w ← dmaBlock f frames maxDmacTransferSize c
    let (v, c) ← dmaBlocks f frames cycles (c.advance (4 * maxDmacTransferSize))
    pure (w ++ v, c)

def qspiStandardReadWord (f : Flash) (rdLenInWord : ℕ) (c : ReadPos) : Option Writes := do
  let cycles := rdLenInWord / maxDmacTransferSize % 2 ^ 16
  let tailingLength := rdLenInWord % maxDmacTransferSize
  let frames := rxFrames rdLenInWord
  let (w, c) ← dmaBlocks f frames cycles c
  if tailingLength > 0 then do
    let v ← dmaBlock f frames tailingLength c
    pure (w ++ v)
  else pure w

/-! ### The two read functions -/

/-- `shift`, in which `-` binds tighter than `&`. -/
def readShift (buffer : ℕ) : ℕ :=
  if buffer % 4 ≠ 0 then (4 + 2 ^ 32 - buffer) % 2 ^ 32 % 4 else 0

/-- The bytes in front of the words and behind them. -/
def readByteRun (f : Flash) (n : ℕ) (c : ReadPos) : Option (Writes × ReadPos) :=
  if n > 0 then do
    let w ← qspiStandardReadByte f c.buffer n c.cmd
    pure (w, c.advance n)
  else pure ([], c)

def readWordRun (f : Flash) (n : ℕ) (c : ReadPos) : Option (Writes × ReadPos) :=
  if n > 0 then do
    let w ← qspiStandardReadWord f n c
    pure (w, c.advance (4 * n))
  else pure ([], c)

def flashRead (f : Flash) (offset length buffer : ℕ) : Option Writes := do
  let shift := readShift buffer
  let lengthInWords := if length > shift then (length - shift) / 4 else 0
  let remainder := if length > shift then (length - shift) % 4 else 0
  assertParam ((offset + length) % 2 ^ 32 ≤ falshSizeMax)
  let (head, c) ← readByteRun f shift ⟨offset, buffer⟩
  let (words, c) ← readWordRun f lengthInWords c
  let (tail, _) ← readByteRun f remainder c
  pure (head ++ words ++ tail)

def regCacheFlashBase : ℕ := 0x10000000

/-- The cache maps the flash from its base on. -/
def cacheByte (f : Flash) (addr : ℕ) : UInt8 := f (addr - regCacheFlashBase)

def flashReadByCache (f : Flash) (offset length buffer : ℕ) : Option Writes := do
  assertParam ((offset + length) % 2 ^ 32 ≤ falshSizeMax)
  let addr := (regCacheFlashBase + offset) % 2 ^ 32
  pure (store buffer ((List.range length).map fun i => cacheByte f ((addr + i) % 2 ^ 32)))

/-! ### Parts of a read -/

variable (f : Flash)

@[simp] theorem length_flashBytes (a n : ℕ) : (flashBytes f a n).length = n := by simp [flashBytes]

theorem flashBytes_add (a m n : ℕ) : flashBytes f a (m + n) = flashBytes f a m ++ flashBytes f (a + m) n := by
  simp only [flashBytes, List.range_add, List.map_append, List.map_map]
  congr 1
  refine List.map_congr_left fun i _ => ?_
  rw [Function.comp_apply, Nat.add_assoc]

theorem flashBytes_congr {a b : ℕ} (h : a % falshSizeMax = b % falshSizeMax) (n : ℕ) :
    flashBytes f a n = flashBytes f b n := by
  refine List.map_congr_left fun i _ => ?_
  rw [Nat.add_mod, h, ← Nat.add_mod]

theorem flashBytes_eq_readBytes {a n : ℕ} (h : a + n ≤ falshSizeMax) : flashBytes f a n = readBytes f a n := by
  rw [flashBytes, readBytes, List.range'_eq_map_range, List.map_map]
  refine List.map_congr_left fun i hi => ?_
  have hlt := List.mem_range.mp hi
  rw [Nat.mod_eq_of_lt (by omega), Function.comp_apply]

theorem chipRead_cmd (c : ReadPos) (n : ℕ) : chipRead f n c.cmd = some (flashBytes f c.offset n) := by
  have hsize : falshSizeMax ∣ 2 ^ 24 := by decide
  have h := addrBytes_addr hsize c.offset
  rw [ReadPos.cmd, addrBytes, chipRead, if_pos rfl, h]
  rw [flashBytes_congr f (Nat.mod_mod c.offset falshSizeMax)]

/-- The position `m` bytes on, up to the width of the registers. -/
def Reaches (c c' : ReadPos) (m : ℕ) : Prop :=
  c'.offset % 2 ^ 32 = (c.offset + m) % 2 ^ 32 ∧ c'.buffer % 2 ^ 32 = (c.buffer + m) % 2 ^ 32

theorem Reaches.refl (c : ReadPos) : Reaches c c 0 := ⟨rfl, rfl⟩

theorem reaches_advance (c : ReadPos) (n : ℕ) : Reaches c (c.advance n) n := ⟨Nat.mod_mod _ _, Nat.mod_mod _ _⟩

theorem Reaches.trans {c c' c'' : ReadPos} {m n : ℕ} (h : Reaches c c' m) (h' : Reaches c' c'' n) :
    Reaches c c'' (m + n) := by
  obtain ⟨ho, hb⟩ := h
  obtain ⟨ho', hb'⟩ := h'
  exact ⟨by omega, by omega⟩

/-- What is read into memory `m` bytes on continues what was read before. -/
theorem Reaches.store_append {c c' : ReadPos} {m : ℕ} (h : Reaches c c' m) (n : ℕ) :
    store c.buffer (flashBytes f c.offset m) ++ store c'.buffer (flashBytes f c'.offset n) =
      store c.buffer (flashBytes f c.offset (m + n)) := by
  have ho : c'.offset % falshSizeMax = (c.offset + m) % falshSizeMax := by
    have hd : falshSizeMax ∣ 2 ^ 32 := by decide
    rw [← Nat.mod_mod_of_dvd _ hd, h.1, Nat.mod_mod_of_dvd _ hd]
  rw [flashBytes_add, Hal.store_append, length_flashBytes, store_congr h.2, flashBytes_congr f ho]

theorem qspiStandardReadByte_eq (c : ReadPos) {n : ℕ} (h0 : 0 < n) (hn : n ≤ 2 ^ 16) :
    qspiStandardReadByte f c.buffer n c.cmd = some (store c.buffer (flashBytes f c.offset n)) := by
  have hframes : n ≤ rxFrames n := by
    rw [rxFrames, Nat.mod_eq_of_lt (by omega)]
    omega
  rw [qspiStandardReadByte, chipRead_cmd]
  simp [hframes]

theorem dmaBlock_eq {frames words : ℕ} (h : words ≤ frames) (c : ReadPos) :
    dmaBlock f frames words c = some (store c.buffer (flashBytes f c.offset (4 * words))) := by
  rw [dmaBlock, chipRead_cmd]
  simp [h]

theorem dmaBlock_short {frames words : ℕ} (h : frames < words) (c : ReadPos) :
    dmaBlock f frames words c = none := by
  rw [dmaBlock, chipRead_cmd]
  simp [h]

theorem dmaBlocks_eq {frames : ℕ} (h : maxDmacTransferSize ≤ frames) (k : ℕ) (c : ReadPos) :
    ∃ c', dmaBlocks f frames k c = some (store c.buffer (flashBytes f c.offset (4 * (k * maxDmacTransferSize))), c') ∧
      Reaches c c' (4 * (k * maxDmacTransferSize)) := by
  induction k generalizing c with
  | zero => exact ⟨c, by simp [dmaBlocks, flashBytes, store], by simpa using Reaches.refl c⟩
  | succ k ih =>
    have hadv := reaches_advance c (4 * maxDmacTransferSize)
    obtain ⟨c', hrec, hreach⟩ := ih (c.advance (4 * maxDmacTransferSize))
    have hlen : 4 * ((k + 1) * maxDmacTransferSize) = 4 * maxDmacTransferSize + 4 * (k * maxDmacTransferSize) := by
      rw [Nat.succ_mul k]
      omega
    refine ⟨c', ?_, hlen ▸ hadv.trans hreach⟩
    rw [dmaBlocks, dmaBlock_eq f h]
    simp only [Option.bind_eq_bind, Option.bind_some, hrec, Option.pure_def]
    rw [hadv.store_append, hlen]

/-- The words come in, unless a full DMA block waits for frames that do not come. -/
abbrev WordsComeIn (n : ℕ) : Prop := n < maxDmacTransferSize ∨ maxDmacTransferSize ≤ (n - 1) % 2 ^ 16 + 1

/-- A read of words ends when no full DMA block waits for more frames than the register counts. -/
theorem qspiStandardReadWord_eq {n : ℕ} (h0 : 0 < n) (hn : n ≤ 2 ^ 20) (c : ReadPos) :
    qspiStandardReadWord f n c =
      if WordsComeIn n then some (store c.buffer (flashBytes f c.offset (4 * n))) else none := by
  have hmax : maxDmacTransferSize = 4095 := rfl
  generalize hk : n / maxDmacTransferSize = k
  generalize hr : n % maxDmacTransferSize = r
  have hlen : k * maxDmacTransferSize + r = n := by rw [← hk, ← hr, Nat.div_add_mod']
  have hrlt : r < maxDmacTransferSize := hr ▸ Nat.mod_lt _ (by decide)
  have hcycles : k % 2 ^ 16 = k := by
    refine Nat.mod_eq_of_lt ?_
    rw [← hk, Nat.div_lt_iff_lt_mul (by decide), hmax]
    omega
  rw [qspiStandardReadWord, hk, hr, hcycles, rxFrames]
  rcases Nat.eq_zero_or_pos k with rfl | hpos
  · -- one block, shorter than the longest
    have hframes : r ≤ (n - 1) % 2 ^ 16 + 1 := by omega
    rw [if_pos (by omega), dmaBlocks]
    simp only [Option.pure_def, Option.bind_eq_bind, Option.bind_some]
    rw [if_pos (by omega), dmaBlock_eq f hframes, show r = n by omega]
    rfl
  · have hge : maxDmacTransferSize ≤ k * maxDmacTransferSize := Nat.le_mul_of_pos_left _ hpos
    by_cases hframes : maxDmacTransferSize ≤ (n - 1) % 2 ^ 16 + 1
    · obtain ⟨c', hblocks, hreach⟩ := dmaBlocks_eq f hframes k c
      rw [if_pos (.inr hframes), hblocks]
      simp only [Option.pure_def, Option.bind_eq_bind, Option.bind_some]
      by_cases hr0 : r > 0
      · rw [if_pos hr0, dmaBlock_eq f (by omega), Option.bind_some, hreach.store_append, ← Nat.mul_add, hlen]
      · rw [if_neg hr0, show k * maxDmacTransferSize = n by omega]
    · obtain ⟨j, rfl⟩ := Nat.exists_eq_succ_of_ne_zero hpos.ne'
      rw [if_neg (by omega), dmaBlocks, dmaBlock_short f (by omega)]
      rfl

/-! ### A request -/

/-- The way to the next word boundary. -/
theorem readShift_eq {buffer : ℕ} (hb : buffer < 2 ^ 32) : readShift buffer = (4 - buffer % 4) % 4 := by
  rw [readShift]
  split_ifs with h <;> omega

/-- The bytes are stored at the destination, and nothing else is touched. -/
structure ReadsExactly (offset length buffer : ℕ) (w : Writes) : Prop where
  touches : ∀ a, Touches w a ↔ ∃ i < length, a = (buffer + i) % 2 ^ 32
  bytes : ∀ mem, ∀ i < length, applyWrites w mem ((buffer + i) % 2 ^ 32) = f (offset + i)

theorem store_readsExactly {offset length buffer : ℕ} (hin : offset + length ≤ falshSizeMax) :
    ReadsExactly f offset length buffer (store buffer (flashBytes f offset length)) := by
  have hmax : falshSizeMax = 4194304 := rfl
  refine ⟨fun a => ?_, fun mem i hi => ?_⟩
  · rw [touches_store, length_flashBytes]
  · rw [applyWrites_store (by rw [length_flashBytes]; omega) mem (by rwa [length_flashBytes])]
    simp only [flashBytes, List.getElem_map, List.getElem_range]
    rw [Nat.mod_eq_of_lt (by omega)]

theorem flashReadByCache_eq {offset length buffer : ℕ} (hin : offset + length ≤ falshSizeMax) :
    flashReadByCache f offset length buffer = some (store buffer (flashBytes f offset length)) := by
  have hmax : falshSizeMax = 4194304 := rfl
  have hassert : (offset + length) % 2 ^ 32 ≤ falshSizeMax := (Nat.mod_le _ _).trans hin
  rw [flashReadByCache, assertParam_true hassert]
  refine congrArg (fun bs => some (store buffer bs)) (List.map_congr_left fun i hi => ?_)
  have hlt := List.mem_range.mp hi
  have hbase : regCacheFlashBase = 268435456 := rfl
  rw [cacheByte]
  refine congrArg f ?_
  rw [Nat.mod_eq_of_lt (show offset + i < falshSizeMax by omega), hbase]
  omega

theorem readByteRun_eq {n : ℕ} (hn : n < 4) (c : ReadPos) :
    ∃ c', readByteRun f n c = some (store c.buffer (flashBytes f c.offset n), c') ∧ Reaches c c' n := by
  rw [readByteRun]
  rcases Nat.eq_zero_or_pos n with rfl | hpos
  · exact ⟨c, rfl, Reaches.refl c⟩
  · rw [if_pos hpos, qspiStandardReadByte_eq f c hpos (by omega)]
    exact ⟨_, rfl, reaches_advance c n⟩

theorem readWordRun_eq {n : ℕ} (hn : n ≤ 2 ^ 20) (h : WordsComeIn n) (c : ReadPos) :
    ∃ c', readWordRun f n c = some (store c.buffer (flashBytes f c.offset (4 * n)), c') ∧
      Reaches c c' (4 * n) := by
  rw [readWordRun]
  rcases Nat.eq_zero_or_pos n with rfl | hpos
  · exact ⟨c, rfl, Reaches.refl c⟩
  · rw [if_pos hpos, qspiStandardReadWord_eq f hpos hn, if_pos h]
    exact ⟨_, rfl, reaches_advance c (4 * n)⟩

theorem readWordRun_none {n : ℕ} (hn : n ≤ 2 ^ 20) (h : ¬ WordsComeIn n) (c : ReadPos) :
    readWordRun f n c = none := by
  have hpos : 0 < n := by
    rcases Nat.eq_zero_or_pos n with rfl | hpos
    · exact absurd (.inl (by decide)) h
    · exact hpos
  rw [readWordRun, if_pos hpos, qspiStandardReadWord_eq f hpos hn, if_neg h]
  rfl

/-- A read shorter than the way to the boundary still takes that way. -/
theorem flashRead_short {offset length buffer : ℕ} (hin : offset + length ≤ falshSizeMax)
    (h : length < readShift buffer) (hs : readShift buffer < 4) :
    flashRead f offset length buffer = some (store buffer (flashBytes f offset (readShift buffer))) := by
  have hassert : (offset + length) % 2 ^ 32 ≤ falshSizeMax := (Nat.mod_le _ _).trans hin
  obtain ⟨c, hhead, -⟩ := readByteRun_eq f hs ⟨offset, buffer⟩
  rw [flashRead, assertParam_true hassert, if_neg (by omega), if_neg (by omega)]
  simp only [Option.bind_eq_bind, Option.bind_some, hhead, Option.pure_def]
  simp [readWordRun, readByteRun]

/-- A longer one reads the request whole, or waits for a DMA block for ever. -/
theorem flashRead_long {offset length buffer : ℕ} (hin : offset + length ≤ falshSizeMax)
    (h : readShift buffer ≤ length) (hs : readShift buffer < 4) :
    (WordsComeIn ((length - readShift buffer) / 4) →
      flashRead f offset length buffer = some (store buffer (flashBytes f offset length))) ∧
    (¬ WordsComeIn ((length - readShift buffer) / 4) → flashRead f offset length buffer = none) := by
  have hmax : falshSizeMax = 4194304 := rfl
  have hassert : (offset + length) % 2 ^ 32 ≤ falshSizeMax := (Nat.mod_le _ _).trans hin
  obtain ⟨c, hhead, hreach⟩ := readByteRun_eq f hs ⟨offset, buffer⟩
  rw [flashRead, assertParam_true hassert]
  generalize readShift buffer = shift at *
  generalize hw : (length - shift) / 4 = words
  generalize hr : (length - shift) % 4 = rest
  have hwords : (if length > shift then words else 0) = words := by
    split_ifs <;> omega
  have hrest : (if length > shift then rest else 0) = rest := by
    split_ifs <;> omega
  rw [hwords, hrest]
  simp only [Option.bind_eq_bind, Option.bind_some, hhead, Option.pure_def]
  constructor
  · intro hcome
    obtain ⟨c', hmid, hreach'⟩ := readWordRun_eq f (by omega) hcome c
    obtain ⟨c'', htail, -⟩ := readByteRun_eq f (n := rest) (by omega) c'
    simp only [hmid, htail, Option.bind_some]
    rw [hreach.store_append, (hreach.trans hreach').store_append]
    congr 3
    omega
  · intro hcome
    rw [readWordRun_none f (by omega) hcome, Option.bind_none]

/-- `FLASH_Read` stores the request at its destination, touches nothing else and agrees with
`FLASH_ReadByCache`, exactly when the request reaches the next word boundary of the
destination and its DMA blocks end. -/
theorem flashRead_exact_iff {offset length buffer : ℕ} (hin : offset + length ≤ falshSizeMax)
    (hb : buffer < 2 ^ 32) :
    (∃ w, flashRead f offset length buffer = some w ∧ ReadsExactly f offset length buffer w ∧
        flashReadByCache f offset length buffer = some w) ↔
      (4 - buffer % 4) % 4 ≤ length ∧
        ((length - (4 - buffer % 4) % 4) / 4 < maxDmacTransferSize ∨
          maxDmacTransferSize ≤ ((length - (4 - buffer % 4) % 4) / 4 - 1) % 2 ^ 16 + 1) := by
  have hshift := readShift_eq hb
  have hs : readShift buffer < 4 := by omega
  rw [← hshift]
  constructor
  · rintro ⟨w, hw, hexact, -⟩
    by_cases hlen : readShift buffer ≤ length
    · refine ⟨hlen, ?_⟩
      by_contra hcome
      rw [(flashRead_long f hin hlen hs).2 hcome] at hw
      cases hw
    · -- the first byte behind the request is written
      rw [flashRead_short f hin (by omega) hs] at hw
      cases hw
      obtain ⟨i, hi, he⟩ := (hexact.touches ((buffer + length) % 2 ^ 32)).mp
        ((touches_store _ _ _).mpr ⟨length, by rw [length_flashBytes]; omega, rfl⟩)
      omega
  · rintro ⟨hlen, hcome⟩
    exact ⟨_, (flashRead_long f hin hlen hs).1 hcome, store_readsExactly f hin, flashReadByCache_eq f hin⟩

/-- Five bytes to an odd address. -/
theorem flashRead_exact_iff_odd :
    (∃ w, flashRead (fun x => UInt8.ofNat x) 16 5 0x20000001 = some w ∧
        ReadsExactly (fun x => UInt8.ofNat x) 16 5 0x20000001 w ∧
        flashReadByCache (fun x => UInt8.ofNat x) 16 5 0x20000001 = some w) ↔
      (4 - 0x20000001 % 4) % 4 ≤ 5 ∧
        ((5 - (4 - 0x20000001 % 4) % 4) / 4 < maxDmacTransferSize ∨
          maxDmacTransferSize ≤ ((5 - (4 - 0x20000001 % 4) % 4) / 4 - 1) % 2 ^ 16 + 1) :=
  flashRead_exact_iff (fun x => UInt8.ofNat x) (by decide) (by decide)

/-- One byte to an odd address writes the two behind it as well. -/
theorem flashRead_writes_behind :
    ¬ ∀ (f : Flash) (offset length buffer : ℕ), offset + length ≤ falshSizeMax → buffer < 2 ^ 32 →
      ∃ w, flashRead f offset length buffer = some w ∧ ReadsExactly f offset length buffer w ∧
        flashReadByCache f offset length buffer = some w := by
  intro h
  obtain ⟨w, hw, -, hcache⟩ := h (fun _ => 0) 0 1 0x20000001 (by decide) (by decide)
  have hread : flashRead (fun _ => 0) 0 1 0x20000001 =
      some [(0x20000001, 0), (0x20000002, 0), (0x20000003, 0)] := by decide
  have hone : flashReadByCache (fun _ => 0) 0 1 0x20000001 = some [(0x20000001, 0)] := by decide
  rw [hread] at hw
  rw [hone, ← hw] at hcache
  exact absurd hcache (by decide)

end Ln882x.Hal
