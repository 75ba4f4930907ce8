import Mathlib.Logic.Function.Basic
import Ln882x.Nor.Trace

/-! The block index of the key-value store (`components/fs/kv/kv/ln_kv.h`): the
area of flash it manages, the flags and free size kept in RAM for every block,
the three counters over them, and the helpers through which the store changes
them. A block is named by its start address, as in the source. -/

namespace Ln882x.Kv

/-! ### The area -/

/-- `1 << KV_CONFIG_FLASH_SECT_SIZE_LOG2`. -/
def kvBlkSize : ℕ := 0x1000

def kvBlkHdrSize : ℕ := 32

def kvItemHdrSize : ℕ := 24

def kvBlkFreshSize : ℕ := kvBlkSize - kvBlkHdrSize

def kvBlkInvalid : ℕ := 0xFFFFFFFF

/-- An area that `kv_param_verify` accepts, of whole aligned sectors. They are few enough for
the 16-bit block counters, and the area ends far enough below `2 ^ 32` that the end of an item
of the greatest length does not wrap. -/
structure Geo where
  start : ℕ
  blocks : ℕ
  pos : 0 < blocks
  few : blocks < 2 ^ 16
  aligned : start % kvBlkSize = 0
  fits : start + blocks * kvBlkSize + 2 ^ 17 ≤ 2 ^ 32

namespace Geo
variable (G : Geo)

/-- `KV_FLASH_END`. -/
def stop : ℕ := G.start + G.blocks * kvBlkSize

/-- The blocks in the order of `KV_BLK_FOR_EACH`. -/
def blks : List ℕ := (List.range G.blocks).map fun i => G.start + i * kvBlkSize

/-- `KV_BLK_NEXT`. -/
def next (blk : ℕ) : ℕ := if blk + kvBlkSize ≥ G.stop then G.start else blk + kvBlkSize

/-- `KV_ITEM_ADDR2BLK`, in 32-bit arithmetic. -/
def itemAddr2Blk (addr : ℕ) : ℕ :=
  let off := (addr + 2 ^ 32 - G.start) % 2 ^ 32
  off - off % kvBlkSize + G.start

/-- `KV_BLK_FOR_EACH_FROM`: the first block after `origin`, going round the area once, that
passes the test. -/
def ringSearch (p : ℕ → Bool) (origin : ℕ) : ℕ → ℕ → ℕ
  | 0, _ => kvBlkInvalid
  | n + 1, cur =>
    if cur = origin then kvBlkInvalid
    else if p cur then cur
    else ringSearch p origin n (G.next cur)

end Geo

/-- `KV_BLK_END`. -/
def kvBlkEnd (blk : ℕ) : ℕ := blk + kvBlkSize

/-- `KV_BLK_FIRST_ITEM`. -/
def kvBlkFirstItem (blk : ℕ) : ℕ := blk + kvBlkHdrSize

/-- `KV_ITEM_SIZE`. -/
def kvItemSize (kLen vLen : ℕ) : ℕ := kvItemHdrSize + (kLen + vLen)

/-! ### The index -/

/-- The bits of `blk_flags`. -/
structure Flags where
  fresh : Bool
  inuse : Bool
  dirty : Bool
  bad : Bool
  hanging : Bool
  deriving DecidableEq

/-- The flag byte 0. -/
def Flags.zero : Flags := ⟨false, false, false, false, false⟩

/-- `kv_blk_detail_t`. -/
structure BlkDetail where
  flags : Flags
  freeSize : ℕ
  deriving DecidableEq

/-- `kv_mgr_ctl_t`. The counters are 16-bit. -/
structure Ctl where
  workspace : ℕ
  numInuse : ℕ
  numFresh : ℕ
  numHanging : ℕ
  blkDetail : ℕ → BlkDetail

/-- `memset(&kv_ctl, 0, sizeof(kv_ctl))` and the cleared detail array. -/
def Ctl.zero : Ctl := ⟨0, 0, 0, 0, fun _ => ⟨.zero, 0⟩⟩

def inc16 (n : ℕ) : ℕ := (n + 1) % 2 ^ 16

def dec16 (n : ℕ) : ℕ := if n = 0 then 0xFFFF else n - 1

section Helpers
variable (blk : ℕ) (c : Ctl)

def kvBlkFreeszGet : ℕ := (c.blkDetail blk).freeSize

def kvBlkFlagsGet : Flags := (c.blkDetail blk).flags

def kvBlkIsFresh : Bool := (kvBlkFlagsGet blk c).fresh

def kvBlkIsInuse : Bool := (kvBlkFlagsGet blk c).inuse

def kvBlkIsDirty : Bool := (kvBlkFlagsGet blk c).dirty

def kvBlkIsBad : Bool := (kvBlkFlagsGet blk c).bad

def kvBlkIsHanging : Bool := (kvBlkFlagsGet blk c).hanging

def kvBlkIsFull : Bool := kvBlkFreeszGet blk c ≤ kvItemHdrSize

/-- `KV_BLK_USABLE_ADDR`, in 32-bit arithmetic. -/
def kvBlkUsableAddr : ℕ := (kvBlkEnd blk + 2 ^ 32 - kvBlkFreeszGet blk c) % 2 ^ 32

def kvBlkFreeszSet (size : ℕ) : Ctl :=
  { c with blkDetail := Function.update c.blkDetail blk { c.blkDetail blk with freeSize := size } }

/-- `kv_blk_freesz_reduce`: an unsigned subtraction. -/
def kvBlkFreeszReduce (size : ℕ) : Ctl :=
  kvBlkFreeszSet blk c ((kvBlkFreeszGet blk c + 2 ^ 32 - size) % 2 ^ 32)

def kvBlkFlagsSet (flags : Flags) : Ctl :=
  { c with blkDetail := Function.update c.blkDetail blk { c.blkDetail blk with flags := flags } }

/-- Counts up unless the block is fresh already; overwrites the whole flag byte. -/
def kvBlkSetFresh : Ctl :=
  let c := if kvBlkIsFresh blk c then c else { c with numFresh := inc16 c.numFresh }
  let c := kvBlkFreeszSet blk c kvBlkFreshSize
  kvBlkFlagsSet blk c { Flags.zero with fresh := true }

def kvBlkSetInuse : Ctl :=
  let c := if kvBlkIsInuse blk c then c else { c with numInuse := inc16 c.numInuse }
  kvBlkFlagsSet blk c { kvBlkFlagsGet blk c with inuse := true }

def kvBlkSetDirty : Ctl := kvBlkFlagsSet blk c { kvBlkFlagsGet blk c with dirty := true }

/-- Overwrites the whole flag byte and touches no counter. -/
def kvBlkSetBad : Ctl := kvBlkFlagsSet blk c { Flags.zero with bad := true }

def kvBlkSetHanging : Ctl :=
  let c := if kvBlkIsHanging blk c then c else { c with numHanging := inc16 c.numHanging }
  kvBlkFlagsSet blk c { kvBlkFlagsGet blk c with hanging := true }

def kvBlkResetFresh : Ctl :=
  let c := if kvBlkIsFresh blk c then { c with numFresh := dec16 c.numFresh } else c
  kvBlkFlagsSet blk c { kvBlkFlagsGet blk c with fresh := false }

def kvBlkResetInuse : Ctl :=
  let c := if kvBlkIsInuse blk c then { c with numInuse := dec16 c.numInuse } else c
  kvBlkFlagsSet blk c { kvBlkFlagsGet blk c with inuse := false }

def kvBlkResetHanging : Ctl :=
  let c := if kvBlkIsHanging blk c then { c with numHanging := dec16 c.numHanging } else c
  kvBlkFlagsSet blk c { kvBlkFlagsGet blk c with hanging := false }

end Helpers

/-- `KV_NO_WRITEABLE_BLK`. -/
def kvNoWriteableBlk (c : Ctl) : Bool := c.numInuse = 0 ∧ c.numFresh = 0

/-- The calls by which the store changes its index. -/
inductive IdxCall where
  | clear
  | freeszSet (blk size : ℕ)
  | freeszReduce (blk size : ℕ)
  | setFresh (blk : ℕ)
  | setInuse (blk : ℕ)
  | setDirty (blk : ℕ)
  | setBad (blk : ℕ)
  | setHanging (blk : ℕ)
  | resetFresh (blk : ℕ)
  | resetInuse (blk : ℕ)
  | resetHanging (blk : ℕ)
  | setWorkspace (blk : ℕ)
  deriving DecidableEq

def IdxCall.run (c : Ctl) : IdxCall → Ctl
  | .clear => .zero
  | .freeszSet blk size => kvBlkFreeszSet blk c size
  | .freeszReduce blk size => kvBlkFreeszReduce blk c size
  | .setFresh blk => kvBlkSetFresh blk c
  | .setInuse blk => kvBlkSetInuse blk c
  | .setDirty blk => kvBlkSetDirty blk c
  | .setBad blk => kvBlkSetBad blk c
  | .setHanging blk => kvBlkSetHanging blk c
  | .resetFresh blk => kvBlkResetFresh blk c
  | .resetInuse blk => kvBlkResetInuse blk c
  | .resetHanging blk => kvBlkResetHanging blk c
  | .setWorkspace blk => { c with workspace := blk }

/-! ### Searches -/

section Search
variable (G : Geo) (c : Ctl)

/-- The first fresh block behind the workspace, taking the blocks as a ring. -/
def kvBlkNextFresh : ℕ :=
  G.ringSearch (kvBlkIsFresh · c) c.workspace G.blocks (G.next c.workspace)

def kvBlkGetAFresh : ℕ := (G.blks.find? (kvBlkIsFresh · c)).getD kvBlkInvalid

def kvBlkSearchInuse (itemSize : ℕ) : ℕ :=
  G.ringSearch (fun blk => kvBlkIsInuse blk c && decide (kvBlkFreeszGet blk c ≥ itemSize))
    c.workspace G.blocks (G.next c.workspace)

end Search

end Ln882x.Kv
