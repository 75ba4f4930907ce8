import Ln882x.Kv.Index

/-! The key-value store of `components/fs/kv/kv/ln_kv.c`. Every function of the
source that the public calls reach is embedded under its own name, with its
flash reads and writes, its allocations and all its error returns.

Driver calls and allocations may fail: an environment says which ones do. A
failed write or erase may leave anything in the flash. Keys are C strings, that
is byte strings without their terminating zero; the pointer checks of the public
calls and the mutex, which has no effect on a sequential run, are left out. -/

namespace Ln882x.Kv

open Nor

/-- `kv_err_t`, the codes the embedded functions return. -/
inductive KvErr where
  | none | bufTooShort | blkStatusError | flashEraseFailed | flashReadFailed | flashWriteFailed
  | gcNothing | internalError | insufficientSpace | nextLoop | notExist | noWriteableBlk
  | outOfMemory | posFixFailed | sizeExceeded
  deriving DecidableEq

/-! ### Record layouts -/

def kvItemHdrMagic : ℕ := 0x636967616D5F7469

def kvItemDiscarded : ℕ := 0x0F0F0F0F0F0F0F0F

def kvBlkHdrMagic : ℕ := 0x302E31565F4B4C42

def kvBlkHdrGcSrc : ℕ := 0x6372735F6B72616D

def kvBlkHdrGcDst : ℕ := 0x7473645F6B72616D

def kvBlkHdrGcDone : ℕ := 0x656E6F645F63676B

/-- `(kv_wunit_t)-1`. -/
def wunitBlank : ℕ := 0xFFFFFFFFFFFFFFFF

/-- `kv_blk_hdr_t`. -/
structure BlkHdr where
  magic : ℕ
  gcSrc : ℕ
  gcDst : ℕ
  gcDone : ℕ
  deriving DecidableEq

def BlkHdr.ofBytes (bs : Bytes) : BlkHdr :=
  ⟨le (bs.take 8), le ((bs.drop 8).take 8), le ((bs.drop 16).take 8), le ((bs.drop 24).take 8)⟩

namespace BlkHdr

def isLegal (h : BlkHdr) : Bool := h.magic / 2 ^ 32 = kvBlkHdrMagic / 2 ^ 32

def isGcSrc (h : BlkHdr) : Bool := h.gcSrc ≠ wunitBlank

def isGcDst (h : BlkHdr) : Bool := h.gcDst ≠ wunitBlank

def isGcDone (h : BlkHdr) : Bool := h.gcDone ≠ wunitBlank

def isGcDstNotDone (h : BlkHdr) : Bool := h.isGcDst && !h.isGcDone

end BlkHdr

/-- `kv_item_hdr_t`. -/
structure ItemHdr where
  discardedFlag : ℕ
  magic : ℕ
  checksum : UInt8
  kLen : ℕ
  vLen : ℕ
  prevPos : ℕ
  deriving DecidableEq

def ItemHdr.ofBytes (bs : Bytes) : ItemHdr :=
  ⟨le (bs.take 8), le ((bs.drop 8).take 8), bs.getD 16 0, (bs.getD 17 0).toNat,
    le ((bs.drop 18).take 2), le ((bs.drop 20).take 4)⟩

namespace ItemHdr

def isDiscarded (h : ItemHdr) : Bool := h.discardedFlag = kvItemDiscarded

def isLegal (h : ItemHdr) : Bool := h.magic = kvItemHdrMagic

def isFresh (h : ItemHdr) : Bool :=
  h.magic = wunitBlank && h.discardedFlag = wunitBlank && h.checksum = 0xFF && h.kLen = 0xFF &&
    h.vLen = 0xFFFF && h.prevPos = 0xFFFFFFFF

/-- The fields from `checksum` on, which are written before the magic. -/
def tail (h : ItemHdr) : Bytes :=
  [h.checksum, UInt8.ofNat h.kLen] ++ leBytes 2 h.vLen ++ leBytes 4 h.prevPos

end ItemHdr

/-- `kv_item_t`; the body is empty until it is read. -/
structure KvItem where
  hdr : ItemHdr
  pos : ℕ
  body : Bytes
  deriving DecidableEq

/-! ### Checksum -/

/-- One step of the inner loop of `kv_checksum_crc8`. -/
def crc8Bit (crc : UInt8) : UInt8 := if crc &&& 0x80 ≠ 0 then (crc <<< 1) ^^^ 0x31 else crc <<< 1

def kvChecksumCrc8 (buf : Bytes) : UInt8 :=
  buf.foldl (fun crc b => crc8Bit^[8] (crc ^^^ b)) 0

/-! ### State and environment -/

/-- The part of a call that asks for memory. -/
inductive Phase where
  | find | gc | moved | fix | save | build | ctl
  deriving DecidableEq

/-- What fails: the outcome of the `n`-th allocation or driver call. A failing write or
erase changes the flash as the given function says. -/
structure Env where
  malloc : Phase → ℕ → Bool
  drv : ℕ → Option (Flash → Flash)

/-- Nothing fails. -/
def Env.good : Env := ⟨fun _ _ => true, fun _ => .none⟩

/-- The flash, the index, the number of allocations and driver calls made, and the record of
index changes, oldest first. -/
structure St where
  dev : Dev
  ctl : Ctl
  tick : ℕ
  calls : List IdxCall

abbrev K := StateM St

variable (G : Geo) (E : Env)

def lnKvMalloc (ph : Phase) : K Bool := fun s => (E.malloc ph s.tick, { s with tick := s.tick + 1 })

def kvFlashRead (addr len : ℕ) : K (Except KvErr Bytes) := fun s =>
  match E.drv s.tick with
  | none => (.ok (readBytes s.dev.flash addr len), { s with tick := s.tick + 1 })
  | some _ => (.error .flashReadFailed, { s with tick := s.tick + 1 })

/-- A driver call that changes the flash. -/
def kvFlashOp (o : Op) : K Bool := fun s =>
  match E.drv s.tick with
  | none => (true, { s with tick := s.tick + 1, dev := s.dev.exec o })
  | some g => (false, { s with tick := s.tick + 1, dev := { s.dev with flash := g s.dev.flash } })

def kvFlashWrite (addr : ℕ) (buf : Bytes) : K KvErr := do
  if ← kvFlashOp E (.program addr buf) then return .none else return .flashWriteFailed

def kvFlashErase (start len : ℕ) : K KvErr := do
  if ← kvFlashOp E (.erase start len) then return .none else return .flashEraseFailed

def getCtl : K Ctl := fun s => (s.ctl, s)

def idx (i : IdxCall) : K Unit := fun s => ((), { s with ctl := i.run s.ctl, calls := s.calls ++ [i] })

def kvFlashWunitModify (addr data : ℕ) : K KvErr := kvFlashWrite E addr (leBytes 8 data)

def kvFlashBlkErase (blk : ℕ) : K KvErr := kvFlashErase E blk kvBlkSize

/-! ### Blocks -/

def kvBlkHdrRead (blk : ℕ) : K (Except KvErr BlkHdr) := do
  match ← kvFlashRead E blk kvBlkHdrSize with
  | .error e => return .error e
  | .ok bs => return .ok (BlkHdr.ofBytes bs)

def kvBlkFormat (blk : ℕ) : K KvErr := do
  if (← kvFlashBlkErase E blk) ≠ .none then return .flashEraseFailed
  if (← kvFlashWunitModify E blk kvBlkHdrMagic) ≠ .none then return .flashWriteFailed
  idx (.setFresh blk)
  return .none

def kvBlkMarkGcSrc (blk : ℕ) : K KvErr := kvFlashWunitModify E (blk + 8) kvBlkHdrGcSrc

def kvBlkMarkGcDst (blk : ℕ) : K KvErr := kvFlashWunitModify E (blk + 16) kvBlkHdrGcDst

def kvBlkMarkGcDone (blk : ℕ) : K KvErr := kvFlashWunitModify E (blk + 24) kvBlkHdrGcDone

/-! ### Items -/

def kvItemHdrWrite (itemStart : ℕ) (hdr : ItemHdr) : K KvErr := do
  if (← kvFlashWrite E (itemStart + 16) hdr.tail) ≠ .none then return .flashWriteFailed
  kvFlashWunitModify E (itemStart + 8) hdr.magic

def kvItemWrite (itemStart : ℕ) (hdr : ItemHdr) (body : Bytes) : K KvErr := do
  if (← kvItemHdrWrite E itemStart hdr) ≠ .none then return .flashWriteFailed
  kvFlashWrite E (itemStart + kvItemHdrSize) body

def kvItemHdrRead (itemStart : ℕ) : K (Except KvErr ItemHdr) := do
  match ← kvFlashRead E itemStart kvItemHdrSize with
  | .error e => return .error e
  | .ok bs => return .ok (ItemHdr.ofBytes bs)

/-- The body of an item, of `k_len + v_len` bytes. -/
def kvItemBodyRead (ph : Phase) (item : KvItem) : K (Except KvErr Bytes) := do
  if ← lnKvMalloc E ph then
    kvFlashRead E (item.pos + kvItemHdrSize) (item.hdr.kLen + item.hdr.vLen)
  else return .error .outOfMemory

def kvItemDoDelete (itemStart : ℕ) : K KvErr := kvFlashWunitModify E itemStart kvItemDiscarded

def kvItemDeleteAux (itemStart : ℕ) : K KvErr := do
  if (← kvItemDoDelete E itemStart) ≠ .none then return .flashWriteFailed
  idx (.setDirty (G.itemAddr2Blk itemStart))
  return .none

def kvItemDelete (item : KvItem) : K KvErr := kvItemDeleteAux G E item.pos

def kvItemTryDelete (item : KvItem) : K KvErr := do
  let prevPos := item.hdr.prevPos
  match ← kvItemHdrRead E prevPos with
  | .error e => return e
  | .ok prevHdr =>
    if !prevHdr.isLegal || prevHdr.isDiscarded then return .none
    if item.hdr.kLen ≠ prevHdr.kLen then return .none
    if !(← lnKvMalloc E .build) then return .outOfMemory
    match ← kvFlashRead E (prevPos + kvItemHdrSize) item.hdr.kLen with
    | .error e => return e
    | .ok prevKey =>
      if prevKey ≠ item.body.take item.hdr.kLen then return .none
      kvItemDeleteAux G E prevPos

def kvItemHdrVerify (hdr : ItemHdr) (itemStart blk : ℕ) : Bool :=
  if hdr.kLen = 0 ∨ hdr.vLen = 0 ∨ hdr.kLen = 0xFF ∨ hdr.vLen = 0xFFFF then false
  else if itemStart + kvItemSize hdr.kLen hdr.vLen > kvBlkEnd blk then false
  else if itemStart + kvItemSize hdr.kLen hdr.vLen > G.stop then false
  else true

def kvItemBodyVerify (item : KvItem) : Bool := item.hdr.checksum = kvChecksumCrc8 item.body

def kvItemIsUpdatedOne (item : KvItem) : Bool := item.hdr.prevPos ≠ 0 ∧ item.pos ≠ item.hdr.prevPos

/-- Whether the flash no longer holds the item at its position. A failed read or allocation
answers no. -/
def kvItemIsMoved (item : KvItem) : K Bool := do
  match ← kvItemHdrRead E item.pos with
  | .error _ => return false
  | .ok hdr =>
    if hdr ≠ item.hdr then return true
    match ← kvItemBodyRead E .moved item with
    | .error _ => return false
    | .ok body => return body ≠ item.body

/-! ### Walking a block -/

/-- A walker gets an item whose body is not read yet and returns it, possibly with the body. -/
abbrev Walker := KvItem → K (KvErr × KvItem)

def kvItemDoGc (blkDst : ℕ) : Walker := fun item => do
  match ← kvItemBodyRead E .gc item with
  | .error e => return (e, item)
  | .ok body =>
    let c ← getCtl
    if (← kvItemWrite E (kvBlkUsableAddr blkDst c) item.hdr body) ≠ .none then
      return (.flashWriteFailed, { item with body := body })
    idx (.freeszReduce blkDst (kvItemSize item.hdr.kLen item.hdr.vLen))
    return (.nextLoop, { item with body := body })

def kvItemDoFetchNewCopy (dstItem : KvItem) : Walker := fun item => do
  if item.hdr.kLen ≠ dstItem.hdr.kLen ∨ item.hdr.vLen ≠ dstItem.hdr.vLen then return (.nextLoop, item)
  match ← kvItemBodyRead E .fix item with
  | .error e => return (e, item)
  | .ok body =>
    if body = dstItem.body then return (.none, { item with body := body })
    return (.nextLoop, { item with body := body })

def kvItemDoFetch (key : Bytes) : Walker := fun item => do
  if key.length ≠ item.hdr.kLen then return (.nextLoop, item)
  match ← kvItemBodyRead E .find item with
  | .error e => return (e, item)
  | .ok body =>
    if body.take item.hdr.kLen = key then return (.none, { item with body := body })
    return (.nextLoop, { item with body := body })

def kvItemDoRecovery : Walker := fun item => do
  match ← kvItemBodyRead E .build item with
  | .error e => return (e, item)
  | .ok body =>
    let item := { item with body := body }
    let err ←
      if !kvItemBodyVerify item then kvItemDelete G E item
      else if kvItemIsUpdatedOne item then kvItemTryDelete G E item
      else pure .none
    if err ≠ .none then return (err, item)
    return (.nextLoop, item)

/-- How one round of the walking loop ends. -/
inductive Round where
  | ret (err : KvErr) (item : Option KvItem)
  | brk
  | next (cur : ℕ)

/-- The body of the loop of `kv_item_walkthru`. -/
def kvItemWalkRound (ph : Phase) (blk : ℕ) (walker : Walker) (cur : ℕ) : K Round := do
  if !(← lnKvMalloc E ph) then return .ret .outOfMemory none
  match ← kvItemHdrRead E cur with
  | .error e => return .ret e none
  | .ok hdr =>
    if !hdr.isLegal && hdr.isFresh then return .brk
    if !hdr.isLegal || !kvItemHdrVerify G hdr cur blk then
      if (← kvItemDoDelete E cur) = .none then idx (.setDirty blk)
      return .next (cur + kvItemHdrSize)
    if hdr.isDiscarded then
      idx (.setDirty blk)
      return .next (cur + kvItemSize hdr.kLen hdr.vLen)
    let (err, item) ← walker ⟨hdr, cur, []⟩
    if err = .none then return .ret .none (some item)
    if err ≠ .nextLoop then return .ret err none
    return .next (cur + kvItemSize hdr.kLen hdr.vLen)

/-- The loop of `kv_item_walkthru`: either the function returns from inside it, or it is left
at an address. Every round moves on by at least a header, so `n` rounds are enough as soon as
`kvBlkSize ≤ n * kvItemHdrSize`. -/
def kvItemWalkLoop (ph : Phase) (blk : ℕ) (walker : Walker) : ℕ → ℕ → K (Sum (KvErr × Option KvItem) ℕ)
  | 0, _ => return .inl (.internalError, none)
  | n + 1, cur => do
    match ← kvItemWalkRound G E ph blk walker cur with
    | .ret e i => return .inl (e, i)
    | .brk => return .inr cur
    | .next cur =>
      if cur + kvItemHdrSize < kvBlkEnd blk then kvItemWalkLoop ph blk walker n cur
      else return .inr cur

/-- The index update after a complete walk that ended at `cur`. -/
def kvItemWalkIndex (blk cur : ℕ) : K Unit := do
  if cur = kvBlkFirstItem blk then idx (.setFresh blk)
  else if cur + kvItemHdrSize < kvBlkEnd blk then
    idx (.freeszSet blk (kvBlkEnd blk - cur))
    idx (.setInuse blk)
  else
    idx (.freeszSet blk 0)
    idx (.resetInuse blk)

def kvItemWalkthru (ph : Phase) (blk : ℕ) (walker : Walker) : K (KvErr × Option KvItem) := do
  match ← kvItemWalkLoop G E ph blk walker 171 (kvBlkFirstItem blk) with
  | .inl r => return r
  | .inr cur =>
    kvItemWalkIndex blk cur
    return (.none, none)

/-! ### Searching all blocks -/

def kvItemDoFind (blk : ℕ) (key : Bytes) : K (Option KvItem) := do
  match ← kvItemWalkthru G E .find blk (kvItemDoFetch E key) with
  | (.none, item) => return item
  | _ => return none

def kvItemDoFindNewCopy (blk : ℕ) (item : KvItem) : K (Option KvItem) := do
  match ← kvItemWalkthru G E .fix blk (kvItemDoFetchNewCopy E item) with
  | (.none, item) => return item
  | _ => return none

/-- The common loop of `kv_item_find` and `kv_item_find_new_copy`. -/
def kvItemSearch (f : ℕ → K (Option KvItem)) : List ℕ → K (Option KvItem)
  | [] => return none
  | blk :: blks => do
    let c ← getCtl
    if kvBlkIsBad blk c || kvBlkIsFresh blk c then kvItemSearch f blks
    else
      match ← f blk with
      | some item => return some item
      | none => kvItemSearch f blks

def kvItemFind (key : Bytes) : K (Option KvItem) := kvItemSearch (kvItemDoFind G E · key) G.blks

def kvItemFindNewCopy (item : KvItem) : K (Option KvItem) :=
  kvItemSearch (kvItemDoFindNewCopy G E · item) G.blks

/-! ### Garbage collection -/

/-- Steps 4 and 5 of `kv_do_gc`: format the source, mark the destination done. -/
def kvDoGcFinish (blkSrc blkDst : ℕ) : K KvErr := do
  idx (.resetInuse blkSrc)
  if (← kvBlkFormat E blkSrc) ≠ .none then idx (.setBad blkSrc)
  let err ← kvBlkMarkGcDone E blkDst
  if err ≠ .none then return err
  idx (.resetFresh blkDst)
  let c ← getCtl
  if !kvBlkIsFull blkDst c then idx (.setInuse blkDst)
  return .none

/-- Steps 2 to 5: mark the destination, copy the items, then finish. -/
def kvDoGcCopy (blkSrc blkDst : ℕ) : K KvErr := do
  let err ← kvBlkMarkGcDst E blkDst
  if err ≠ .none then return err
  let (err, _) ← kvItemWalkthru G E .gc blkSrc (kvItemDoGc E blkDst)
  if err ≠ .none then return err
  kvDoGcFinish E blkSrc blkDst

/-- Step 1 marks the source, unless it was marked before a power cut. -/
def kvDoGc (blkSrc blkDst : ℕ) (isHandleIncomplete : Bool) : K KvErr := do
  if isHandleIncomplete then kvDoGcCopy G E blkSrc blkDst
  else
    let err ← kvBlkMarkGcSrc E blkSrc
    if err ≠ .none then return err
    kvDoGcCopy G E blkSrc blkDst

def kvMgrIndexBuild (blk : ℕ) : K KvErr := do
  let (err, _) ← kvItemWalkthru G E .build blk (kvItemDoRecovery G E)
  return err

def kvMgrBlkIndexRebuildFrom : Bool → List ℕ → K Bool
  | done, [] => return done
  | done, blk :: blks => do
    let c ← getCtl
    if kvBlkIsHanging blk c then
      if (← kvMgrIndexBuild G E blk) = .none then
        idx (.resetHanging blk)
        kvMgrBlkIndexRebuildFrom true blks
      else kvMgrBlkIndexRebuildFrom done blks
    else kvMgrBlkIndexRebuildFrom done blks

def kvMgrBlkIndexRebuild : K Bool := kvMgrBlkIndexRebuildFrom G E false G.blks

/-- The loop of `kv_gc` and `kv_try_gc`: collect the first dirty block that can be. -/
def kvGcFirst (blkDst : ℕ) : List ℕ → K Bool
  | [] => return false
  | blk :: blks => do
    let c ← getCtl
    if kvBlkIsDirty blk c then
      if (← kvDoGc G E blk blkDst false) = .none then return true
      else kvGcFirst blkDst blks
    else kvGcFirst blkDst blks

def kvGc : K KvErr := do
  let c ← getCtl
  let isRebuildDone ← if c.numHanging > 0 then kvMgrBlkIndexRebuild G E else pure false
  let c ← getCtl
  let blkDst := kvBlkNextFresh G c
  if blkDst = kvBlkInvalid then return .gcNothing
  let isGcDone ← kvGcFirst G E blkDst G.blks
  if isGcDone then idx (.setWorkspace blkDst)
  if isGcDone || isRebuildDone then return .none else return .gcNothing

def kvTryGc : K KvErr := do
  let c ← getCtl
  let blkDst := kvBlkGetAFresh G c
  if blkDst = kvBlkInvalid then return .gcNothing
  if ← kvGcFirst G E blkDst G.blks then return .none else return .gcNothing

/-! ### Saving an item -/

/-- The `do … while` loop of `kv_blk_search_suitable`. It comes round only after a collection
or an index rebuild, so `n` rounds are enough when that cannot happen `n` times. -/
def kvBlkSearchLoop (itemSize : ℕ) : ℕ → K ℕ
  | 0 => return kvBlkInvalid
  | n + 1 => do
    let c ← getCtl
    if kvBlkFreeszGet c.workspace c ≥ itemSize then return c.workspace
    let theBlk := kvBlkSearchInuse G c itemSize
    if theBlk ≠ kvBlkInvalid then
      idx (.setWorkspace theBlk)
      return theBlk
    if c.numFresh < 1 then return kvBlkInvalid
    if c.numFresh > 1 then
      idx (.setWorkspace (kvBlkNextFresh G c))
      return kvBlkNextFresh G c
    if (← kvGc G E) ≠ .none then
      let c ← getCtl
      idx (.setWorkspace (kvBlkNextFresh G c))
      return kvBlkNextFresh G c
    kvBlkSearchLoop itemSize n

def kvBlkSearchSuitable (itemSize : ℕ) : K ℕ := do
  let c ← getCtl
  if kvNoWriteableBlk c then return kvBlkInvalid
  if c.workspace = kvBlkInvalid then return kvBlkInvalid
  kvBlkSearchLoop G E itemSize (2 * G.blocks + 1)

def kvItemDoSave (itemStart : ℕ) (k v : Bytes) (prevPos : ℕ) : K KvErr := do
  if !(← lnKvMalloc E .save) then return .outOfMemory
  let hdr : ItemHdr := ⟨0, kvItemHdrMagic, kvChecksumCrc8 (k ++ v), k.length, v.length, prevPos⟩
  kvItemWrite E itemStart hdr (k ++ v)

def kvItemValueIsMatch (item : KvItem) (value : Bytes) : Bool :=
  value.length = item.hdr.vLen ∧ item.body.drop item.hdr.kLen = value

/-- The new position of a moved item. -/
def kvItemFix (item : KvItem) : K (Except KvErr KvItem) := do
  match ← kvItemFindNewCopy G E item with
  | none => return .error .posFixFailed
  | some moved => return .ok { item with pos := moved.pos }

/-- `kv_item_save` for a block already chosen and a position already fixed. -/
def kvItemSaveAt (k v : Bytes) (blk prevPos : ℕ) : K KvErr := do
  let c ← getCtl
  let err ← kvItemDoSave E (kvBlkUsableAddr blk c) k v prevPos
  if err ≠ .none then return err
  idx (.freeszReduce blk (kvItemSize k.length v.length))
  let c ← getCtl
  if kvBlkIsFresh blk c then
    idx (.resetFresh blk)
    let c ← getCtl
    if !kvBlkIsFull blk c then idx (.setInuse blk)
  else if kvBlkIsFull blk c then idx (.resetInuse blk)
  return .none

/-- The error code, and the previous item with the position it has now. -/
def kvItemSave (k v : Bytes) (prev : Option KvItem) : K (KvErr × Option KvItem) := do
  let blk ← kvBlkSearchSuitable G E (kvItemSize k.length v.length)
  if blk = kvBlkInvalid then return (.insufficientSpace, prev)
  match prev with
  | none => return (← kvItemSaveAt E k v blk 0, none)
  | some item =>
    if ← kvItemIsMoved E item then
      match ← kvItemFix G E item with
      | .error e => return (e, some item)
      | .ok item => return (← kvItemSaveAt E k v blk item.pos, some item)
    else return (← kvItemSaveAt E k v blk item.pos, some item)

def kvItemUpdate (item : KvItem) (key value : Bytes) : K KvErr := do
  if kvItemValueIsMatch item value then return .none
  match ← kvItemSave G E key value (some item) with
  | (.none, some item) => kvItemDelete G E item
  | (err, _) => return err

/-! ### Start-up -/

/-- What the header scan of `kv_mgr_ctl_build` collects: the last fresh block, the blocks
with `gc_src` and those with `gc_dst` but not `gc_done`. The source keeps the last two in
arrays of three entries with a count. -/
structure BuildScan where
  freshBlk : ℕ
  gcSrc : List ℕ
  gcDstNotDone : List ℕ
  deriving DecidableEq

def kvHandleIncompleteGc (scan : BuildScan) : K KvErr := do
  if scan.gcSrc.length > 1 ∨ scan.gcDstNotDone.length > 1 then return .blkStatusError
  match scan.gcSrc with
  | [] => return .none
  | srcBlk :: _ =>
    match scan.gcDstNotDone with
    | [] =>
      if scan.freshBlk = kvBlkInvalid then return .blkStatusError
      kvDoGc G E srcBlk scan.freshBlk true
    | dstBlk :: _ =>
      let err ← kvBlkFormat E dstBlk
      if err ≠ .none then
        idx (.setBad dstBlk)
        return err
      kvDoGc G E srcBlk dstBlk true

def kvMgrCtlScan : BuildScan → List ℕ → K BuildScan
  | scan, [] => return scan
  | scan, blk :: blks => do
    match ← kvBlkHdrRead E blk with
    | .error _ =>
      idx (.setBad blk)
      kvMgrCtlScan scan blks
    | .ok hdr =>
      if !hdr.isLegal then
        if (← kvBlkFormat E blk) ≠ .none then
          idx (.setBad blk)
          kvMgrCtlScan scan blks
        else kvMgrCtlScan { scan with freshBlk := blk } blks
      else if hdr.isGcSrc then kvMgrCtlScan { scan with gcSrc := scan.gcSrc ++ [blk] } blks
      else if hdr.isGcDstNotDone then
        kvMgrCtlScan { scan with gcDstNotDone := scan.gcDstNotDone ++ [blk] } blks
      else if (← kvMgrIndexBuild G E blk) ≠ .none then
        idx (.setHanging blk)
        kvMgrCtlScan scan blks
      else
        let c ← getCtl
        if kvBlkIsFresh blk c then kvMgrCtlScan { scan with freshBlk := blk } blks
        else kvMgrCtlScan scan blks

def kvMgrCtlBuild : K KvErr := do
  let scan ← kvMgrCtlScan G E ⟨kvBlkInvalid, [], []⟩ G.blks
  kvHandleIncompleteGc G E scan

def kvMgrWorkspaceLocate : K KvErr := do
  let c ← getCtl
  if c.numHanging > 0 then discard (kvMgrBlkIndexRebuild G E)
  let c ← getCtl
  if c.numInuse = 0 ∧ c.numFresh = 1 then discard (kvTryGc G E)
  let c ← getCtl
  if kvNoWriteableBlk c then return .noWriteableBlk
  match G.blks.find? fun blk => if c.numInuse = 0 then kvBlkIsFresh blk c else kvBlkIsInuse blk c with
  | some blk =>
    idx (.setWorkspace blk)
    return .none
  | none => return .none

def lnKvInit : K KvErr := do
  idx .clear
  if !(← lnKvMalloc E .ctl) then return .outOfMemory
  let err ← kvMgrCtlBuild G E
  if err ≠ .none then return err
  kvMgrWorkspaceLocate G E

/-! ### The public calls -/

def lnKvSet (key value : Bytes) : K KvErr := do
  if key.length ≥ 0xFF ∨ value.length ≥ 0xFFFF then return .sizeExceeded
  match ← kvItemFind G E key with
  | some item => kvItemUpdate G E item key value
  | none =>
    let (err, _) ← kvItemSave G E key value none
    return err

/-- The error code and, on success, the bytes copied to the caller's buffer. -/
def lnKvGet (key : Bytes) (valueBufSize : ℕ) : K (KvErr × Bytes) := do
  if key.length ≥ 0xFF then return (.sizeExceeded, [])
  match ← kvItemFind G E key with
  | none => return (.notExist, [])
  | some item =>
    if valueBufSize < item.hdr.vLen then return (.bufTooShort, [])
    return (.none, item.body.drop item.hdr.kLen)

/-- `LN_TRUE` or `LN_FALSE`, or the error code for an overlong key, which is non-zero. -/
def lnKvHasKey (key : Bytes) : K Bool := do
  if key.length ≥ 0xFF then return true
  return (← kvItemFind G E key).isSome

def lnKvDel (key : Bytes) : K KvErr := do
  if key.length ≥ 0xFF then return .sizeExceeded
  match ← kvItemFind G E key with
  | none => return .notExist
  | some item => kvItemDelete G E item

/-! ### Runs -/

/-- A public call with its arguments. -/
inductive Call where
  | init
  | set (key value : Bytes)
  | get (key : Bytes) (valueBufSize : ℕ)
  | hasKey (key : Bytes)
  | del (key : Bytes)
  deriving DecidableEq

/-- What a public call returns. -/
inductive Reply where
  | code (err : KvErr)
  | data (err : KvErr) (value : Bytes)
  | flag (b : Bool)
  deriving DecidableEq

def Call.run : Call → K Reply
  | .init => do return .code (← lnKvInit G E)
  | .set key value => do return .code (← lnKvSet G E key value)
  | .get key n => do
    let (err, value) ← lnKvGet G E key n
    return .data err value
  | .hasKey key => do return .flag (← lnKvHasKey G E key)
  | .del key => do return .code (← lnKvDel G E key)

def runCalls : List Call → K (List Reply)
  | [] => return []
  | c :: cs => do
    let r ← c.run G E
    return r :: (← runCalls cs)

/-- Power on: nothing in RAM. -/
def St.on (f : Flash) : St := ⟨.on f, .zero, 0, []⟩

end Ln882x.Kv
