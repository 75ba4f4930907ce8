import Ln882x.Memory.Chain

/-! The heap of the kernel (`portable/MemMang/heap_5.c`). Free memory is a list of
blocks in the order of their addresses, each with its header at its first address.
`pvPortMalloc` takes the first block that is large enough and puts back what it does
not need; `vPortFree` puts the block back and joins it with its neighbours. A size
with its top bit set marks a block of the application. The loops over the list have a
bound on the number of rounds; a false `configASSERT` ends in its endless loop. -/

namespace Ln882x.Kernel

open Memory

def portByteAlignment : ℕ := 8

def portByteAlignmentMask : ℕ := 7

/-- `sizeof(BlockLink_t)`, rounded up to the alignment. -/
def xHeapStructSize : ℕ := 8

def heapMinimumBlockSize : ℕ := xHeapStructSize * 2

/-- `BlockLink_t`; addresses are 32-bit, zero is `NULL`. -/
structure BlockLink where
  pxNextFreeBlock : ℕ
  xBlockSize : ℕ
  deriving DecidableEq

/-- The headers in memory, among them `xStart` at an address of its own, and the variables of
the module. -/
structure Heap where
  mem : ℕ → BlockLink
  xStart : ℕ
  pxEnd : ℕ
  xFreeBytesRemaining : ℕ
  xMinimumEverFreeBytesRemaining : ℕ
  xBlockAllocatedBit : ℕ

def Heap.next (h : Heap) (a : ℕ) : ℕ := (h.mem a).pxNextFreeBlock

def Heap.size (h : Heap) (a : ℕ) : ℕ := (h.mem a).xBlockSize

def Heap.setNext (h : Heap) (a n : ℕ) : Heap :=
  { h with mem := Function.update h.mem a { h.mem a with pxNextFreeBlock := n } }

def Heap.setSize (h : Heap) (a n : ℕ) : Heap :=
  { h with mem := Function.update h.mem a { h.mem a with xBlockSize := n } }

def Heap.setBlock (h : Heap) (a : ℕ) (v : BlockLink) : Heap := { h with mem := Function.update h.mem a v }

def Heap.setEnd (h : Heap) (a : ℕ) : Heap := { h with pxEnd := a }

def Heap.setBit (h : Heap) (b : ℕ) : Heap := { h with xBlockAllocatedBit := b }

def Heap.setCounters (h : Heap) (xFreeBytesRemaining xMinimumEverFreeBytesRemaining : ℕ) : Heap :=
  { h with
    xFreeBytesRemaining := xFreeBytesRemaining
    xMinimumEverFreeBytesRemaining := xMinimumEverFreeBytesRemaining }

/-- Addition and subtraction of `size_t`. -/
def sizeAdd (m n : ℕ) : ℕ := (m + n) % 2 ^ 32

def sizeSub (m n : ℕ) : ℕ := (m + 2 ^ 32 - n) % 2 ^ 32

def configAssert (p : Prop) [Decidable p] : Option Unit := if p then some () else none

/-! ### Putting a block into the list -/

/-- `for (pxIterator = &xStart; pxIterator->pxNextFreeBlock < pxBlockToInsert; …)`. -/
def insertLoop (h : Heap) (pxBlockToInsert : ℕ) : ℕ → ℕ → Option ℕ
  | 0, _ => none
  | fuel + 1, pxIterator =>
    if h.next pxIterator < pxBlockToInsert then insertLoop h pxBlockToInsert fuel (h.next pxIterator)
    else some pxIterator

/-- The block in front makes one range with the new one: the new block is the joint one. -/
def insertFront (h : Heap) (pxIterator pxBlockToInsert : ℕ) : Heap × ℕ :=
  if pxIterator + h.size pxIterator = pxBlockToInsert then
    (h.setSize pxIterator (h.size pxIterator + h.size pxBlockToInsert), pxIterator)
  else (h, pxBlockToInsert)

/-- The block behind makes one range with it, unless it is `pxEnd`. -/
def insertBehind (h : Heap) (pxIterator pxBlockToInsert : ℕ) : Heap :=
  if pxBlockToInsert + h.size pxBlockToInsert = h.next pxIterator then
    if h.next pxIterator ≠ h.pxEnd then
      (h.setSize pxBlockToInsert (h.size pxBlockToInsert + h.size (h.next pxIterator))).setNext pxBlockToInsert
        (h.next (h.next pxIterator))
    else h.setNext pxBlockToInsert h.pxEnd
  else h.setNext pxBlockToInsert (h.next pxIterator)

def prvInsertBlockIntoFreeList (fuel : ℕ) (h : Heap) (pxBlockToInsert : ℕ) : Option Heap := do
  let pxIterator ← insertLoop h pxBlockToInsert fuel h.xStart
  let (h, pxBlockToInsert) := insertFront h pxIterator pxBlockToInsert
  let h := insertBehind h pxIterator pxBlockToInsert
  return if pxIterator ≠ pxBlockToInsert then h.setNext pxIterator pxBlockToInsert else h

/-! ### Allocation -/

/-- The wanted size with a header, rounded up. -/
def roundedSize (xWantedSize : ℕ) : ℕ :=
  if xWantedSize > 0 then
    let xWantedSize := xWantedSize + xHeapStructSize
    if xWantedSize &&& portByteAlignmentMask ≠ 0 then
      xWantedSize + (portByteAlignment - (xWantedSize &&& portByteAlignmentMask))
    else xWantedSize
  else xWantedSize

/-- The search for a block of adequate size: the block in front of it and the block. -/
def mallocLoop (h : Heap) (xWantedSize : ℕ) : ℕ → ℕ → ℕ → Option (ℕ × ℕ)
  | 0, _, _ => none
  | fuel + 1, pxPreviousBlock, pxBlock =>
    if h.size pxBlock < xWantedSize ∧ h.next pxBlock ≠ 0 then mallocLoop h xWantedSize fuel pxBlock (h.next pxBlock)
    else some (pxPreviousBlock, pxBlock)

/-- A block that is larger than required is split into two. -/
def splitBlock (fuel : ℕ) (h : Heap) (pxBlock xWantedSize : ℕ) : Option Heap :=
  if h.size pxBlock - xWantedSize > heapMinimumBlockSize then
    let pxNewBlockLink := pxBlock + xWantedSize
    let h := h.setSize pxNewBlockLink (h.size pxBlock - xWantedSize)
    let h := h.setSize pxBlock xWantedSize
    prvInsertBlockIntoFreeList fuel h pxNewBlockLink
  else some h

/-- The block is given to the application. -/
def takeBlock (h : Heap) (pxBlock : ℕ) : Heap :=
  let xFreeBytesRemaining := sizeSub h.xFreeBytesRemaining (h.size pxBlock)
  let h := h.setCounters xFreeBytesRemaining (if xFreeBytesRemaining < h.xMinimumEverFreeBytesRemaining then
    xFreeBytesRemaining else h.xMinimumEverFreeBytesRemaining)
  (h.setSize pxBlock (h.size pxBlock ||| h.xBlockAllocatedBit)).setNext pxBlock 0

/-- The address for the application, `NULL` when there is none, and the heap. -/
def pvPortMalloc (fuel xWantedSize : ℕ) (h : Heap) : Option (ℕ × Heap) := do
  configAssert (h.pxEnd ≠ 0)
  if xWantedSize &&& h.xBlockAllocatedBit = 0 then
    let xWantedSize := roundedSize xWantedSize
    if xWantedSize > 0 ∧ xWantedSize ≤ h.xFreeBytesRemaining then
      let (pxPreviousBlock, pxBlock) ← mallocLoop h xWantedSize fuel h.xStart (h.next h.xStart)
      if pxBlock ≠ h.pxEnd then
        let pvReturn := h.next pxPreviousBlock + xHeapStructSize
        let h := h.setNext pxPreviousBlock (h.next pxBlock)
        let h ← splitBlock fuel h pxBlock xWantedSize
        return (pvReturn, takeBlock h pxBlock)
      else return (0, h)
    else return (0, h)
  else return (0, h)

def vPortFree (fuel pv : ℕ) (h : Heap) : Option Heap := do
  if pv ≠ 0 then
    let pxLink := pv - xHeapStructSize
    configAssert (h.size pxLink &&& h.xBlockAllocatedBit ≠ 0)
    configAssert (h.next pxLink = 0)
    if h.size pxLink &&& h.xBlockAllocatedBit ≠ 0 then
      if h.next pxLink = 0 then
        let h := h.setSize pxLink (h.size pxLink &&& (2 ^ 32 - 1 - h.xBlockAllocatedBit))
        let h := h.setCounters (sizeAdd h.xFreeBytesRemaining (h.size pxLink)) h.xMinimumEverFreeBytesRemaining
        prvInsertBlockIntoFreeList fuel h pxLink
      else return h
    else return h
  else return h

def xPortGetFreeHeapSize (h : Heap) : ℕ := h.xFreeBytesRemaining

def xPortGetMinimumEverFreeHeapSize (h : Heap) : ℕ := h.xMinimumEverFreeBytesRemaining

/-! ### The regions -/

/-- `HeapRegion_t`. -/
structure HeapRegion where
  pucStartAddress : ℕ
  xSizeInBytes : ℕ
  deriving DecidableEq

/-- The start, rounded up to the alignment. -/
def alignUp (xAddress : ℕ) : ℕ :=
  if xAddress &&& portByteAlignmentMask ≠ 0 then
    (xAddress + (portByteAlignment - 1)) &&& (2 ^ 32 - 1 - portByteAlignmentMask)
  else xAddress

/-- The address of the end marker of a region. -/
def markerOf (r : HeapRegion) : ℕ :=
  let xTotalRegionSize := r.xSizeInBytes - (alignUp r.pucStartAddress - r.pucStartAddress)
  (alignUp r.pucStartAddress + xTotalRegionSize - xHeapStructSize) &&& (2 ^ 32 - 1 - portByteAlignmentMask)

/-- The first region sets `xStart`; a later one must follow the one before. -/
def startRegion (first : Bool) (xAlignedHeap : ℕ) (h : Heap) : Option Heap :=
  if first then some (h.setBlock h.xStart ⟨xAlignedHeap, 0⟩)
  else do
    configAssert (h.pxEnd ≠ 0)
    configAssert (xAlignedHeap > h.pxEnd)
    return h

/-- One region is added: an end marker and one free block in front of it. -/
def addRegion (first : Bool) (r : HeapRegion) (h : Heap) : Option Heap := do
  let xAlignedHeap := alignUp r.pucStartAddress
  let h ← startRegion first xAlignedHeap h
  let pxPreviousFreeBlock := h.pxEnd
  let pxEnd := markerOf r
  let h := (h.setEnd pxEnd).setBlock pxEnd ⟨0, 0⟩
  let h := h.setBlock xAlignedHeap ⟨pxEnd, pxEnd - xAlignedHeap⟩
  return if pxPreviousFreeBlock ≠ 0 then h.setNext pxPreviousFreeBlock xAlignedHeap else h

/-- The loop over the array, up to a region of size zero; with the bytes added. -/
def defineLoop : Bool → List HeapRegion → ℕ → Heap → Option (ℕ × Heap)
  | _, [], xTotalHeapSize, h => some (xTotalHeapSize, h)
  | first, r :: rs, xTotalHeapSize, h =>
    if r.xSizeInBytes > 0 then do
      let h ← addRegion first r h
      defineLoop false rs (sizeAdd xTotalHeapSize (h.size (alignUp r.pucStartAddress))) h
    else some (xTotalHeapSize, h)

def vPortDefineHeapRegions (pxHeapRegions : List HeapRegion) (h : Heap) : Option Heap := do
  configAssert (h.pxEnd = 0)
  let (xTotalHeapSize, h) ← defineLoop true pxHeapRegions 0 h
  configAssert (xTotalHeapSize ≠ 0)
  return (h.setCounters xTotalHeapSize xTotalHeapSize).setBit (1 <<< 31)

/-- Before `vPortDefineHeapRegions`: nothing is set. -/
def Heap.unset (mem : ℕ → BlockLink) (xStart : ℕ) : Heap := ⟨mem, xStart, 0, 0, 0, 0⟩

end Ln882x.Kernel
