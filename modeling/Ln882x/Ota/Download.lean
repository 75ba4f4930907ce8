import Ln882x.Ota.Image
import Mathlib.Data.Int.Notation

/-! The firmware download of `project/wifi_mcu_ota_demo/examples/ota_demo.c`. The
body of a response comes in pieces. They are gathered in a buffer of one sector,
and each full sector goes to the flash; the first one only if its image header
passes the precheck. A download that broke off is tried again. -/

namespace Ln882x.Ota

open Nor

def sectorSize4KB : ℕ := 1024 * 4

/-! The layout of `cfg/flash_partition_table.h`. -/

def appSpaceOffset : ℕ := 0x0000D000

def appSpaceSize : ℕ := 1024 * 1000

def otaSpaceOffset : ℕ := 0x00107000

def otaSpaceSize : ℕ := 1024 * 800

/-- The size check is done in 32-bit arithmetic. -/
def otaDownloadPrecheck (f : Flash) (appOffset : ℕ) (otaHdr : ImageHdr) (mallocOk : Bool) : Bool :=
  if !mallocOk then false
  else
    let appHdr := imageHeaderFastRead f appOffset
    if otaHdr.imageType = some .original ∨ otaHdr.imageType = some .originalXz then
      if otaHdr.ver ≤ appHdr.ver then false
      else if (otaHdr.imgSizeOrig + imageHdrSize) % 2 ^ 32 > appSpaceSize ∨
          (otaHdr.imgSizeOrigXz + imageHdrSize) % 2 ^ 32 > otaSpaceSize then false
      else true
    else false

/-- The static variables, the flash, and the ranges of the staging buffer that were written. -/
structure Download where
  dev : Dev
  temp4KBuf : Option Bytes
  temp4kOffset : ℕ
  flashOtaOffset : ℕ
  isPersistentStarted : Bool
  isReadyToVerify : Bool
  isPrecheckOk : Bool
  copies : List (ℕ × ℕ)

/-- The statics after power-up. -/
def Download.init (f : Flash) : Download := ⟨Dev.on f, none, 0, 0, false, false, false, []⟩

def zeroSector : Bytes := List.replicate sectorSize4KB 0

/-- `memcpy` into a buffer at an offset. -/
def splice (buf : Bytes) (off : ℕ) (data : Bytes) : Bytes := buf.take off ++ data ++ buf.drop (off + data.length)

def otaPersistentStart (st : Download) (mallocOk : Bool) : Bool × Download :=
  match st.temp4KBuf with
  | none =>
    if !mallocOk then (false, st)
    else (true, { st with temp4KBuf := some zeroSector, temp4kOffset := 0, flashOtaOffset := 0, isPersistentStarted := true })
  | some _ => (true, { st with temp4kOffset := 0, flashOtaOffset := 0, isPersistentStarted := true })

/-- A copy to the end of the staged bytes. -/
def Download.stage (st : Download) (tempBuf data : Bytes) : Download :=
  { st with
    temp4KBuf := some (splice tempBuf st.temp4kOffset data)
    temp4kOffset := st.temp4kOffset + data.length
    copies := st.copies ++ [(st.temp4kOffset, data.length)] }

/-- Erase the next sector and program the buffer. -/
def Download.save (st : Download) (tempBuf : Bytes) : Dev :=
  (st.dev.exec (.erase (otaSpaceOffset + st.flashOtaOffset) sectorSize4KB)).exec
    (.program (otaSpaceOffset + st.flashOtaOffset) tempBuf)

/-- The state after a sector was saved. -/
def Download.advance (st : Download) (tempBuf : Bytes) : Download :=
  { st with
    dev := st.save tempBuf
    temp4KBuf := some zeroSector
    temp4kOffset := 0
    flashOtaOffset := st.flashOtaOffset + sectorSize4KB
    isPrecheckOk := if st.flashOtaOffset = 0 then true else st.isPrecheckOk }

/-- The part of `ota_persistent_write` for a full buffer; `none` if the precheck fails. -/
def Download.flush (st : Download) (tempBuf : Bytes) (mallocOk : Bool) : Option Download :=
  if st.flashOtaOffset = 0 ∧ otaDownloadPrecheck st.dev.flash appSpaceOffset tempBuf mallocOk = false then none
  else some (st.advance tempBuf)

/-- A download that was started has a buffer, so the last case does not occur. -/
def otaPersistentWrite (st : Download) (buf : Bytes) (mallocOk : Bool) : Bool × Download :=
  if !st.isPersistentStarted then (true, st)
  else
    match st.temp4KBuf with
    | none => (true, st)
    | some tempBuf =>
      -- `part_len` is zero if all of the piece fits
      let partLen := st.temp4kOffset + buf.length - sectorSize4KB
      let head := buf.take (buf.length - partLen)
      let filled := splice tempBuf st.temp4kOffset head
      let st := st.stage tempBuf head
      if st.temp4kOffset ≥ sectorSize4KB - 1 then
        match st.flush filled mallocOk with
        | none => (false, { st with isPrecheckOk := false })
        | some st =>
          if partLen > 0 then (true, st.stage zeroSector (buf.drop (buf.length - partLen)))
          else (true, st)
      else (true, st)

def otaPersistentFinish (st : Download) : Bool × Download :=
  if !st.isPersistentStarted then (false, st)
  else
    match st.temp4KBuf with
    | none => (false, st)
    | some tempBuf =>
      (true, { st with
        dev := st.save tempBuf
        temp4KBuf := none
        temp4kOffset := 0
        flashOtaOffset := 0
        isPersistentStarted := false })

/-! ### Attempts -/

/-- How `http_get_with_callback` ends: with an error, because the server closed the
connection, or at the end of the response. -/
inductive Ending where
  | failed | closed | finished
  deriving DecidableEq

/-- One round of `http_ota_entry`: which allocations succeed, and the pieces of the body, each
with the outcome of the allocation in a precheck. -/
structure Attempt where
  infoOk : Bool
  initOk : Bool
  startOk : Bool
  pieces : List (Bytes × Bool)
  ending : Ending

/-- The callback for the pieces of a body, with the sum of its results. -/
def httpGetPieces (st : Download) : List (Bytes × Bool) → Download × ℕ
  | [] => (st, 0)
  | (buf, mallocOk) :: pieces =>
    let w := otaPersistentWrite st buf mallocOk
    let r := httpGetPieces w.2 pieces
    (r.1, (if w.1 then buf.length else 0) + r.2)

/-- `http_get_with_callback` with `http_get_callback`. -/
def httpGet (st : Download) (pieces : List (Bytes × Bool)) : Ending → Download × ℤ
  | .failed => ((httpGetPieces st pieces).1, -1)
  | .closed => ((httpGetPieces st pieces).1, (httpGetPieces st pieces).2)
  | .finished =>
    ({ (otaPersistentFinish (httpGetPieces st pieces).1).2 with isReadyToVerify := true }, (httpGetPieces st pieces).2)

/-- What a round leaves: the statics, `recv_total`, and whether the loop ends. -/
def httpOtaRound (st : Download) (recvTotal : ℤ) (a : Attempt) : Download × ℤ × Bool :=
  if !a.infoOk || !a.initOk then (st, recvTotal, false)
  else
    let s := otaPersistentStart st a.startOk
    let r := if s.1 then httpGet s.2 a.pieces a.ending else (s.2, recvTotal)
    (r.1, r.2, 0 < r.2 || r.2 < 0 && !r.1.isPrecheckOk)

/-- The loop of `http_ota_entry`; `none` if it has not ended yet. -/
def httpOtaLoop (st : Download) (recvTotal : ℤ) : List Attempt → Option Download
  | [] => none
  | a :: attempts =>
    let r := httpOtaRound st recvTotal a
    if r.2.2 then some r.1 else httpOtaLoop r.1 r.2.1 attempts

def otaVerifyDownload (f : Flash) : Bool :=
  let otaHeader := imageHeaderFastRead f otaSpaceOffset
  imageHeaderVerify otaHeader && imageBodyVerify f otaSpaceOffset otaHeader = none

/-- `http_ota_entry`: the flash at the call of `update_ota_state`, if it is made. -/
def httpOtaEntry (f : Flash) (attempts : List Attempt) : Option Flash :=
  match httpOtaLoop (.init f) 0 attempts with
  | none => none
  | some st => if st.isPrecheckOk && st.isReadyToVerify && otaVerifyDownload st.dev.flash then some st.dev.flash else none

end Ln882x.Ota
