import Ln882x.Ota.Lzma
import Ln882x.Ota.Verify
import Mathlib.Data.Int.Notation

/-! The upgrade agent of `components/fota/ota_agent/ota_agent.c`, which runs at
every boot: it copies or decompresses a downloaded image over the application,
and jumps to an application that verifies. The static variables are the fields
of a state. The driver calls and the changes of the stored upgrade state are
kept in the order in which they are made. -/

namespace Ln882x.Ota

open Nor

/-! ### Verification -/

def imageHeaderRead (f : Flash) (type : ℕ) (h : ImageHdr) : Option OtaErr × ImageHdr :=
  if type ≠ partitionTypeApp ∧ type ≠ partitionTypeOta then (some .invalidParam, h)
  else
    let r := lnFetchPartitionInfo f type .zero
    if r.1 then (none, flashRead f r.2.startAddr imageHdrSize) else (some .imgHeaderRead, h)

/-- `verify_total_img_partition`: `none` is `OTA_ERR_NONE`. The partition and the header are filled
in as far as the verification gets. -/
def verifyTotalImgPartition (f : Flash) (type : ℕ) (info : PartitionInfo) (h : ImageHdr) :
    Option OtaErr × PartitionInfo × ImageHdr :=
  let r := lnFetchPartitionInfo f type info
  if !r.1 then (some .partitionTab, r.2, h)
  else
    let read := imageHeaderRead f type h
    match read.1 with
    | some e => (some e, r.2, read.2)
    | none =>
      if !imageHeaderVerify read.2 then (some .imgHeaderVerify, r.2, read.2)
      else (imageBodyVerify f r.2.startAddr read.2, r.2, read.2)

/-! ### The state -/

/-- What the agent changes outside its memory: the flash, and the upgrade state in NVDS. -/
inductive Act where
  | flash (o : Op)
  | upgState (w : ℕ)
  deriving DecidableEq

/-- `xz_already_read`, and the calls of `decompress_read_cb`: where in the body, and how long. -/
structure XzInput where
  alreadyRead : ℕ
  reads : List (ℕ × ℤ)

@[ext] structure Agent where
  flash : Flash
  acts : List Act
  appHeader : ImageHdr
  otaHeader : ImageHdr
  partitionInfoApp : PartitionInfo
  partitionInfoOta : PartitionInfo
  xz : XzInput
  xzAlreadyWrite : ℕ

/-- The agent after a reset. -/
def Agent.boot (f : Flash) : Agent :=
  ⟨f, [], List.replicate imageHdrSize 0, List.replicate imageHdrSize 0, .zero, .zero, ⟨0, []⟩, 0⟩

def Agent.exec (a : Agent) (o : Op) : Agent := { a with flash := o.apply a.flash, acts := a.acts ++ [.flash o] }

def Agent.verifyApp (a : Agent) : Option OtaErr × Agent :=
  let v := verifyTotalImgPartition a.flash partitionTypeApp a.partitionInfoApp a.appHeader
  (v.1, { a with partitionInfoApp := v.2.1, appHeader := v.2.2 })

def Agent.verifyOta (a : Agent) : Option OtaErr × Agent :=
  let v := verifyTotalImgPartition a.flash partitionTypeOta a.partitionInfoOta a.otaHeader
  (v.1, { a with partitionInfoOta := v.2.1, otaHeader := v.2.2 })

def upgStateDownloadOk : ℕ := 1

def upgStateRestoreOk : ℕ := 3

/-- The state word before it was ever set. -/
def upgStateUnset : ℕ := 0xFFFFFFFF

/-- What `upg_state_get` answers, and whether `upg_state_set` succeeds. -/
structure UpgPort where
  get : Option ℕ
  setOk : Bool

/-- How a run ends: with a call of `jump_to_app` or without one, and what is returned. -/
inductive Exit where
  | jumped (addr : ℕ) (ret : Option OtaErr)
  | returned (ret : Option OtaErr)
  deriving DecidableEq

/-! ### Restoring -/

def len4KB : ℕ := 1024 * 4

/-- The loop of `orig_image_do_restore` with `n` full pieces to go, then the remainder. -/
def origCopyLoop (remainder : ℕ) : ℕ → Agent → ℕ → ℕ → Agent
  | 0, a, appOffset, otaOffset =>
    if remainder ≠ 0 then a.exec (.program appOffset (flashRead a.flash otaOffset remainder)) else a
  | n + 1, a, appOffset, otaOffset =>
    origCopyLoop remainder n (a.exec (.program appOffset (flashRead a.flash otaOffset len4KB)))
      ((appOffset + len4KB) % 2 ^ 32) ((otaOffset + len4KB) % 2 ^ 32)

def origImageDoRestore (a : Agent) (appBodyOffset otaBodyOffset size : ℕ) : Agent :=
  origCopyLoop (size % len4KB) (size / len4KB) a appBodyOffset otaBodyOffset

/-- `tmp_len` of `decompress_read_cb`, a signed number. -/
def decompressLen (xzSize alreadyRead : ℕ) : ℤ :=
  let d : ℕ := (xzSize + 2 ^ 32 - alreadyRead) % 2 ^ 32
  let tmpLen : ℤ := if d < 2 ^ 31 then d else d - 2 ^ 32
  if tmpLen > len4KB then len4KB else tmpLen

/-- `decompress_read_cb` with the body of the OTA image at `otaBodyOffset`. -/
def decompressReadCb (f : Flash) (otaBodyOffset xzSize : ℕ) (s : XzInput) : ReadCall XzInput :=
  let tmpLen := decompressLen xzSize s.alreadyRead
  let len := (tmpLen % 2 ^ 32).toNat
  { ok := true
    bytes := flashRead f ((otaBodyOffset + s.alreadyRead) % 2 ^ 32) len
    next := ⟨(s.alreadyRead + len) % 2 ^ 32, s.reads ++ [(s.alreadyRead, tmpLen)]⟩ }

/-- `partition_info_app.start_addr + sizeof(image_hdr_t)`. -/
def Agent.appBodyOffset (a : Agent) : ℕ := (a.partitionInfoApp.startAddr + imageHdrSize) % 2 ^ 32

def Agent.otaBodyOffset (a : Agent) : ℕ := (a.partitionInfoOta.startAddr + imageHdrSize) % 2 ^ 32

def decompressWriteCb (buf : Bytes) (a : Agent) : Agent :=
  { a.exec (.program ((a.appBodyOffset + a.xzAlreadyWrite) % 2 ^ 32) buf) with
    xzAlreadyWrite := (a.xzAlreadyWrite + buf.length) % 2 ^ 32 }

def xzImageDoRestore (a : Agent) : Option OtaErr × Agent :=
  let header := flashRead a.flash a.otaBodyOffset xzHeaderSize
  let xzSize := a.otaHeader.imgSizeOrigXz
  let input := { a.xz with alreadyRead := a.xz.alreadyRead + xzHeaderSize }
  let r := xzDecompressBufToBuf (fun a : Agent => decompressReadCb a.flash a.otaBodyOffset xzSize) decompressWriteCb header
    input a
  (r.1.map fun _ => .decompress, { r.2.2 with xz := r.2.1 })

/-- The header of the restored image: of type `IMAGE_TYPE_ORIGINAL`, with a checksum of its own. -/
def ImageHdr.asOriginal (h : ImageHdr) : ImageHdr :=
  let body := leBytes 4 ImageType.original.code ++ (h.drop 4).take (imageHdrSize - 8)
  body ++ leBytes 4 (lnCrc32SignleCal body).toNat

/-- The end of both restores: the new application is verified, the state is updated. -/
def finishRestore (p : UpgPort) (a : Agent) : Exit × Agent :=
  let v := a.verifyApp
  match v.1 with
  | some e => (.returned (some e), v.2)
  | none =>
    if p.setOk then
      (.jumped v.2.appBodyOffset none, { v.2 with acts := v.2.acts ++ [.upgState upgStateRestoreOk] })
    else (.returned (some .nvdsRw), v.2)

def restoreImage (p : UpgPort) (a : Agent) : Exit × Agent :=
  match a.otaHeader.imageType with
  | some .original =>
    let a := a.exec (.program a.partitionInfoApp.startAddr a.otaHeader)
    finishRestore p (origImageDoRestore a a.appBodyOffset a.otaBodyOffset a.otaHeader.imgSizeOrig)
  | some .originalXz =>
    let r := xzImageDoRestore (a.exec (.program a.partitionInfoApp.startAddr a.otaHeader.asOriginal))
    match r.1 with
    | some e => (.returned (some e), r.2)
    | none => finishRestore p r.2
  | some .diff | some .diffXz =>
    (.returned (some (if a.appHeader.ver = a.otaHeader.verDiffDepend then .notSupport else .impossibleVer)), a)
  | none => (.returned (some .imgType), a)

/-! ### The agent -/

/-- The application is verified and started. -/
def bootApp (a : Agent) : Exit × Agent :=
  let v := a.verifyApp
  match v.1 with
  | some e => (.returned (some e), v.2)
  | none => (.jumped v.2.appBodyOffset none, v.2)

def Agent.eraseApp (a : Agent) : Agent := a.exec (.erase a.partitionInfoApp.startAddr a.partitionInfoApp.size)

/-- `UPG_STATE_DOWNLOAD_OK`, and the application verifies. -/
def upgradeApp (p : UpgPort) (a : Agent) : Exit × Agent :=
  let o := a.verifyOta
  let a := o.2
  match o.1 with
  | some e => (.jumped a.appBodyOffset (some e), a)
  | none =>
    if a.otaHeader.ver > a.appHeader.ver then restoreImage p a.eraseApp
    else if a.otaHeader.ver = a.appHeader.ver then
      -- the power may have been lost after the last restore, before the state was updated
      if a.appHeader.imgSizeOrig = a.otaHeader.imgSizeOrig ∧ a.appHeader.imgCrc32Orig = a.otaHeader.imgCrc32Orig then
        if p.setOk then (.jumped a.appBodyOffset none, { a with acts := a.acts ++ [.upgState upgStateRestoreOk] })
        else (.returned (some .nvdsRw), a)
      else (.jumped a.appBodyOffset none, a)
    else (.jumped a.appBodyOffset none, a)

/-- `UPG_STATE_DOWNLOAD_OK`, and the application does not verify. -/
def recoverApp (p : UpgPort) (a : Agent) : Exit × Agent :=
  let o := a.verifyOta
  match o.1 with
  | some e => (.returned (some e), o.2)
  | none => restoreImage p o.2.eraseApp

def otaBootUpgradeAgent (p : UpgPort) (a : Agent) : Exit × Agent :=
  match p.get with
  | none => bootApp a
  | some w =>
    if w = upgStateUnset then bootApp a
    else if w ≠ upgStateDownloadOk then bootApp a
    else
      let v := a.verifyApp
      match v.1 with
      | some _ => recoverApp p v.2
      | none => upgradeApp p v.2

/-- A run of the agent after a reset. -/
def agentRun (p : UpgPort) (f : Flash) : Exit × Agent := otaBootUpgradeAgent p (.boot f)

end Ln882x.Ota
