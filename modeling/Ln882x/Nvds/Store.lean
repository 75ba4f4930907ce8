import Ln882x.Nor.Trace

/-! The non-volatile data store of `components/fs/nvds`. Three sectors: two
mirrors of the data and a flag sector naming the valid mirror. A write copies
the valid mirror into the other one with the new bytes spliced in, erases the
flag and programs it anew. `lnNvdsWrite`, `lnNvdsRead` and `lnNvdsInit` each
choose the mirror by their own test, as the source does. -/

namespace Ln882x.Nvds

open Nor

def size4KB : ℕ := 0x1000

def sectMagicCode : ℕ := 0x5344564E

def sectMagicCodeLen : ℕ := 4

/-- `NVDS_SECT1_VALID` and `NVDS_SECT2_VALID`. -/
def sect1Valid : ℕ := 0xA5A5

def sect2Valid : ℕ := 0x5A5A

def usrNvdsSect1Offset (base : ℕ) : ℕ := base

def usrNvdsSect2Offset (base : ℕ) : ℕ := usrNvdsSect1Offset base + size4KB

def usrNvdsFlagOffset (base : ℕ) : ℕ := usrNvdsSect2Offset base + size4KB

def nv0NvdsVersionOffst : ℕ := 4

def nv0NvdsVersionLen : ℕ := 16

/-- `"[Ver 1.0]"` with its terminating zero. -/
def nv0NvdsVersionStr : Bytes := [0x5B, 0x56, 0x65, 0x72, 0x20, 0x31, 0x2E, 0x30, 0x5D, 0]

inductive NvdsErr where
  | ok | fail
  deriving DecidableEq

abbrev M := StateM Dev

/-! ### Flash access -/

def nvdsReadFlash (offset len : ℕ) : M Bytes := fun d => (readBytes d.flash offset len, d)

def nvdsWriteFlash (offset : ℕ) (buf : Bytes) : M Unit := fun d => ((), d.exec (.program offset buf))

def nvdsEraseFlash (offset len : ℕ) : M Unit := fun d => ((), d.exec (.erase offset len))

def nvdsGetValidFlag (base : ℕ) : M ℕ := do
  return le (← nvdsReadFlash (usrNvdsFlagOffset base) 2)

def nvdsSetValidFlag (base flag : ℕ) : M Unit :=
  nvdsWriteFlash (usrNvdsFlagOffset base) (leBytes 2 flag)

def nvdsGetMagicCode (offset : ℕ) : M ℕ := do
  return le (← nvdsReadFlash offset 4)

def nvdsSetMagicCode (offset : ℕ) : M Unit := nvdsWriteFlash offset (leBytes 4 sectMagicCode)

/-! ### Write, read and init -/

/-- The byte loop of a write: bytes `i` to `i + n` of one sector into the other, skipping
those that read as erased. -/
def nvdsCopy (src dst : ℕ) : ℕ → ℕ → M Unit
  | _, 0 => pure ()
  | i, n + 1 => do
    let rdData ← nvdsReadFlash (src + i) 1
    if rdData ≠ [0xFF] then nvdsWriteFlash (dst + i) rdData
    nvdsCopy src dst (i + 1) n

/-- Both branches of `ln_nvds_write`, which differ in the two sectors and the flag. The index
at which the second loop starts is a 32-bit sum. -/
def nvdsRewrite (base src dst flag offset : ℕ) (data : Bytes) : M NvdsErr := do
  nvdsEraseFlash dst size4KB
  nvdsSetMagicCode dst
  nvdsCopy src dst sectMagicCodeLen (offset - sectMagicCodeLen)
  nvdsWriteFlash (dst + offset) data
  let i := (offset + data.length) % 2 ^ 32
  nvdsCopy src dst i (size4KB - i)
  nvdsEraseFlash (usrNvdsFlagOffset base) size4KB
  nvdsSetValidFlag base flag
  return .ok

def lnNvdsWrite (base offset : ℕ) (data : Bytes) : M NvdsErr := do
  if (offset + data.length) % 2 ^ 32 > size4KB then return .fail
  if (← nvdsGetValidFlag base) = sect1Valid then
    nvdsRewrite base (usrNvdsSect1Offset base) (usrNvdsSect2Offset base) sect2Valid offset data
  else
    nvdsRewrite base (usrNvdsSect2Offset base) (usrNvdsSect1Offset base) sect1Valid offset data

def lnNvdsRead (base offset len : ℕ) : M (NvdsErr × Bytes) := do
  if (offset + len) % 2 ^ 32 > size4KB then return (.fail, [])
  if (← nvdsGetValidFlag base) = sect1Valid then
    return (.ok, ← nvdsReadFlash (usrNvdsSect1Offset base + offset) len)
  else if (← nvdsGetValidFlag base) = sect2Valid then
    return (.ok, ← nvdsReadFlash (usrNvdsSect2Offset base + offset) len)
  else if (← nvdsGetMagicCode (usrNvdsSect2Offset base)) = sectMagicCode then
    return (.ok, ← nvdsReadFlash (usrNvdsSect2Offset base + offset) len)
  else return (.fail, [])

def lnNvdsInit (base : ℕ) : M NvdsErr := do
  let (err, _) ← lnNvdsRead base nv0NvdsVersionOffst nv0NvdsVersionLen
  if err ≠ .ok then
    nvdsEraseFlash base (size4KB * 3)
    lnNvdsWrite base nv0NvdsVersionOffst (nv0NvdsVersionStr.take nv0NvdsVersionLen)
  else return .ok

/-! ### The upgrade state word -/

def nv1OtaUpgStateOffst : ℕ := nv0NvdsVersionOffst + nv0NvdsVersionLen

def lnNvdsGetOtaUpgState (base : ℕ) : M (NvdsErr × ℕ) := do
  let (err, bs) ← lnNvdsRead base nv1OtaUpgStateOffst 4
  return (err, le bs)

def lnNvdsSetOtaUpgState (base state : ℕ) : M NvdsErr := do
  let (err, rdVal) ← lnNvdsGetOtaUpgState base
  if err = .ok ∧ rdVal = state then return .ok
  lnNvdsWrite base nv1OtaUpgStateOffst (leBytes 4 state)

end Ln882x.Nvds
