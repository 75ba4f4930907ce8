import Mathlib.Data.List.Basic
import Mathlib.Data.Int.Notation
import Mathlib.Logic.Function.Iterate

/-! The SmartConfig receiver of `components/smartlink/smartcfg`. A phone spells
the name and the password of the network in the multicast addresses of its
frames; the receiver hears some of them, in some order, some more than once.
The build has `SMARTCONFIG_ENABLE_CRYPT` 0, so `aes_key` is `NULL` and the
fields are not encrypted. The buffers `sc_ssid` and `sc_pwd` that the result
points to are kept in the result. -/

namespace Ln882x.SmartCfg

/-! ### The checksum -/

def crc8Poly : UInt8 := 0x31

/-- A round of the inner loop of `cal_crc8`. -/
def crc8Shift (crc : UInt8) : UInt8 := if crc &&& 1 ≠ 0 then (crc >>> 1) ^^^ crc8Poly else crc >>> 1

def calCrc8 (input : List UInt8) : UInt8 := input.foldl (fun crc b => crc8Shift^[8] (crc ^^^ b)) 0

/-! ### The state -/

def wlanSsidMaxLen : ℕ := 33

def wlanPwdMaxLen : ℕ := 64

def scMaxSsidpwdLen : ℕ := 128

def scPktByteMarkLen : ℕ := scMaxSsidpwdLen / 2 / 8

def packetNumMax : UInt8 := 127

/-- `sc_state_t`. -/
inductive ScState where
  | idle | searchChan | lockedChan | decodeErr | complete
  deriving DecidableEq

/-- The value of the enumerator. -/
def ScState.code : ScState → ℕ
  | .idle => 0
  | .searchChan => 1
  | .lockedChan => 2
  | .decodeErr => 3
  | .complete => 4

/-- The numbers of the lead-code frames, `lc_seq_t`. -/
def leadCodeSeqNone : UInt8 := 0

def leadCodeSeqChannel : UInt8 := 1

def leadCodeSeqSsidpwdSize : UInt8 := 2

def leadCodeSeqPwdSize : UInt8 := 3

def leadCodeSeqRandom : UInt8 := 4

def leadCodeSeqComplete : UInt8 := 5

/-- `lc_t`. -/
structure LeadCode where
  channel : UInt8
  ssidpwdLen : UInt8
  pwdLen : UInt8
  random : UInt8
  lcMark : UInt8
  expectTotalPkt : UInt8
  pktCount : UInt8
  isLcComplete : Bool
  pktMark : List UInt8
  deriving DecidableEq

/-- `sc_result_t` with the two buffers it points to. -/
structure Result where
  ssid : List UInt8
  pwd : List UInt8
  ssidLen : UInt8
  pwdLen : UInt8
  random : UInt8
  deriving DecidableEq

/-- `sc_ctl_t`, and the static `sc_random`. -/
structure Ctl where
  recvbuff : List UInt8
  leadCode : LeadCode
  result : Result
  state : ScState
  isChHopping : Bool
  chMap : UInt16
  scRandom : UInt8
  deriving DecidableEq

/-- `memset` to zero, of a whole buffer. -/
def zeros (n : ℕ) : List UInt8 := List.replicate n 0

/-- `memcpy` to the start of a buffer. -/
def memcpy (dst src : List UInt8) : List UInt8 := src ++ dst.drop src.length

def Result.clear : Result := ⟨zeros wlanSsidMaxLen, zeros (wlanPwdMaxLen + 1), 0, 0, 0⟩

def LeadCode.clear : LeadCode := ⟨0, 0, 0, 0, 0, 0, 0, false, zeros scPktByteMarkLen⟩

/-- The state that `ln_smartconfig_start` leaves. -/
def smartconfigStart (channelMap : UInt16) (scRandom : UInt8) : Ctl :=
  ⟨zeros scMaxSsidpwdLen, .clear, .clear, .searchChan, true, channelMap, scRandom⟩

/-! ### Lead codes -/

/-- `ln_sc_lead_code_proc`; the two bytes are `i_addr3[4]` and `i_addr3[5]`. -/
def leadCodeProc (lc : LeadCode) (packetNum data crc : UInt8) : LeadCode :=
  if packetNum = leadCodeSeqNone ∨ packetNum > leadCodeSeqRandom then lc
  else if lc.lcMark &&& 0x1E = 0x1E ∧ 63 ≥ lc.pwdLen ∧ 32 ≥ lc.ssidpwdLen - lc.pwdLen then
    { lc with isLcComplete := true }
  else
    -- lengths that cannot be are asked for again
    let lc := if lc.lcMark &&& 0x1E = 0x1E then
        { lc with lcMark := lc.lcMark &&& ~~~(1 <<< leadCodeSeqSsidpwdSize) &&& ~~~(1 <<< leadCodeSeqPwdSize) }
      else lc
    if crc ≠ calCrc8 [data] then lc
    else if packetNum = leadCodeSeqChannel then
      { lc with channel := data, lcMark := lc.lcMark ||| (1 <<< leadCodeSeqChannel) }
    else if packetNum = leadCodeSeqSsidpwdSize then
      { lc with
        ssidpwdLen := data
        lcMark := lc.lcMark ||| (1 <<< leadCodeSeqSsidpwdSize)
        expectTotalPkt := data / 2 + data % 2 + 1 }
    else if packetNum = leadCodeSeqPwdSize then
      { lc with pwdLen := data, lcMark := lc.lcMark ||| (1 <<< leadCodeSeqPwdSize) }
    else { lc with random := data, lcMark := lc.lcMark ||| (1 <<< leadCodeSeqRandom) }

/-! ### Data -/

/-- The bit of a data frame in its mark byte. -/
def bitMark (dataIndex : UInt8) : UInt8 := 1 <<< (8 - dataIndex % 8 - 1)

/-- `ln_sc_is_packet_valid`: the marks with the frame added, unless it was there. -/
def isPacketValid (pktMark : List UInt8) (dataIndex : UInt8) : Option (List UInt8) :=
  if dataIndex.toNat * 2 > scMaxSsidpwdLen then none
  else
    let byteMark := pktMark.getD (dataIndex.toNat / 8) 0
    if byteMark &&& bitMark dataIndex ≠ 0 then none
    else some (pktMark.set (dataIndex.toNat / 8) (byteMark ||| bitMark dataIndex))

/-- The half-word with the number `i`, low byte first. -/
def storeHalfWord (recvbuff : List UInt8) (i : ℕ) (lo hi : UInt8) : List UInt8 :=
  (recvbuff.set (2 * i) lo).set (2 * i + 1) hi

/-- `ln_sc_push_data`: the state and how many frames are still missing. -/
def pushData (ctl : Ctl) (packetNum lo hi : UInt8) : Ctl × ℤ :=
  let dataIndex := packetNum - 5
  let ctl := match isPacketValid ctl.leadCode.pktMark dataIndex with
    | some pktMark =>
      { ctl with
        recvbuff := storeHalfWord ctl.recvbuff dataIndex.toNat lo hi
        leadCode := { ctl.leadCode with pktMark := pktMark, pktCount := ctl.leadCode.pktCount + 1 } }
    | none => ctl
  (ctl, (ctl.leadCode.expectTotalPkt.toNat : ℤ) - ctl.leadCode.pktCount.toNat)

/-- The result that `ln_sc_decode` takes from the buffer, before the checksums. -/
def decodeResult (ctl : Ctl) : Result :=
  let ssidSize := ctl.leadCode.ssidpwdLen - ctl.leadCode.pwdLen
  let pwdSize := ctl.leadCode.pwdLen
  let ssid := (ctl.recvbuff.drop pwdSize.toNat).take ssidSize.toNat
  let pwd := ctl.recvbuff.take pwdSize.toNat
  ⟨(memcpy ctl.result.ssid ssid).set ssidSize.toNat 0, (memcpy ctl.result.pwd pwd).set pwdSize.toNat 0, ssidSize, pwdSize,
    ctl.leadCode.random⟩

/-- The checksum bytes that follow name and password. -/
def decodeChecks (ctl : Ctl) (result : Result) : Bool :=
  let i := (ctl.leadCode.ssidpwdLen % 2).toNat
  let at' := ctl.leadCode.ssidpwdLen.toNat + i
  ctl.recvbuff.getD at' 0 = calCrc8 (result.pwd.take result.pwdLen.toNat) &&
    ctl.recvbuff.getD (at' + 1) 0 = calCrc8 (result.ssid.take result.ssidLen.toNat)

/-- `ln_sc_decode`. -/
def decode (ctl : Ctl) : Ctl × Bool :=
  let result := decodeResult ctl
  ({ ctl with result := result, recvbuff := zeros scMaxSsidpwdLen }, decodeChecks ctl result)

/-! ### Frames -/

/-- A sniffed frame: its length and its third address. -/
structure Frame where
  len : ℕ
  addr3 : Vector UInt8 6
  deriving DecidableEq

/-- `sizeof(ieee80211_frame_t)`. -/
def ieee80211FrameSize : ℕ := 24

/-- The end of `ln_sc_recv_frame_proc`: all frames are there. -/
def recvFrameEnd (ctl : Ctl) : Ctl × ScState :=
  if ctl.state.code < ScState.complete.code ∧ ctl.leadCode.expectTotalPkt = ctl.leadCode.pktCount then
    match decode ctl with
    | (ctl, true) => ({ ctl with scRandom := ctl.result.random }, .complete)
    | (ctl, false) =>
      ({ ctl with
        leadCode := { ctl.leadCode with pktCount := 0, pktMark := zeros scPktByteMarkLen }
        recvbuff := zeros scMaxSsidpwdLen
        result := .clear }, .decodeErr)
  else (ctl, ctl.state)

/-- The number of the packet that a frame carries, and its two bytes. -/
abbrev sentNum (addr3 : Vector UInt8 6) : UInt8 := addr3[3]

abbrev sentFirst (addr3 : Vector UInt8 6) : UInt8 := addr3[4]

abbrev sentSecond (addr3 : Vector UInt8 6) : UInt8 := addr3[5]

/-- `ln_sc_recv_frame_proc`. -/
def recvFrameProc (ctl : Ctl) (addr3 : Vector UInt8 6) : Ctl × ScState :=
  let packetNum := addr3[3]
  if packetNum > leadCodeSeqNone ∧ packetNum < leadCodeSeqComplete then
    if ctl.leadCode.isLcComplete then (ctl, ctl.state)
    else
      let lc := leadCodeProc ctl.leadCode packetNum addr3[4] addr3[5]
      ({ ctl with leadCode := lc }, if lc.isLcComplete then .lockedChan else ctl.state)
  else if !ctl.leadCode.isLcComplete then (ctl, ctl.state)
  else if packetNum ≤ packetNumMax then
    let pushed := pushData ctl packetNum addr3[4] addr3[5]
    if pushed.2 ≠ 0 then (pushed.1, ctl.state) else recvFrameEnd pushed.1
  else recvFrameEnd ctl

/-- `SC_MAGIC_ADD0` to `SC_MAGIC_ADD2`. -/
def isMagic (addr3 : Vector UInt8 6) : Bool := addr3[0] = 0x01 && addr3[1] = 0x00 && addr3[2] = 0x5E

/-- `ln_sc_sniffer_callback`. -/
def snifferCallback (ctl : Ctl) (frame : Frame) : Ctl :=
  if ctl.state = .complete then ctl
  else if frame.len < ieee80211FrameSize then ctl
  else if !isMagic frame.addr3 then ctl
  else
    let r := recvFrameProc ctl frame.addr3
    if r.2 = .lockedChan ∧ r.1.state ≠ r.2 then { r.1 with state := r.2, isChHopping := false }
    else if r.2 = .complete ∧ r.1.state.code < ScState.complete.code then { r.1 with state := r.2 }
    else r.1

/-- The state after a list of frames. -/
def sniff (ctl : Ctl) (frames : List Frame) : Ctl := frames.foldl snifferCallback ctl

end Ln882x.SmartCfg
