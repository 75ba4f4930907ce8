import Ln882x.SmartCfg.Transfer

/-! The buffers that the receiver touches, whoever sends the frames. Beside each
function stands the list of its accesses, in the order of the source. The lead
codes are closed only with lengths that fit the buffers and stay as they are from
then on, so the decoder reads and writes inside. Marks and half-words go by the
number of the frame, and the test in front of them lets one number too many
through: what a receiver does after a frame with that number is not claimed. -/

namespace Ln882x.SmartCfg

/-! ### The accesses -/

inductive Access where
  /-- A byte of `pkt_mark`. -/
  | pktMark (i : ℕ)
  /-- A half-word of `recvbuff` is stored. -/
  | halfWord (i : ℕ)
  /-- A byte of `recvbuff` is read. -/
  | recvByte (i : ℕ)
  | ssid (i : ℕ)
  | pwd (i : ℕ)
  deriving DecidableEq

def Access.Inside : Access → Prop
  | .pktMark i => i < scPktByteMarkLen
  | .halfWord i => i < scMaxSsidpwdLen / 2
  | .recvByte i => i < scMaxSsidpwdLen
  | .ssid i => i < wlanSsidMaxLen
  | .pwd i => i < wlanPwdMaxLen + 1

instance : (a : Access) → Decidable a.Inside
  | .pktMark _ | .halfWord _ | .recvByte _ | .ssid _ | .pwd _ => inferInstanceAs (Decidable (_ < _))

def isPacketValidAccesses (pktMark : List UInt8) (dataIndex : UInt8) : List Access :=
  if dataIndex.toNat * 2 > scMaxSsidpwdLen then []
  else
    let byteMark := pktMark.getD (dataIndex.toNat / 8) 0
    .pktMark (dataIndex.toNat / 8) :: if byteMark &&& bitMark dataIndex ≠ 0 then [] else [.pktMark (dataIndex.toNat / 8)]

def pushDataAccesses (ctl : Ctl) (packetNum : UInt8) : List Access :=
  let dataIndex := packetNum - 5
  isPacketValidAccesses ctl.leadCode.pktMark dataIndex ++
    match isPacketValid ctl.leadCode.pktMark dataIndex with
    | some _ => [.halfWord dataIndex.toNat]
    | none => []

/-- A copy from `recvbuff`. -/
def copyAccesses (src size : ℕ) (dst : ℕ → Access) : List Access :=
  (List.range size).flatMap fun k => [.recvByte (src + k), dst k]

/-- A checksum byte and the bytes it covers. -/
def checkAccesses (at' size : ℕ) (covered : ℕ → Access) : List Access := .recvByte at' :: (List.range size).map covered

/-- Two copies, the terminating zeros, and the checks; the second one only if the first one passes. -/
def decodeAccesses (ctl : Ctl) : List Access :=
  let ssidSize : ℕ := (ctl.leadCode.ssidpwdLen - ctl.leadCode.pwdLen).toNat
  let pwdSize : ℕ := ctl.leadCode.pwdLen.toNat
  let at' : ℕ := ctl.leadCode.ssidpwdLen.toNat + (ctl.leadCode.ssidpwdLen % 2).toNat
  let result := decodeResult ctl
  let checks : List Access :=
    if ctl.recvbuff.getD at' 0 = calCrc8 (result.pwd.take result.pwdLen.toNat) then checkAccesses (at' + 1) ssidSize .ssid
    else []
  copyAccesses pwdSize ssidSize .ssid ++ (copyAccesses 0 pwdSize .pwd ++
    ([.pwd pwdSize, .ssid ssidSize] ++ (checkAccesses at' pwdSize .pwd ++ checks)))

def recvFrameEndAccesses (ctl : Ctl) : List Access :=
  if ctl.state.code < ScState.complete.code ∧ ctl.leadCode.expectTotalPkt = ctl.leadCode.pktCount then decodeAccesses ctl
  else []

def recvFrameProcAccesses (ctl : Ctl) (addr3 : Vector UInt8 6) : List Access :=
  let packetNum := sentNum addr3
  if packetNum > leadCodeSeqNone ∧ packetNum < leadCodeSeqComplete then []
  else if !ctl.leadCode.isLcComplete then []
  else if packetNum ≤ packetNumMax then
    let pushed := pushData ctl packetNum (sentFirst addr3) (sentSecond addr3)
    pushDataAccesses ctl packetNum ++ if pushed.2 ≠ 0 then [] else recvFrameEndAccesses pushed.1
  else recvFrameEndAccesses ctl

def snifferCallbackAccesses (ctl : Ctl) (frame : Frame) : List Access :=
  if ctl.state = .complete then []
  else if frame.len < ieee80211FrameSize then []
  else if !isMagic frame.addr3 then []
  else recvFrameProcAccesses ctl frame.addr3

def sniffAccesses : Ctl → List Frame → List Access
  | _, [] => []
  | ctl, frame :: frames => snifferCallbackAccesses ctl frame ++ sniffAccesses (snifferCallback ctl frame) frames

/-! ### The lengths -/

/-- The lengths fit, password and name one behind the other. -/
structure LeadCode.LengthsFit (lc : LeadCode) : Prop where
  pwd : lc.pwdLen.toNat ≤ 63
  le : lc.pwdLen.toNat ≤ lc.ssidpwdLen.toNat
  ssid : lc.ssidpwdLen.toNat ≤ lc.pwdLen.toNat + 32

/-- Closed lead codes have lengths that fit. -/
def LengthsKnown (ctl : Ctl) : Prop := ctl.leadCode.isLcComplete = true → ctl.leadCode.LengthsFit

/-- The lead codes are as they were, marks and count apart. -/
structure SameLead (lc lc' : LeadCode) : Prop where
  pwdLen : lc'.pwdLen = lc.pwdLen
  ssidpwdLen : lc'.ssidpwdLen = lc.ssidpwdLen
  isLcComplete : lc'.isLcComplete = lc.isLcComplete

variable {ctl ctl' : Ctl} {lc : LeadCode}

theorem SameLead.refl (lc : LeadCode) : SameLead lc lc := ⟨rfl, rfl, rfl⟩

theorem SameLead.trans {lc' lc'' : LeadCode} (h : SameLead lc lc') (h' : SameLead lc' lc'') : SameLead lc lc'' :=
  ⟨h'.pwdLen.trans h.pwdLen, h'.ssidpwdLen.trans h.ssidpwdLen, h'.isLcComplete.trans h.isLcComplete⟩

theorem LengthsKnown.same (h : LengthsKnown ctl) (hsame : SameLead ctl.leadCode ctl'.leadCode) : LengthsKnown ctl' := by
  intro hcomplete
  rw [hsame.isLcComplete] at hcomplete
  obtain ⟨hpwd, hle, hssid⟩ := h hcomplete
  constructor
  · rwa [hsame.pwdLen]
  · rwa [hsame.pwdLen, hsame.ssidpwdLen]
  · rwa [hsame.pwdLen, hsame.ssidpwdLen]

/-- The 8-bit difference is at most 32 only if nothing wrapped. -/
theorem lengthsFit_of_checks (hpwd : 63 ≥ lc.pwdLen) (hssid : 32 ≥ lc.ssidpwdLen - lc.pwdLen) : lc.LengthsFit := by
  have h63 : (63 : UInt8).toNat = 63 := rfl
  have h32 : (32 : UInt8).toNat = 32 := rfl
  have hp := lc.pwdLen.toNat_lt
  have hs := lc.ssidpwdLen.toNat_lt
  rw [ge_iff_le, UInt8.le_iff_toNat_le] at hpwd hssid
  rw [UInt8.toNat_sub] at hssid
  constructor
  · omega
  · omega
  · omega

theorem leadCodeProc_known (hopen : lc.isLcComplete = false) (packetNum data crc : UInt8)
    (hcomplete : (leadCodeProc lc packetNum data crc).isLcComplete = true) :
    (leadCodeProc lc packetNum data crc).LengthsFit := by
  have hnot {lc' : LeadCode} (h : lc'.isLcComplete = lc.isLcComplete) (hc : lc'.isLcComplete = true) : lc'.LengthsFit := by
    rw [h, hopen] at hc
    cases hc
  unfold leadCodeProc at hcomplete ⊢
  by_cases hnum : packetNum = leadCodeSeqNone ∨ packetNum > leadCodeSeqRandom
  · rw [if_pos hnum] at hcomplete ⊢
    exact hnot rfl hcomplete
  rw [if_neg hnum] at hcomplete ⊢
  by_cases hfull : lc.lcMark &&& 0x1E = 0x1E ∧ 63 ≥ lc.pwdLen ∧ 32 ≥ lc.ssidpwdLen - lc.pwdLen
  · obtain ⟨hpwd, hle, hssid⟩ := lengthsFit_of_checks hfull.2.1 hfull.2.2
    rw [if_pos hfull]
    exact ⟨hpwd, hle, hssid⟩
  rw [if_neg hfull] at hcomplete ⊢
  dsimp only at hcomplete ⊢
  -- every other branch only notes a byte, or asks for the lengths again
  have hasked : (if lc.lcMark &&& 0x1E = 0x1E then
      { lc with lcMark := lc.lcMark &&& ~~~(1 <<< leadCodeSeqSsidpwdSize) &&& ~~~(1 <<< leadCodeSeqPwdSize) }
    else lc).isLcComplete = lc.isLcComplete := by
    split_ifs
    · rfl
    · rfl
  generalize (if lc.lcMark &&& 0x1E = 0x1E then _ else lc) = asked at hasked hcomplete ⊢
  refine hnot (Eq.trans ?_ hasked) hcomplete
  split_ifs <;> rfl

theorem sameLead_pushData (ctl : Ctl) (packetNum lo hi : UInt8) :
    SameLead ctl.leadCode (pushData ctl packetNum lo hi).1.leadCode := by
  cases hvalid : isPacketValid ctl.leadCode.pktMark (packetNum - 5) with
  | none =>
    simp only [pushData, hvalid]
    exact .refl _
  | some pktMark =>
    simp only [pushData, hvalid]
    exact ⟨rfl, rfl, rfl⟩

theorem sameLead_recvFrameEnd (ctl : Ctl) : SameLead ctl.leadCode (recvFrameEnd ctl).1.leadCode := by
  unfold recvFrameEnd
  split_ifs
  · cases hchecks : decodeChecks ctl (decodeResult ctl) with
    | true =>
      simp only [decode, hchecks]
      exact ⟨rfl, rfl, rfl⟩
    | false =>
      simp only [decode, hchecks]
      exact ⟨rfl, rfl, rfl⟩
  · exact .refl _

theorem LengthsKnown.recvFrameProc (h : LengthsKnown ctl) (addr3 : Vector UInt8 6) :
    LengthsKnown (recvFrameProc ctl addr3).1 := by
  unfold SmartCfg.recvFrameProc
  dsimp only
  have hlead (hopen : ¬ctl.leadCode.isLcComplete = true) :
      LengthsKnown { ctl with leadCode := leadCodeProc ctl.leadCode addr3[3] addr3[4] addr3[5] } :=
    leadCodeProc_known (Bool.eq_false_iff.mpr hopen) _ _ _
  split_ifs with _ hclosed
  · exact h
  · exact hlead hclosed
  · exact hlead hclosed
  · exact h
  · exact h.same (sameLead_pushData ctl _ _ _)
  · exact h.same ((sameLead_pushData ctl _ _ _).trans (sameLead_recvFrameEnd _))
  · exact h.same (sameLead_recvFrameEnd ctl)

theorem LengthsKnown.snifferCallback (h : LengthsKnown ctl) (frame : Frame) : LengthsKnown (snifferCallback ctl frame) := by
  have hproc := h.recvFrameProc frame.addr3
  unfold SmartCfg.snifferCallback
  generalize SmartCfg.recvFrameProc ctl frame.addr3 = r at hproc ⊢
  dsimp only
  split_ifs
  · exact h
  · exact h
  · exact h
  · exact hproc.same ⟨rfl, rfl, rfl⟩
  · exact hproc.same ⟨rfl, rfl, rfl⟩
  · exact hproc

theorem LengthsKnown.sniff (frames : List Frame) (h : LengthsKnown ctl) : LengthsKnown (sniff ctl frames) := by
  induction frames generalizing ctl with
  | nil => exact h
  | cons frame frames ih => exact ih (h.snifferCallback frame)

theorem lengthsKnown_start (channelMap : UInt16) (scRandom : UInt8) : LengthsKnown (smartconfigStart channelMap scRandom) := by
  intro hcomplete
  cases hcomplete

/-! ### The bounds -/

/-- The number of the data frame whose half-word is the first one behind `recvbuff`. -/
def packetNumBehind : UInt8 := 69

/-- The decoder stays inside once the lengths fit. -/
theorem decodeAccesses_inside (h : ctl.leadCode.LengthsFit) : ∀ a ∈ decodeAccesses ctl, a.Inside := by
  obtain ⟨hpwd, hle, hssid⟩ := h
  have hp := ctl.leadCode.pwdLen.toNat_lt
  have hs := ctl.leadCode.ssidpwdLen.toNat_lt
  have hsize : (ctl.leadCode.ssidpwdLen - ctl.leadCode.pwdLen).toNat =
      ctl.leadCode.ssidpwdLen.toNat - ctl.leadCode.pwdLen.toNat := by
    rw [UInt8.toNat_sub]
    omega
  have hodd : (ctl.leadCode.ssidpwdLen % 2).toNat ≤ 1 := by
    have h2 : (2 : UInt8).toNat = 2 := rfl
    rw [UInt8.toNat_mod, h2]
    omega
  have hrecv {i : ℕ} (hi : i < 128) : (Access.recvByte i).Inside := hi
  have hname {i : ℕ} (hi : i < 33) : (Access.ssid i).Inside := hi
  have hword {i : ℕ} (hi : i < 65) : (Access.pwd i).Inside := hi
  have hcopy {src size : ℕ} {dst : ℕ → Access} (hsrc : src + size ≤ 128) (hdst : ∀ k < size, (dst k).Inside) :
      ∀ a ∈ copyAccesses src size dst, a.Inside := by
    intro a ha
    obtain ⟨k, hk, hmem⟩ := List.mem_flatMap.mp ha
    rw [List.mem_range] at hk
    rcases List.mem_cons.mp hmem with rfl | hmem
    · exact hrecv (by omega)
    · rw [List.mem_singleton.mp hmem]
      exact hdst k hk
  have hcheck {at' size : ℕ} {covered : ℕ → Access} (hat : at' < 128) (hcov : ∀ k < size, (covered k).Inside) :
      ∀ a ∈ checkAccesses at' size covered, a.Inside := by
    intro a ha
    rcases List.mem_cons.mp ha with rfl | hmem
    · exact hrecv hat
    · obtain ⟨k, hk, rfl⟩ := List.mem_map.mp hmem
      exact hcov k (List.mem_range.mp hk)
  unfold decodeAccesses
  dsimp only
  rw [hsize]
  simp only [List.forall_mem_append]
  refine ⟨hcopy (by omega) fun k hk => hname (by omega), hcopy (by omega) fun k hk => hword (by omega), ?_,
    hcheck (by omega) fun k hk => hword (by omega), ?_⟩
  · intro a ha
    rcases List.mem_cons.mp ha with rfl | hmem
    · exact hword (by omega)
    · rw [List.mem_singleton.mp hmem]
      exact hname (by omega)
  · split_ifs
    · exact hcheck (by omega) fun k hk => hname (by omega)
    · exact fun a ha => (nomatch ha)

theorem recvFrameEndAccesses_inside (h : ctl.leadCode.LengthsFit) : ∀ a ∈ recvFrameEndAccesses ctl, a.Inside := by
  unfold recvFrameEndAccesses
  split_ifs
  · exact decodeAccesses_inside h
  · intro a ha
    cases ha

/-- Marks and half-words are outside for one frame number only: for larger ones the test
in front stops them. -/
theorem pushDataAccesses_inside_iff (ctl : Ctl) (packetNum : UInt8) :
    (∀ a ∈ pushDataAccesses ctl packetNum, a.Inside) ↔ packetNum ≠ packetNumBehind := by
  have h69 : packetNumBehind.toNat = 69 := rfl
  have h5 : (5 : UInt8).toNat = 5 := rfl
  have hlt := packetNum.toNat_lt
  have hindex : (packetNum - 5).toNat = (256 - 5 + packetNum.toNat) % 256 := by
    rw [UInt8.toNat_sub, h5]
  have hbehind : packetNum = packetNumBehind ↔ (packetNum - 5).toNat = 64 := by
    rw [← UInt8.toNat_inj, hindex]
    omega
  rw [Ne, hbehind]
  unfold pushDataAccesses isPacketValidAccesses isPacketValid
  dsimp only
  by_cases hout : (packetNum - 5).toNat * 2 > scMaxSsidpwdLen
  · rw [if_pos hout, if_pos hout]
    have hmax : scMaxSsidpwdLen = 128 := rfl
    refine iff_of_true ?_ (by omega)
    intro a ha
    cases ha
  rw [if_neg hout, if_neg hout]
  have hle : (packetNum - 5).toNat ≤ 64 := by
    have hmax : scMaxSsidpwdLen = 128 := rfl
    omega
  constructor
  · intro h heq
    have hmark : (packetNum - 5).toNat / 8 < 8 := h (.pktMark ((packetNum - 5).toNat / 8)) (by simp)
    omega
  · intro hne
    have hmark : (Access.pktMark ((packetNum - 5).toNat / 8)).Inside := show (packetNum - 5).toNat / 8 < 8 by omega
    have hword : (Access.halfWord (packetNum - 5).toNat).Inside := show (packetNum - 5).toNat < 64 by omega
    intro a ha
    by_cases hbit : (ctl.leadCode.pktMark.getD ((packetNum - 5).toNat / 8) 0) &&& bitMark (packetNum - 5) ≠ 0
    · simp only [if_pos hbit, List.append_nil, List.mem_singleton] at ha
      rw [ha]
      exact hmark
    · simp only [if_neg hbit, List.cons_append, List.nil_append, List.mem_cons, List.not_mem_nil, or_false] at ha
      rcases ha with rfl | rfl | rfl
      · exact hmark
      · exact hmark
      · exact hword

/-- The frame reaches behind the buffers: a data frame with that number, once the lead
codes are closed. -/
def Overruns (ctl : Ctl) (frame : Frame) : Prop :=
  ctl.state ≠ .complete ∧ ieee80211FrameSize ≤ frame.len ∧ isMagic frame.addr3 = true ∧
    ctl.leadCode.isLcComplete = true ∧ sentNum frame.addr3 = packetNumBehind

/-- One frame. -/
theorem LengthsKnown.inside_iff (h : LengthsKnown ctl) (frame : Frame) :
    (∀ a ∈ snifferCallbackAccesses ctl frame, a.Inside) ↔ ¬Overruns ctl frame := by
  have hnone : ∀ a ∈ ([] : List Access), a.Inside := fun a ha => (nomatch ha)
  unfold snifferCallbackAccesses Overruns
  split_ifs with hstate hlen hmagic
  · exact iff_of_true hnone fun hover => hover.1 hstate
  · exact iff_of_true hnone fun hover => absurd hover.2.1 (by omega)
  · refine iff_of_true hnone fun hover => ?_
    rw [hover.2.2.1] at hmagic
    cases hmagic
  unfold recvFrameProcAccesses
  dsimp only
  have h69 : packetNumBehind.toNat = 69 := rfl
  split_ifs with hlead hopen hnum hdiff
  · refine iff_of_true hnone fun hover => ?_
    rw [hover.2.2.2.2] at hlead
    exact absurd hlead (by decide)
  · refine iff_of_true hnone fun hover => ?_
    rw [hover.2.2.2.1] at hopen
    cases hopen
  all_goals
    have hclosed : ctl.leadCode.isLcComplete = true := by simpa using hopen
    have hfit := h hclosed
  · rw [List.append_nil, pushDataAccesses_inside_iff]
    constructor
    · exact fun hne hover => hne hover.2.2.2.2
    · exact fun hnot heq => hnot ⟨hstate, by omega, by simpa using hmagic, hclosed, heq⟩
  · have hend := recvFrameEndAccesses_inside
      (h.same (sameLead_pushData ctl frame.addr3[3] frame.addr3[4] frame.addr3[5])
        ((sameLead_pushData ctl frame.addr3[3] frame.addr3[4] frame.addr3[5]).isLcComplete.trans hclosed))
    rw [List.forall_mem_append, pushDataAccesses_inside_iff, and_iff_left hend]
    constructor
    · exact fun hne hover => hne hover.2.2.2.2
    · exact fun hnot heq => hnot ⟨hstate, by omega, by simpa using hmagic, hclosed, heq⟩
  · refine iff_of_true (recvFrameEndAccesses_inside hfit) fun hover => ?_
    rw [hover.2.2.2.2] at hnum
    exact hnum (by decide)

/-- A run of frames. -/
theorem LengthsKnown.frames_inside_iff (frames : List Frame) (h : LengthsKnown ctl) :
    (∀ a ∈ sniffAccesses ctl frames, a.Inside) ↔
      ∀ (before : List Frame) (frame : Frame) (after : List Frame), frames = before ++ frame :: after →
        ¬Overruns (SmartCfg.sniff ctl before) frame := by
  induction frames generalizing ctl with
  | nil =>
    refine iff_of_true (fun a ha => (nomatch ha)) ?_
    intro before frame after heq
    exact absurd heq (by simp)
  | cons f frames ih =>
    rw [sniffAccesses, List.forall_mem_append, h.inside_iff, ih (h.snifferCallback f)]
    constructor
    · rintro ⟨hfirst, hrest⟩ before frame after heq
      cases before with
      | nil =>
        obtain ⟨rfl, -⟩ := List.cons.inj heq
        exact hfirst
      | cons b before =>
        obtain ⟨rfl, hframes⟩ := List.cons.inj heq
        exact hrest before frame after hframes
    · intro hall
      refine ⟨hall [] f frames rfl, ?_⟩
      intro before frame after heq
      exact hall (f :: before) frame after (by rw [heq, List.cons_append])

/-- Every access of a run is inside its buffer exactly if no frame of it reaches behind. -/
theorem sniff_inside_iff (channelMap : UInt16) (scRandom : UInt8) (frames : List Frame) :
    (∀ a ∈ sniffAccesses (smartconfigStart channelMap scRandom) frames, a.Inside) ↔
      ∀ (before : List Frame) (frame : Frame) (after : List Frame), frames = before ++ frame :: after →
        ¬Overruns (sniff (smartconfigStart channelMap scRandom) before) frame :=
  (lengthsKnown_start channelMap scRandom).frames_inside_iff frames

/-- Four lead codes, one of them again, and then a data frame with the number 69. -/
theorem sniff_outside :
    ¬∀ a ∈ sniffAccesses (smartconfigStart 0x3FFE 0)
      ((List.finRange 4).map (fun k => ⟨24, openNetwork.leadFrame k⟩) ++
        [⟨24, openNetwork.leadFrame 0⟩, ⟨24, #v[0x01, 0x00, 0x5E, 69, 0xAA, 0xBB]⟩]), a.Inside := by
  decide +kernel

end Ln882x.SmartCfg
