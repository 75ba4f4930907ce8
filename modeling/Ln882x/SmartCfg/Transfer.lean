import Ln882x.SmartCfg.Receiver
import Mathlib.Data.Finset.Card
import Mathlib.Data.Finset.Range
import Mathlib.Data.Fintype.Basic
import Mathlib.Data.Nat.Bitwise
import Mathlib.Tactic.FinCases
import Mathlib.Tactic.IntervalCases

/-! What the receiver makes of the frames of one sender, whichever of them it
hears. It collects lead codes until all four are there, takes the next lead code
as the end of the lead phase, and then collects data frames; the marks and the
count say which of them it has. -/

namespace Ln882x.SmartCfg

/-! ### Marks -/

variable {i : ℕ}

theorem toNat_bit {k : UInt8} (hk : k.toNat < 8) : ((1 : UInt8) <<< k).toNat = 2 ^ k.toNat := by
  have hlt : 2 ^ k.toNat < 2 ^ 8 := Nat.pow_lt_pow_right (by omega) hk
  rw [UInt8.toNat_shiftLeft, UInt8.toNat_one, Nat.shiftLeft_eq, Nat.one_mul, Nat.mod_eq_of_lt hk, Nat.mod_eq_of_lt hlt]

theorem testBit_or_bit (m : UInt8) {k : UInt8} (hk : k.toNat < 8) (j : ℕ) :
    (m ||| (1 <<< k)).toNat.testBit j = (m.toNat.testBit j || decide (k.toNat = j)) := by
  rw [UInt8.toNat_or, Nat.testBit_or, toNat_bit hk, Nat.testBit_two_pow]

theorem and_bit_ne_zero (m : UInt8) {k : UInt8} (hk : k.toNat < 8) :
    m &&& (1 <<< k) ≠ 0 ↔ m.toNat.testBit k.toNat = true := by
  have hnat : (m &&& (1 <<< k)).toNat = (m.toNat.testBit k.toNat).toNat * 2 ^ k.toNat := by
    rw [UInt8.toNat_and, toNat_bit hk, Nat.and_two_pow]
  rw [Ne, ← UInt8.toNat_inj, hnat]
  cases m.toNat.testBit k.toNat with
  | false => simp
  | true => simp

/-- The data frame was received. -/
def pktMarked (pktMark : List UInt8) (i : ℕ) : Bool := (pktMark.getD (i / 8) 0).toNat.testBit (7 - i % 8)

theorem bitMark_shift {i : ℕ} (hi : i < 64) : (8 - UInt8.ofNat i % 8 - 1 : UInt8).toNat = 7 - i % 8 := by
  interval_cases i <;> rfl

theorem and_bitMark_ne_zero (m : UInt8) (hi : i < 64) :
    m &&& bitMark (UInt8.ofNat i) ≠ 0 ↔ m.toNat.testBit (7 - i % 8) = true := by
  have hbit := bitMark_shift hi
  rw [bitMark, and_bit_ne_zero _ (by omega), hbit]

theorem testBit_or_bitMark (m : UInt8) (hi : i < 64) (j : ℕ) :
    (m ||| bitMark (UInt8.ofNat i)).toNat.testBit j = (m.toNat.testBit j || decide (7 - i % 8 = j)) := by
  have hbit := bitMark_shift hi
  rw [bitMark, testBit_or_bit _ (by omega), hbit]

/-- The mark of a frame in the set of marks. -/
theorem isPacketValid_spec {pktMark : List UInt8} (hlen : pktMark.length = 8) (hi : i < 64) :
    pktMarked pktMark i = true ∧ isPacketValid pktMark (UInt8.ofNat i) = none ∨
      pktMarked pktMark i = false ∧ ∃ pm, isPacketValid pktMark (UInt8.ofNat i) = some pm ∧ pm.length = 8 ∧
        ∀ j, pktMarked pm j = (pktMarked pktMark j || decide (j = i)) := by
  have hnat : (UInt8.ofNat i).toNat = i := by
    rw [UInt8.toNat_ofNat']
    omega
  have hmark := and_bitMark_ne_zero (pktMark.getD (i / 8) 0) hi
  unfold isPacketValid
  rw [hnat, if_neg (by simp only [scMaxSsidpwdLen]; omega)]
  dsimp only
  cases hm : pktMarked pktMark i with
  | true =>
    rw [if_pos (hmark.mpr hm)]
    exact .inl ⟨rfl, rfl⟩
  | false =>
    have hnot : ¬pktMark.getD (i / 8) 0 &&& bitMark (UInt8.ofNat i) ≠ 0 := by
      intro h
      rw [pktMarked, hmark.mp h] at hm
      contradiction
    rw [if_neg hnot]
    refine .inr ⟨rfl, _, rfl, by rw [List.length_set, hlen], fun j => ?_⟩
    unfold pktMarked
    by_cases hbyte : j / 8 = i / 8
    · rw [hbyte, List.getD_eq_getElem?_getD, List.getElem?_set_self (by omega), Option.getD_some, testBit_or_bitMark _ hi,
        decide_eq_decide.mpr (by omega : 7 - i % 8 = 7 - j % 8 ↔ j = i)]
    · rw [List.getD_eq_getElem?_getD, List.getElem?_set_ne (Ne.symm hbyte), ← List.getD_eq_getElem?_getD,
        decide_eq_false (by omega : ¬j = i), Bool.or_false]

/-! ### The sender -/

/-- What a phone sends: the network, a channel, a random byte and the byte that pads. -/
structure Sender where
  ssid : List UInt8
  pwd : List UInt8
  channel : UInt8
  random : UInt8
  pad : UInt8
  ssid_pos : 1 ≤ ssid.length
  ssid_le : ssid.length ≤ 32
  pwd_le : pwd.length ≤ 63

variable (S : Sender)

def Sender.total : ℕ := S.pwd.length + S.ssid.length

/-- The bytes that the data frames carry. -/
def Sender.payload : List UInt8 :=
  S.pwd ++ S.ssid ++ List.replicate (S.total % 2) S.pad ++ [calCrc8 S.pwd, calCrc8 S.ssid]

/-- The number of data frames. -/
def Sender.frames : ℕ := (S.total + 1) / 2 + 1

def Sender.leadByte : Fin 4 → UInt8
  | 0 => S.channel
  | 1 => UInt8.ofNat S.total
  | 2 => UInt8.ofNat S.pwd.length
  | 3 => S.random

def Sender.leadFrame (k : Fin 4) : Vector UInt8 6 :=
  #v[0x01, 0x00, 0x5E, UInt8.ofNat (k + 1), S.leadByte k, calCrc8 [S.leadByte k]]

def Sender.dataFrame (i : ℕ) : Vector UInt8 6 :=
  #v[0x01, 0x00, 0x5E, UInt8.ofNat (5 + i), S.payload.getD (2 * i) 0, S.payload.getD (2 * i + 1) 0]

/-- The frames of the sender. -/
inductive Sender.Sends : Frame → Prop
  | lead (k : Fin 4) {len : ℕ} : ieee80211FrameSize ≤ len → Sender.Sends ⟨len, S.leadFrame k⟩
  | data {i len : ℕ} : i < S.frames → ieee80211FrameSize ≤ len → Sender.Sends ⟨len, S.dataFrame i⟩

variable {S} {ctl : Ctl} {seen : Finset ℕ} {k : Fin 4}

theorem Sender.total_le (S : Sender) : S.total ≤ 95 := by
  have h1 := S.ssid_le
  have h2 := S.pwd_le
  unfold Sender.total
  omega

theorem Sender.frames_le (S : Sender) : S.frames ≤ 49 := by
  have := S.total_le
  unfold Sender.frames
  omega

theorem Sender.payload_length (S : Sender) : S.payload.length = 2 * S.frames := by
  simp only [Sender.payload, Sender.frames, Sender.total, List.length_append, List.length_replicate, List.length_cons,
    List.length_nil]
  omega

/-! ### The three stages -/

/-- What the lead codes say that were received. -/
structure LeadMarks (S : Sender) (lc : LeadCode) : Prop where
  len : lc.lcMark.toNat.testBit 2 = true →
    lc.ssidpwdLen = UInt8.ofNat S.total ∧ lc.expectTotalPkt = UInt8.ofNat S.frames
  pwd : lc.lcMark.toNat.testBit 3 = true → lc.pwdLen = UInt8.ofNat S.pwd.length
  random : lc.lcMark.toNat.testBit 4 = true → lc.random = S.random

/-- The lead codes are collected. -/
structure Leading (S : Sender) (ctl : Ctl) : Prop where
  state : ctl.state = .searchChan
  isLcComplete : ctl.leadCode.isLcComplete = false
  marks : LeadMarks S ctl.leadCode
  pktCount : ctl.leadCode.pktCount = 0
  pktMark : ctl.leadCode.pktMark = zeros scPktByteMarkLen
  recvbuff : ctl.recvbuff = zeros scMaxSsidpwdLen
  result : ctl.result = .clear

/-- The lead codes are there. -/
structure Led (S : Sender) (lc : LeadCode) : Prop where
  isLcComplete : lc.isLcComplete = true
  ssidpwdLen : lc.ssidpwdLen = UInt8.ofNat S.total
  expect : lc.expectTotalPkt = UInt8.ofNat S.frames
  pwdLen : lc.pwdLen = UInt8.ofNat S.pwd.length
  random : lc.random = S.random

/-- The half-words of the received frames are in the buffer. -/
def Filled (S : Sender) (seen : Finset ℕ) (buf : List UInt8) : Prop :=
  ∀ i ∈ seen, buf.getD (2 * i) 0 = S.payload.getD (2 * i) 0 ∧ buf.getD (2 * i + 1) 0 = S.payload.getD (2 * i + 1) 0

/-- Data frames are collected. -/
structure Gathering (S : Sender) (seen : Finset ℕ) (ctl : Ctl) : Prop where
  state : ctl.state = .lockedChan
  led : Led S ctl.leadCode
  pktCount : ctl.leadCode.pktCount = UInt8.ofNat seen.card
  markLen : ctl.leadCode.pktMark.length = 8
  pktMark : ∀ i, pktMarked ctl.leadCode.pktMark i = true ↔ i ∈ seen
  known : seen ⊆ Finset.range S.frames
  bufLen : ctl.recvbuff.length = scMaxSsidpwdLen
  filled : Filled S seen ctl.recvbuff
  result : ctl.result = .clear

/-- The result is the sender's. -/
structure Delivered (S : Sender) (r : Result) : Prop where
  ssid : r.ssid = S.ssid ++ zeros (wlanSsidMaxLen - S.ssid.length)
  pwd : r.pwd = S.pwd ++ zeros (wlanPwdMaxLen + 1 - S.pwd.length)
  ssidLen : r.ssidLen.toNat = S.ssid.length
  pwdLen : r.pwdLen.toNat = S.pwd.length
  random : r.random = S.random

inductive Stage (S : Sender) (ctl : Ctl) : Prop
  | leading : Leading S ctl → Stage S ctl
  | gathering (seen : Finset ℕ) : Gathering S seen ctl → seen.card < S.frames → Stage S ctl
  | done : ctl.state = .complete → Delivered S ctl.result → ctl.scRandom = S.random → Stage S ctl

/-! ### Lead codes -/

/-- The four lead codes are there. -/
def AllMarks (lc : LeadCode) : Prop := ∀ k : Fin 4, lc.lcMark.toNat.testBit (k + 1) = true

theorem and_marks_eq (m : UInt8) : m &&& 0x1E = 0x1E ↔ ∀ k : Fin 4, m.toNat.testBit (k + 1) = true := by
  have hall : ∀ n < 256, (n &&& 0x1E = 0x1E ↔ ∀ k : Fin 4, n.testBit (k + 1) = true) := by decide +kernel
  rw [← UInt8.toNat_inj, UInt8.toNat_and]
  exact hall m.toNat m.toNat_lt

theorem toNat_ofNat_lt {n : ℕ} (hn : n < 256) : (UInt8.ofNat n).toNat = n := by
  rw [UInt8.toNat_ofNat', Nat.mod_eq_of_lt hn]

theorem Sender.pwd_toNat (S : Sender) : (UInt8.ofNat S.pwd.length).toNat = S.pwd.length :=
  toNat_ofNat_lt (by have := S.pwd_le; omega)

theorem Sender.total_toNat (S : Sender) : (UInt8.ofNat S.total).toNat = S.total :=
  toNat_ofNat_lt (by have := S.total_le; omega)

theorem Sender.frames_toNat (S : Sender) : (UInt8.ofNat S.frames).toNat = S.frames :=
  toNat_ofNat_lt (by have := S.frames_le; omega)

theorem Sender.ssid_sub (S : Sender) : UInt8.ofNat S.total - UInt8.ofNat S.pwd.length = UInt8.ofNat S.ssid.length := by
  have hle : UInt8.ofNat S.pwd.length ≤ UInt8.ofNat S.total := by
    rw [UInt8.le_iff_toNat_le, S.pwd_toNat, S.total_toNat]
    exact Nat.le_add_right _ _
  apply UInt8.toNat_inj.mp
  rw [UInt8.toNat_sub_of_le _ _ hle, S.total_toNat, S.pwd_toNat, toNat_ofNat_lt (by have := S.ssid_le; omega)]
  exact Nat.add_sub_cancel_left _ _

theorem Sender.expect_eq (S : Sender) : UInt8.ofNat S.total / 2 + UInt8.ofNat S.total % 2 + 1 = UInt8.ofNat S.frames := by
  have hle := S.total_le
  apply UInt8.toNat_inj.mp
  rw [UInt8.toNat_add, UInt8.toNat_add, UInt8.toNat_div, UInt8.toNat_mod, S.total_toNat, S.frames_toNat]
  simp only [UInt8.reduceToNat, Sender.frames]
  omega

/-- A lead code is taken down, as long as one is missing. -/
structure Noted (S : Sender) (k : Fin 4) (lc lc' : LeadCode) : Prop where
  marks : LeadMarks S lc'
  lcMark : ∀ j, lc'.lcMark.toNat.testBit j = (lc.lcMark.toNat.testBit j || decide ((k : ℕ) + 1 = j))
  isLcComplete : lc'.isLcComplete = lc.isLcComplete
  pktCount : lc'.pktCount = lc.pktCount
  pktMark : lc'.pktMark = lc.pktMark

theorem leadCodeProc_noted {lc : LeadCode} (h : LeadMarks S lc) (hm : ¬AllMarks lc) (k : Fin 4) :
    Noted S k lc (leadCodeProc lc (UInt8.ofNat (k + 1)) (S.leadByte k) (calCrc8 [S.leadByte k])) := by
  have hand : ¬lc.lcMark &&& 0x1E = 0x1E := fun he => hm ((and_marks_eq _).mp he)
  unfold leadCodeProc
  rw [if_neg (by fin_cases k <;> decide), if_neg (fun he => hand he.1), if_neg hand]
  dsimp only
  rw [if_neg (not_not.mpr rfl)]
  have hbit : ∀ (n : UInt8) (j : ℕ), n.toNat < 8 →
      (lc.lcMark ||| 1 <<< n).toNat.testBit j = (lc.lcMark.toNat.testBit j || decide (n.toNat = j)) :=
    fun n j hn => testBit_or_bit _ hn j
  fin_cases k
  · refine ⟨⟨fun hj => ?_, fun hj => ?_, fun hj => ?_⟩, fun j => hbit 1 j (by decide), rfl, rfl, rfl⟩
    · exact h.len ((Bool.or_eq_true_iff.mp ((hbit 1 2 (by decide)).symm.trans hj)).resolve_right (by decide))
    · exact h.pwd ((Bool.or_eq_true_iff.mp ((hbit 1 3 (by decide)).symm.trans hj)).resolve_right (by decide))
    · exact h.random ((Bool.or_eq_true_iff.mp ((hbit 1 4 (by decide)).symm.trans hj)).resolve_right (by decide))
  · refine ⟨⟨fun hj => ?_, fun hj => ?_, fun hj => ?_⟩, fun j => hbit 2 j (by decide), rfl, rfl, rfl⟩
    · exact ⟨rfl, S.expect_eq⟩
    · exact h.pwd ((Bool.or_eq_true_iff.mp ((hbit 2 3 (by decide)).symm.trans hj)).resolve_right (by decide))
    · exact h.random ((Bool.or_eq_true_iff.mp ((hbit 2 4 (by decide)).symm.trans hj)).resolve_right (by decide))
  · refine ⟨⟨fun hj => ?_, fun hj => ?_, fun hj => ?_⟩, fun j => hbit 3 j (by decide), rfl, rfl, rfl⟩
    · exact h.len ((Bool.or_eq_true_iff.mp ((hbit 3 2 (by decide)).symm.trans hj)).resolve_right (by decide))
    · exact rfl
    · exact h.random ((Bool.or_eq_true_iff.mp ((hbit 3 4 (by decide)).symm.trans hj)).resolve_right (by decide))
  · refine ⟨⟨fun hj => ?_, fun hj => ?_, fun hj => ?_⟩, fun j => hbit 4 j (by decide), rfl, rfl, rfl⟩
    · exact h.len ((Bool.or_eq_true_iff.mp ((hbit 4 2 (by decide)).symm.trans hj)).resolve_right (by decide))
    · exact h.pwd ((Bool.or_eq_true_iff.mp ((hbit 4 3 (by decide)).symm.trans hj)).resolve_right (by decide))
    · exact rfl

/-- A lead code after all four ends the lead phase. -/
theorem leadCodeProc_full {lc : LeadCode} (h : LeadMarks S lc) (hm : AllMarks lc) (k : Fin 4) (data crc : UInt8) :
    leadCodeProc lc (UInt8.ofNat (k + 1)) data crc = { lc with isLcComplete := true } := by
  have hlen := (h.len (hm 1)).1
  have hpwd := h.pwd (hm 2)
  unfold leadCodeProc
  rw [if_neg (by fin_cases k <;> decide), if_pos]
  refine ⟨(and_marks_eq _).mpr hm, ?_, ?_⟩
  · rw [hpwd, ge_iff_le, UInt8.le_iff_toNat_le, S.pwd_toNat]
    exact S.pwd_le
  · rw [hlen, hpwd, S.ssid_sub, ge_iff_le, UInt8.le_iff_toNat_le, toNat_ofNat_lt (by have := S.ssid_le; omega)]
    exact S.ssid_le

/-! ### Decoding -/

theorem memcpy_zeros {n : ℕ} {l : List UInt8} (hl : l.length < n) :
    (memcpy (zeros n) l).set l.length 0 = l ++ zeros (n - l.length) := by
  have hpos : n - l.length = (n - l.length - 1) + 1 := by omega
  rw [memcpy, zeros, List.drop_replicate, List.set_append_right _ _ (Nat.le_refl _), Nat.sub_self, hpos, List.replicate_succ,
    List.set_cons_zero, zeros, ← List.replicate_succ]

/-- The buffer starts with what was sent. -/
theorem Gathering.buffer (h : Gathering S seen ctl) (hall : seen.card = S.frames) :
    ∃ rest, ctl.recvbuff = S.payload ++ rest := by
  have hseen : seen = Finset.range S.frames := by
    apply Finset.eq_of_subset_of_card_le h.known
    rw [Finset.card_range, hall]
  have hle := S.frames_le
  have hbuf := h.bufLen
  have hpay := S.payload_length
  simp only [scMaxSsidpwdLen] at hbuf
  refine ⟨ctl.recvbuff.drop (2 * S.frames), ?_⟩
  have htake : ctl.recvbuff.take (2 * S.frames) = S.payload := by
    apply List.ext_getElem
    · rw [List.length_take, hbuf, hpay]
      omega
    · intro n h1 h2
      have hn : n / 2 ∈ seen := by
        rw [hseen, Finset.mem_range]
        omega
      obtain ⟨hlo, hhi⟩ := h.filled (n / 2) hn
      have hget : ctl.recvbuff.getD n 0 = S.payload.getD n 0 := by
        rcases Nat.mod_two_eq_zero_or_one n with hmod | hmod
        · rwa [show 2 * (n / 2) = n by omega] at hlo
        · rwa [show 2 * (n / 2) + 1 = n by omega] at hhi
      rw [List.getElem_take]
      rw [List.getD_eq_getElem _ _ (by omega), List.getD_eq_getElem _ _ h2] at hget
      exact hget
  rw [← htake, List.take_append_drop]

theorem Gathering.decodeResult (h : Gathering S seen ctl) (hall : seen.card = S.frames) :
    Delivered S (decodeResult ctl) := by
  obtain ⟨rest, hbuf⟩ := h.buffer hall
  have hssid : (UInt8.ofNat S.ssid.length).toNat = S.ssid.length := toNat_ofNat_lt (by have := S.ssid_le; omega)
  have hpwdLen := S.pwd_toNat
  have hsl := S.ssid_le
  have hpl := S.pwd_le
  have hpwd : ctl.recvbuff.take S.pwd.length = S.pwd := by
    rw [hbuf, Sender.payload, List.append_assoc, List.append_assoc, List.append_assoc, List.take_left']
    rfl
  have hname : (ctl.recvbuff.drop S.pwd.length).take S.ssid.length = S.ssid := by
    rw [hbuf, Sender.payload, List.append_assoc, List.append_assoc, List.append_assoc, List.drop_left', List.take_left']
    · rfl
    · rfl
  unfold SmartCfg.decodeResult
  simp only [h.led.ssidpwdLen, h.led.pwdLen, h.led.random, S.ssid_sub, hssid, hpwdLen, hpwd, hname, h.result]
  refine ⟨memcpy_zeros ?_, memcpy_zeros ?_, hssid, hpwdLen, rfl⟩
  · simp only [wlanSsidMaxLen]
    omega
  · simp only [wlanPwdMaxLen]
    omega

theorem Gathering.decodeChecks (h : Gathering S seen ctl) (hall : seen.card = S.frames) {r : Result} (hr : Delivered S r) :
    decodeChecks ctl r = true := by
  obtain ⟨rest, hbuf⟩ := h.buffer hall
  have htot : (UInt8.ofNat S.total % 2).toNat = S.total % 2 := by
    rw [UInt8.toNat_mod, S.total_toNat]
    rfl
  have hlen : (S.pwd ++ S.ssid ++ List.replicate (S.total % 2) S.pad).length = S.total + S.total % 2 := by
    simp only [List.length_append, List.length_replicate, Sender.total]
  have hrest : ctl.recvbuff = (S.pwd ++ S.ssid ++ List.replicate (S.total % 2) S.pad) ++
      (calCrc8 S.pwd :: calCrc8 S.ssid :: rest) := by
    rw [hbuf, Sender.payload, List.append_assoc]
    rfl
  have hpwd : r.pwd.take r.pwdLen.toNat = S.pwd := by
    rw [hr.pwdLen, hr.pwd, List.take_left']
    rfl
  have hssid : r.ssid.take r.ssidLen.toNat = S.ssid := by
    rw [hr.ssidLen, hr.ssid, List.take_left']
    rfl
  unfold SmartCfg.decodeChecks
  simp only [h.led.ssidpwdLen, S.total_toNat, htot, hpwd, hssid, Bool.and_eq_true, decide_eq_true_eq]
  constructor
  · rw [hrest, List.getD_append_right _ _ _ _ (by omega), hlen, Nat.sub_self]
    rfl
  · rw [hrest, List.getD_append_right _ _ _ _ (by omega), hlen, Nat.add_sub_cancel_left]
    rfl

/-! ### Frames -/

theorem snifferCallback_of_magic {f : Frame} (hs : ctl.state ≠ .complete) (hlen : ieee80211FrameSize ≤ f.len)
    (hm : isMagic f.addr3 = true) : snifferCallback ctl f =
      let r := recvFrameProc ctl f.addr3
      if r.2 = .lockedChan ∧ r.1.state ≠ r.2 then { r.1 with state := r.2, isChHopping := false }
      else if r.2 = .complete ∧ r.1.state.code < ScState.complete.code then { r.1 with state := r.2 }
      else r.1 := by
  unfold snifferCallback
  rw [if_neg hs, if_neg (by omega), hm]
  rfl

theorem recvFrameProc_lead (ctl : Ctl) (k : Fin 4) : recvFrameProc ctl (S.leadFrame k) =
    if ctl.leadCode.isLcComplete then (ctl, ctl.state)
    else
      let lc := leadCodeProc ctl.leadCode (UInt8.ofNat (k + 1)) (S.leadByte k) (calCrc8 [S.leadByte k])
      ({ ctl with leadCode := lc }, if lc.isLcComplete then .lockedChan else ctl.state) := by
  unfold recvFrameProc
  have hnum : UInt8.ofNat (k + 1) > leadCodeSeqNone ∧ UInt8.ofNat (k + 1) < leadCodeSeqComplete := by
    fin_cases k <;> decide
  exact if_pos hnum

theorem recvFrameProc_data (hi : i < S.frames) (hlc : ctl.leadCode.isLcComplete = true) :
    recvFrameProc ctl (S.dataFrame i) =
      let pushed := pushData ctl (UInt8.ofNat (5 + i)) (S.payload.getD (2 * i) 0) (S.payload.getD (2 * i + 1) 0)
      if pushed.2 ≠ 0 then (pushed.1, ctl.state) else recvFrameEnd pushed.1 := by
  have hle := S.frames_le
  have hnat : (UInt8.ofNat (5 + i)).toNat = 5 + i := toNat_ofNat_lt (by omega)
  have hnum : ¬(UInt8.ofNat (5 + i) > leadCodeSeqNone ∧ UInt8.ofNat (5 + i) < leadCodeSeqComplete) := by
    rintro ⟨-, h⟩
    rw [UInt8.lt_iff_toNat_lt, hnat] at h
    simp only [leadCodeSeqComplete, UInt8.reduceToNat] at h
    omega
  have hmax : UInt8.ofNat (5 + i) ≤ packetNumMax := by
    rw [UInt8.le_iff_toNat_le, hnat]
    simp only [packetNumMax, UInt8.reduceToNat]
    omega
  unfold recvFrameProc
  refine (if_neg hnum).trans ?_
  rw [hlc]
  exact if_pos hmax

/-! ### One frame -/

variable {len : ℕ}

theorem snifferCallback_lead (hs : ctl.state ≠ .complete) (hlen : ieee80211FrameSize ≤ len) (k : Fin 4) :
    snifferCallback ctl ⟨len, S.leadFrame k⟩ =
      let r := recvFrameProc ctl (S.leadFrame k)
      if r.2 = .lockedChan ∧ r.1.state ≠ r.2 then { r.1 with state := r.2, isChHopping := false }
      else if r.2 = .complete ∧ r.1.state.code < ScState.complete.code then { r.1 with state := r.2 }
      else r.1 :=
  snifferCallback_of_magic hs hlen rfl

theorem snifferCallback_data (hs : ctl.state ≠ .complete) (hlen : ieee80211FrameSize ≤ len) (i : ℕ) :
    snifferCallback ctl ⟨len, S.dataFrame i⟩ =
      let r := recvFrameProc ctl (S.dataFrame i)
      if r.2 = .lockedChan ∧ r.1.state ≠ r.2 then { r.1 with state := r.2, isChHopping := false }
      else if r.2 = .complete ∧ r.1.state.code < ScState.complete.code then { r.1 with state := r.2 }
      else r.1 :=
  snifferCallback_of_magic hs hlen rfl

theorem Leading.lead_noted (h : Leading S ctl) (hm : ¬AllMarks ctl.leadCode) (hlen : ieee80211FrameSize ≤ len) (k : Fin 4) :
    Leading S (snifferCallback ctl ⟨len, S.leadFrame k⟩) ∧
      Noted S k ctl.leadCode (snifferCallback ctl ⟨len, S.leadFrame k⟩).leadCode := by
  have hs : ctl.state ≠ .complete := by rw [h.state]; decide
  have hn := leadCodeProc_noted h.marks hm k
  have hlc := hn.isLcComplete.trans h.isLcComplete
  rw [snifferCallback_lead hs hlen, recvFrameProc_lead, h.isLcComplete]
  simp only [Bool.false_eq_true, if_false, hlc, h.state, reduceCtorEq, false_and]
  exact ⟨⟨rfl, hlc, hn.marks, hn.pktCount.trans h.pktCount, hn.pktMark.trans h.pktMark, h.recvbuff, h.result⟩, hn⟩

theorem Leading.lead_full (h : Leading S ctl) (hm : AllMarks ctl.leadCode) (hlen : ieee80211FrameSize ≤ len) (k : Fin 4) :
    Gathering S ∅ (snifferCallback ctl ⟨len, S.leadFrame k⟩) := by
  have hs : ctl.state ≠ .complete := by rw [h.state]; decide
  rw [snifferCallback_lead hs hlen, recvFrameProc_lead, h.isLcComplete, leadCodeProc_full h.marks hm]
  simp only [Bool.false_eq_true, if_false, if_true, h.state, ne_eq, reduceCtorEq, not_false_eq_true, and_self]
  refine ⟨rfl, ⟨rfl, (h.marks.len (hm 1)).1, (h.marks.len (hm 1)).2, h.marks.pwd (hm 2), h.marks.random (hm 3)⟩,
    h.pktCount, ?_, fun i => ?_, Finset.empty_subset _, ?_, fun i hi => ?_, h.result⟩
  · dsimp only
    rw [h.pktMark]
    rfl
  · have hzero : pktMarked (zeros scPktByteMarkLen) i = false := by
      have hget : (zeros scPktByteMarkLen).getD (i / 8) 0 = 0 := by
        rw [zeros, List.getD_eq_getElem?_getD, List.getElem?_replicate]
        split_ifs <;> rfl
      rw [pktMarked, hget]
      exact Nat.zero_testBit _
    dsimp only
    rw [h.pktMark, hzero]
    simp
  · dsimp only
    rw [h.recvbuff]
    rfl
  · simp at hi

theorem Leading.data (h : Leading S ctl) (hlen : ieee80211FrameSize ≤ len) (hi : i < S.frames) :
    snifferCallback ctl ⟨len, S.dataFrame i⟩ = ctl := by
  have hs : ctl.state ≠ .complete := by rw [h.state]; decide
  have hle := S.frames_le
  have hnat : (UInt8.ofNat (5 + i)).toNat = 5 + i := toNat_ofNat_lt (by omega)
  have hproc : recvFrameProc ctl (S.dataFrame i) = (ctl, ctl.state) := by
    unfold recvFrameProc
    refine (if_neg ?_).trans ?_
    · rintro ⟨-, hlt⟩
      change UInt8.ofNat (5 + i) < leadCodeSeqComplete at hlt
      rw [UInt8.lt_iff_toNat_lt, hnat] at hlt
      simp only [leadCodeSeqComplete, UInt8.reduceToNat] at hlt
      omega
    · rw [h.isLcComplete]
      rfl
  rw [snifferCallback_data hs hlen, hproc, h.state]
  simp

theorem Gathering.lead (h : Gathering S seen ctl) (hlen : ieee80211FrameSize ≤ len) (k : Fin 4) :
    snifferCallback ctl ⟨len, S.leadFrame k⟩ = ctl := by
  have hs : ctl.state ≠ .complete := by rw [h.state]; decide
  rw [snifferCallback_lead hs hlen, recvFrameProc_lead, h.led.isLcComplete]
  simp [h.state]

/-- What is still missing. -/
theorem Gathering.missing (h : Gathering S seen ctl) :
    (ctl.leadCode.expectTotalPkt.toNat : ℤ) - ctl.leadCode.pktCount.toNat = S.frames - seen.card := by
  have hcard := Finset.card_le_card h.known
  rw [Finset.card_range] at hcard
  have hle := S.frames_le
  rw [h.led.expect, h.pktCount, S.frames_toNat, toNat_ofNat_lt (by omega)]

theorem Filled.store {buf : List UInt8} (h : Filled S seen buf) (hlen : buf.length = scMaxSsidpwdLen) (hi : i < S.frames) :
    Filled S (insert i seen) (storeHalfWord buf i (S.payload.getD (2 * i) 0) (S.payload.getD (2 * i + 1) 0)) := by
  have hle := S.frames_le
  simp only [scMaxSsidpwdLen] at hlen
  intro j hj
  unfold storeHalfWord
  rw [Finset.mem_insert] at hj
  by_cases hji : j = i
  · subst hji
    simp only [List.getD_eq_getElem?_getD]
    rw [List.getElem?_set_ne (by omega), List.getElem?_set_self (by omega), List.getElem?_set_self
      (by rw [List.length_set]; omega)]
    exact ⟨rfl, rfl⟩
  · obtain ⟨h1, h2⟩ := h j (hj.resolve_left hji)
    simp only [List.getD_eq_getElem?_getD] at h1 h2 ⊢
    rw [List.getElem?_set_ne (by omega), List.getElem?_set_ne (by omega), List.getElem?_set_ne (by omega),
      List.getElem?_set_ne (by omega)]
    exact ⟨h1, h2⟩

/-- The state that `ln_sc_push_data` leaves. -/
theorem Gathering.push (h : Gathering S seen ctl) (hi : i < S.frames) :
    ∃ ctl', Gathering S (insert i seen) ctl' ∧
      pushData ctl (UInt8.ofNat (5 + i)) (S.payload.getD (2 * i) 0) (S.payload.getD (2 * i + 1) 0) =
        (ctl', (S.frames : ℤ) - (insert i seen).card) ∧ (i ∈ seen → ctl' = ctl) := by
  have hle := S.frames_le
  have hsub : UInt8.ofNat (5 + i) - 5 = UInt8.ofNat i := by
    rw [Nat.add_comm, UInt8.ofNat_add]
    exact UInt8.add_sub_cancel _ _
  have hnat : (UInt8.ofNat i).toNat = i := toNat_ofNat_lt (by omega)
  unfold pushData
  rw [hsub]
  dsimp only
  rw [hnat]
  rcases isPacketValid_spec h.markLen (by omega : i < 64) with ⟨hm, hv⟩ | ⟨hm, pm, hv, hpm, hmarks⟩
  · have hmem := (h.pktMark i).mp hm
    have hins : insert i seen = seen := Finset.insert_eq_self.mpr hmem
    rw [hv, hins]
    exact ⟨ctl, h, by rw [← h.missing], fun _ => rfl⟩
  · have hmem : i ∉ seen := by
      intro hin
      rw [(h.pktMark i).mpr hin] at hm
      contradiction
    rw [hv]
    have hnew : Gathering S (insert i seen)
        { ctl with
          recvbuff := storeHalfWord ctl.recvbuff i (S.payload.getD (2 * i) 0) (S.payload.getD (2 * i + 1) 0)
          leadCode := { ctl.leadCode with pktMark := pm, pktCount := ctl.leadCode.pktCount + 1 } } := by
      refine ⟨h.state, ⟨h.led.isLcComplete, h.led.ssidpwdLen, h.led.expect, h.led.pwdLen, h.led.random⟩, ?_, hpm, ?_, ?_, ?_,
        h.filled.store h.bufLen hi, h.result⟩
      · dsimp only
        rw [h.pktCount, Finset.card_insert_of_notMem hmem, UInt8.ofNat_add]
        rfl
      · intro j
        rw [hmarks j, Bool.or_eq_true, decide_eq_true_eq, h.pktMark j, Finset.mem_insert]
        exact or_comm
      · apply Finset.insert_subset _ h.known
        rw [Finset.mem_range]
        exact hi
      · rw [storeHalfWord, List.length_set, List.length_set]
        exact h.bufLen
    refine ⟨_, hnew, ?_, fun hin => absurd hin hmem⟩
    rw [← hnew.missing]

/-- The last frame completes the transfer. -/
theorem Gathering.end (h : Gathering S seen ctl) (hall : seen.card = S.frames) :
    ∃ ctl', recvFrameEnd ctl = (ctl', .complete) ∧ ctl'.state = .lockedChan ∧ Delivered S ctl'.result ∧
      ctl'.scRandom = S.random := by
  have hres := h.decodeResult hall
  have hchk := h.decodeChecks hall hres
  unfold recvFrameEnd
  rw [if_pos]
  · unfold decode
    dsimp only
    rw [hchk]
    exact ⟨_, rfl, h.state, hres, hres.random⟩
  · refine ⟨by rw [h.state]; decide, ?_⟩
    rw [h.led.expect, h.pktCount, hall]

theorem Gathering.data (h : Gathering S seen ctl) (hlen : ieee80211FrameSize ≤ len) (hi : i < S.frames) :
    (insert i seen).card < S.frames ∧ Gathering S (insert i seen) (snifferCallback ctl ⟨len, S.dataFrame i⟩) ∨
      (snifferCallback ctl ⟨len, S.dataFrame i⟩).state = .complete ∧
        Delivered S (snifferCallback ctl ⟨len, S.dataFrame i⟩).result ∧
        (snifferCallback ctl ⟨len, S.dataFrame i⟩).scRandom = S.random := by
  have hs : ctl.state ≠ .complete := by rw [h.state]; decide
  obtain ⟨ctl', hg, hpush, -⟩ := h.push hi
  have hcard := Finset.card_le_card hg.known
  rw [Finset.card_range] at hcard
  have hproc := recvFrameProc_data hi h.led.isLcComplete
  rw [hpush] at hproc
  dsimp only at hproc
  by_cases hall : (insert i seen).card = S.frames
  · obtain ⟨ctl'', hend, hst, hdel, hrand⟩ := hg.end hall
    rw [if_neg (by rw [hall]; simp), hend] at hproc
    rw [snifferCallback_data hs hlen, hproc]
    right
    dsimp only
    rw [if_neg (by simp), if_pos ⟨rfl, by rw [hst]; decide⟩]
    exact ⟨rfl, hdel, hrand⟩
  · rw [if_pos (by omega), h.state] at hproc
    rw [snifferCallback_data hs hlen, hproc]
    left
    dsimp only
    rw [if_neg (fun hc => hc.2 hg.state), if_neg (by simp)]
    exact ⟨by omega, hg⟩

/-! ### Runs -/

/-- What a frame of the sender can do. -/
inductive Advance (S : Sender) (ctl ctl' : Ctl) : Prop
  | rest : ctl' = ctl → Advance S ctl ctl'
  | noted (k : Fin 4) : Leading S ctl → Leading S ctl' → Noted S k ctl.leadCode ctl'.leadCode → Advance S ctl ctl'
  | closed : Leading S ctl → Gathering S ∅ ctl' → Advance S ctl ctl'
  | got (seen : Finset ℕ) (i : ℕ) : Gathering S seen ctl → Gathering S (insert i seen) ctl' →
      (insert i seen).card < S.frames → Advance S ctl ctl'
  | completed : ctl'.state = .complete → Delivered S ctl'.result → ctl'.scRandom = S.random → Advance S ctl ctl'

theorem Stage.advance (h : Stage S ctl) {f : Frame} (hf : S.Sends f) : Advance S ctl (snifferCallback ctl f) := by
  cases h with
  | leading h =>
    cases hf with
    | lead k hlen =>
      by_cases hm : AllMarks ctl.leadCode
      · exact .closed h (h.lead_full hm hlen k)
      · obtain ⟨hl, hn⟩ := h.lead_noted hm hlen k
        exact .noted k h hl hn
    | data hi hlen => exact .rest (h.data hlen hi)
  | gathering seen h hlt =>
    cases hf with
    | lead k hlen => exact .rest (h.lead hlen k)
    | @data i len hi hlen =>
      rcases h.data hlen hi with ⟨hlt', hg⟩ | ⟨hs, hd, hr⟩
      · exact .got seen i h hg hlt'
      · exact .completed hs hd hr
  | done hs hd hr =>
    apply Advance.rest
    rw [snifferCallback, if_pos hs]

theorem Stage.step (h : Stage S ctl) {f : Frame} (hf : S.Sends f) : Stage S (snifferCallback ctl f) := by
  cases h.advance hf with
  | rest he => rwa [he]
  | noted _ _ hl => exact .leading hl
  | closed _ hg => exact .gathering ∅ hg (Nat.succ_pos _)
  | got seen i _ hg hlt => exact .gathering _ hg hlt
  | completed hs hd hr => exact .done hs hd hr

theorem Stage.sniff {frames : List Frame} (h : Stage S ctl) (hf : ∀ f ∈ frames, S.Sends f) : Stage S (sniff ctl frames) := by
  induction frames generalizing ctl with
  | nil => exact h
  | cons f frames ih => exact ih (h.step (hf f (by simp))) fun x hx => hf x (by simp [hx])

theorem stage_smartconfigStart (S : Sender) (channelMap : UInt16) (scRandom : UInt8) :
    Stage S (smartconfigStart channelMap scRandom) := by
  have hzero : ∀ j, (0 : UInt8).toNat.testBit j = true → False := by simp
  exact .leading ⟨rfl, rfl, ⟨fun h => (hzero _ h).elim, fun h => (hzero _ h).elim, fun h => (hzero _ h).elim⟩, rfl, rfl, rfl, rfl⟩

/-- The lead code was heard, or the lead phase is over. -/
def Heard (k : Fin 4) (ctl : Ctl) : Prop := ctl.state ≠ .searchChan ∨ ctl.leadCode.lcMark.toNat.testBit (k + 1) = true

/-- The data frame was received, or all were. -/
def Got (i : ℕ) (ctl : Ctl) : Prop :=
  ctl.state = .complete ∨ ctl.state = .lockedChan ∧ pktMarked ctl.leadCode.pktMark i = true

variable {ctl' : Ctl}

theorem Advance.heard (h : Advance S ctl ctl') (hk : Heard k ctl) : Heard k ctl' := by
  cases h with
  | rest he => rwa [he]
  | noted j hl hl' hn =>
    right
    rcases hk with hs | hbit
    · exact absurd hl.state hs
    · rw [hn.lcMark, hbit, Bool.true_or]
  | closed _ hg => left; rw [hg.state]; decide
  | got _ _ _ hg => left; rw [hg.state]; decide
  | completed hs => left; rw [hs]; decide

theorem Advance.past (h : Advance S ctl ctl') (hs : ctl.state ≠ .searchChan) : ctl'.state ≠ .searchChan := by
  cases h with
  | rest he => rwa [he]
  | noted _ hl => exact absurd hl.state hs
  | closed hl => exact absurd hl.state hs
  | got _ _ _ hg => rw [hg.state]; decide
  | completed hs => rw [hs]; decide

theorem Advance.keeps_got (h : Advance S ctl ctl') (hi : Got i ctl) : Got i ctl' := by
  cases h with
  | rest he => rwa [he]
  | noted _ hl => rcases hi with hi | ⟨hi, -⟩ <;> · rw [hl.state] at hi; contradiction
  | closed hl => rcases hi with hi | ⟨hi, -⟩ <;> · rw [hl.state] at hi; contradiction
  | got seen j hg hg' =>
    rcases hi with hi | ⟨-, hi⟩
    · rw [hg.state] at hi
      contradiction
    · refine .inr ⟨hg'.state, (hg'.pktMark i).mpr (Finset.mem_insert_of_mem ((hg.pktMark i).mp hi))⟩
  | completed hs => exact .inl hs

theorem Sender.Sends.size {f : Frame} (hf : S.Sends f) : ieee80211FrameSize ≤ f.len := by
  cases hf with
  | lead _ hlen => exact hlen
  | data _ hlen => exact hlen

theorem Stage.lead_heard (h : Stage S ctl) (hlen : ieee80211FrameSize ≤ len) (k : Fin 4) :
    Heard k (snifferCallback ctl ⟨len, S.leadFrame k⟩) := by
  cases h with
  | leading h =>
    by_cases hm : AllMarks ctl.leadCode
    · left
      rw [(h.lead_full hm hlen k).state]
      decide
    · right
      rw [(h.lead_noted hm hlen k).2.lcMark, decide_eq_true rfl, Bool.or_true]
  | gathering _ h =>
    left
    rw [h.lead hlen, h.state]
    decide
  | done hs =>
    left
    rw [snifferCallback, if_pos hs, hs]
    decide

theorem Stage.lead_closes (h : Stage S ctl) (hlen : ieee80211FrameSize ≤ len) (hall : ∀ j, Heard j ctl) (k : Fin 4) :
    (snifferCallback ctl ⟨len, S.leadFrame k⟩).state ≠ .searchChan := by
  cases h with
  | leading h =>
    have hm : AllMarks ctl.leadCode := fun j => (hall j).resolve_left (not_not.mpr h.state)
    rw [(h.lead_full hm hlen k).state]
    decide
  | gathering _ h =>
    rw [h.lead hlen, h.state]
    decide
  | done hs =>
    rw [snifferCallback, if_pos hs, hs]
    decide

theorem Stage.data_got (h : Stage S ctl) (hlen : ieee80211FrameSize ≤ len) (hs : ctl.state ≠ .searchChan)
    (hi : i < S.frames) : Got i (snifferCallback ctl ⟨len, S.dataFrame i⟩) := by
  cases h with
  | leading h => exact absurd h.state hs
  | gathering _ h =>
    rcases h.data hlen hi with ⟨-, hg⟩ | ⟨hc, -⟩
    · exact .inr ⟨hg.state, (hg.pktMark i).mpr (Finset.mem_insert_self _ _)⟩
    · exact .inl hc
  | done hc =>
    rw [snifferCallback, if_pos hc]
    exact .inl hc

/-- A property that every frame keeps and one of the frames brings about. -/
theorem Stage.sniff_reaches {P : Ctl → Prop} {frames : List Frame} (h : Stage S ctl) (hf : ∀ f ∈ frames, S.Sends f)
    (hkeep : ∀ c f, Stage S c → S.Sends f → P c → P (snifferCallback c f)) {Q : Ctl → Prop}
    (hQ : ∀ c f, Stage S c → S.Sends f → Q c → Q (snifferCallback c f)) {f : Frame} (hmem : f ∈ frames)
    (hit : ∀ c, Stage S c → Q c → P (snifferCallback c f)) (hq : Q ctl) : P (SmartCfg.sniff ctl frames) := by
  have hrun : ∀ (l : List Frame) (c : Ctl), Stage S c → (∀ x ∈ l, S.Sends x) → P c → P (SmartCfg.sniff c l) := by
    intro l
    induction l with
    | nil => exact fun c _ _ hp => hp
    | cons x l ih =>
      intro c hc hl hp
      have hx := hl x (by simp)
      exact ih _ (hc.step hx) (fun y hy => hl y (by simp [hy])) (hkeep c x hc hx hp)
  induction frames generalizing ctl with
  | nil => simp at hmem
  | cons x frames ih =>
    have hx := hf x (by simp)
    have hrest : ∀ y ∈ frames, S.Sends y := fun y hy => hf y (by simp [hy])
    rcases List.mem_cons.mp hmem with rfl | hmem
    · exact hrun frames _ (h.step hx) hrest (hit ctl h hq)
    · exact ih (h.step hx) hrest hmem (hQ ctl x h hx hq)

/-- The four lead codes, a further one and then all data frames complete the transfer. -/
theorem Stage.completes {before after : List Frame} {last : Frame} (h : Stage S ctl)
    (hf : ∀ f ∈ before ++ last :: after, S.Sends f) (hlead : ∀ k, ∃ f ∈ before, f.addr3 = S.leadFrame k)
    (hlast : ∃ k, last.addr3 = S.leadFrame k) (hdata : ∀ i < S.frames, ∃ f ∈ after, f.addr3 = S.dataFrame i) :
    (SmartCfg.sniff ctl (before ++ last :: after)).state = .complete := by
  have hbefore : ∀ f ∈ before, S.Sends f := fun f hm => hf f (by simp [hm])
  have hafter : ∀ f ∈ after, S.Sends f := fun f hm => hf f (by simp [hm])
  have hsend : S.Sends last := hf last (by simp)
  have hheard : ∀ k, Heard k (SmartCfg.sniff ctl before) := by
    intro k
    obtain ⟨⟨len, addr⟩, hmem, rfl⟩ := hlead k
    exact h.sniff_reaches (P := Heard k) (Q := fun _ => True) hbefore (fun c f hc hs hp => (hc.advance hs).heard hp)
      (fun _ _ _ _ _ => trivial) hmem (fun c hc _ => hc.lead_heard (hbefore _ hmem).size k) trivial
  have hst := h.sniff hbefore
  have hclosed : (snifferCallback (SmartCfg.sniff ctl before) last).state ≠ .searchChan := by
    obtain ⟨len, addr⟩ := last
    obtain ⟨k, rfl⟩ := hlast
    exact hst.lead_closes hsend.size hheard k
  have hgot : ∀ i < S.frames, Got i (SmartCfg.sniff (snifferCallback (SmartCfg.sniff ctl before) last) after) := by
    intro i hi
    obtain ⟨⟨len, addr⟩, hmem, rfl⟩ := hdata i hi
    exact (hst.step hsend).sniff_reaches (P := Got i) (Q := fun c => c.state ≠ .searchChan) hafter
      (fun c f hc hs hp => (hc.advance hs).keeps_got hp) (fun c f hc hs hq => (hc.advance hs).past hq) hmem
      (fun c hc hq => hc.data_got (hafter _ hmem).size hq hi) hclosed
  have hend := (hst.step hsend).sniff hafter
  have hsplit : SmartCfg.sniff ctl (before ++ last :: after) =
      SmartCfg.sniff (snifferCallback (SmartCfg.sniff ctl before) last) after := by
    simp only [SmartCfg.sniff, List.foldl_append, List.foldl_cons]
  rw [hsplit]
  generalize SmartCfg.sniff (snifferCallback (SmartCfg.sniff ctl before) last) after = c at hgot hend
  cases hend with
  | leading hl =>
    rcases hgot 0 (Nat.succ_pos _) with hg | ⟨hg, -⟩ <;> · rw [hl.state] at hg; contradiction
  | gathering seen hg hlt =>
    -- every frame is marked, so none is missing
    have hsub : Finset.range S.frames ⊆ seen := by
      intro i hi
      rcases hgot i (Finset.mem_range.mp hi) with hc | ⟨-, hm⟩
      · rw [hg.state] at hc
        contradiction
      · exact (hg.pktMark i).mp hm
    have hcard := Finset.card_le_card hsub
    rw [Finset.card_range] at hcard
    omega
  | done hs => exact hs

/-- Whichever frames of a sender are heard, a complete transfer delivers what was sent; and the
four lead codes, one more of them and after it all data frames complete it. -/
theorem smartconfig_transfer (S : Sender) (channelMap : UInt16) (scRandom : UInt8) (frames : List Frame)
    (hf : ∀ f ∈ frames, S.Sends f) :
    ((sniff (smartconfigStart channelMap scRandom) frames).state = .complete →
      Delivered S (sniff (smartconfigStart channelMap scRandom) frames).result) ∧
    ∀ before last after, frames = before ++ last :: after → (∀ k, ∃ f ∈ before, f.addr3 = S.leadFrame k) →
      (∃ k, last.addr3 = S.leadFrame k) → (∀ i < S.frames, ∃ f ∈ after, f.addr3 = S.dataFrame i) →
      (sniff (smartconfigStart channelMap scRandom) frames).state = .complete := by
  have hstart := stage_smartconfigStart S channelMap scRandom
  constructor
  · intro hc
    cases hstart.sniff hf with
    | leading h => rw [h.state] at hc; contradiction
    | gathering _ h => rw [h.state] at hc; contradiction
    | done _ hd => exact hd
  · rintro before last after rfl hlead hlast hdata
    exact hstart.completes hf hlead hlast hdata

/-- A network without password. -/
def openNetwork : Sender := ⟨[76, 78], [], 6, 7, 0, by decide, by decide, by decide⟩

/-- The lead codes in order, the first one again, and the data frames out of order. -/
def openNetworkFrames : List Frame :=
  (List.finRange 4).map (fun k => ⟨24, openNetwork.leadFrame k⟩) ++ ⟨24, openNetwork.leadFrame 0⟩ ::
    [1, 0, 1].map fun i => ⟨24, openNetwork.dataFrame i⟩

theorem smartconfig_transfer_open :
    (sniff (smartconfigStart 0x3FFE 0) openNetworkFrames).state = .complete ∧
      Delivered openNetwork (sniff (smartconfigStart 0x3FFE 0) openNetworkFrames).result := by
  have hf : ∀ f ∈ openNetworkFrames, openNetwork.Sends f := by
    intro f hm
    rw [openNetworkFrames, List.mem_append, List.mem_cons, List.mem_map, List.mem_map] at hm
    rcases hm with ⟨k, -, rfl⟩ | rfl | ⟨i, hi, rfl⟩
    · exact .lead k (Nat.le_refl _)
    · exact .lead 0 (Nat.le_refl _)
    · refine .data ?_ (Nat.le_refl _)
      have hall : ∀ i ∈ [1, 0, 1], i < openNetwork.frames := by decide
      exact hall i hi
  have h := smartconfig_transfer openNetwork 0x3FFE 0 openNetworkFrames hf
  have hc := h.2 _ _ _ rfl (fun k => ⟨_, List.mem_map_of_mem (List.mem_finRange k), rfl⟩) ⟨0, rfl⟩ (by
    intro i hi
    have hmem : i ∈ [1, 0, 1] := by
      simp only [Sender.frames, Sender.total, openNetwork, List.length_cons, List.length_nil] at hi
      simp only [List.mem_cons, List.not_mem_nil, or_false]
      omega
    exact ⟨_, List.mem_map_of_mem hmem, rfl⟩)
  exact ⟨hc, h.1 hc⟩

end Ln882x.SmartCfg
