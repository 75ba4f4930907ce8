import Ln882x.Crc.Burst
import Ln882x.SmartCfg.Receiver

/-! What the checksum of SmartConfig lets through. `cal_crc8` shifts to the right, but
its constant is the polynomial of the shift to the left, so its top bit is clear and a
shift can lose a difference. A wrong byte of the name or the password passes for
exactly three differences, wherever it is. -/

namespace Ln882x.SmartCfg

variable {ctl : Ctl}

/-- The differences of a byte that eight shifts lose. -/
def lostDifferences : List UInt8 := [0, 0x63, 0xA5, 0xC6]

/-! ### The register -/

theorem crc8Shift_toBitVec (crc : UInt8) : (crc8Shift crc).toBitVec = Crc.shiftBit crc8Poly.toBitVec crc.toBitVec := by
  have hcast : ∀ v : BitVec 8, (crc8Shift ⟨v⟩).toBitVec = Crc.shiftBit crc8Poly.toBitVec v := by decide +kernel
  exact hcast crc.toBitVec

theorem crc8Shift_iterate (n : ℕ) (crc : UInt8) :
    (crc8Shift^[n] crc).toBitVec = Crc.shiftBits crc8Poly.toBitVec n crc.toBitVec := by
  induction n generalizing crc with
  | zero => rfl
  | succ n ih => rw [Function.iterate_succ_apply, ih, crc8Shift_toBitVec, Crc.shiftBits]

theorem calCrc8_serial (input : List UInt8) :
    (calCrc8 input).toBitVec = Crc.serial crc8Poly.toBitVec 0#8 (input.map UInt8.toBitVec) := by
  have hloop (crc : UInt8) : (input.foldl (fun crc b => crc8Shift^[8] (crc ^^^ b)) crc).toBitVec =
      Crc.serial crc8Poly.toBitVec crc.toBitVec (input.map UInt8.toBitVec) := by
    induction input generalizing crc with
    | nil => rfl
    | cons b input ih =>
      rw [List.foldl_cons, ih, crc8Shift_iterate, UInt8.toBitVec_xor]
      simp [Crc.serial, Crc.serialByte]
  exact hloop 0

theorem shiftBits_crc8_eight : ∀ d : BitVec 8, Crc.shiftBits crc8Poly.toBitVec 8 d = 0#8 ↔ ⟨d⟩ ∈ lostDifferences := by
  decide +kernel

theorem shiftBits_crc8_sixteen : ∀ d : BitVec 8,
    Crc.shiftBits crc8Poly.toBitVec 8 (Crc.shiftBits crc8Poly.toBitVec 8 d) = 0#8 → Crc.shiftBits crc8Poly.toBitVec 8 d = 0#8 := by
  decide +kernel

/-- A difference that outlives one byte outlives all of them. -/
theorem shiftBits_crc8_zero (n : ℕ) (d : BitVec 8) :
    Crc.shiftBits crc8Poly.toBitVec (8 * (n + 1)) d = 0#8 ↔ ⟨d⟩ ∈ lostDifferences := by
  induction n generalizing d with
  | zero => exact shiftBits_crc8_eight d
  | succ n ih =>
    have hlen : 8 * (n + 1 + 1) = 8 + 8 * (n + 1) := by omega
    rw [hlen, Crc.shiftBits_add, ih, ← shiftBits_crc8_eight, ← shiftBits_crc8_eight]
    constructor
    · exact shiftBits_crc8_sixteen d
    · intro h
      rw [h]
      decide

theorem calCrc8_byte (before after : List UInt8) (b c : UInt8) :
    calCrc8 (before ++ b :: after) = calCrc8 (before ++ c :: after) ↔ b ^^^ c ∈ lostDifferences := by
  have hd : (⟨b.toBitVec ^^^ c.toBitVec⟩ : UInt8) = b ^^^ c := rfl
  rw [← UInt8.toBitVec_inj, ← BitVec.xor_eq_zero_iff, calCrc8_serial, calCrc8_serial]
  simp only [List.map_append, List.map_cons]
  rw [Crc.serial_byte_xor, BitVec.setWidth_eq, List.length_map, shiftBits_crc8_zero, hd]

theorem calCrc8_set {bs : List UInt8} {k : ℕ} (hk : k < bs.length) (v : UInt8) :
    calCrc8 bs = calCrc8 (bs.set k v) ↔ bs.getD k 0 ^^^ v ∈ lostDifferences := by
  have hsplit : bs = bs.take k ++ bs[k] :: bs.drop (k + 1) := by simp
  have hset : bs.set k v = bs.take k ++ v :: bs.drop (k + 1) := List.set_eq_take_append_cons_drop.trans (if_pos hk)
  have hat : bs.getD k 0 = bs[k] := by
    rw [List.getD_eq_getElem?_getD, List.getElem?_eq_getElem hk, Option.getD_some]
  rw [hset, hat]
  have h := calCrc8_byte (bs.take k) (bs.drop (k + 1)) bs[k] v
  rwa [← hsplit] at h

/-! ### Decoding -/

theorem take_memcpy {dst src : List UInt8} {n : ℕ} (h : src.length = n) (v : UInt8) :
    ((memcpy dst src).set n v).take n = src := by
  rw [List.take_set_of_le (Nat.le_refl n), memcpy, List.take_left' h]

/-- The lengths that the lead codes announce, once the receiver has accepted them. -/
structure Announced (ctl : Ctl) : Prop where
  buffer : ctl.recvbuff.length = scMaxSsidpwdLen
  pwd : ctl.leadCode.pwdLen ≤ 63
  ssid : ctl.leadCode.ssidpwdLen - ctl.leadCode.pwdLen ≤ 32

theorem Announced.ssid_toNat (h : Announced ctl) :
    ctl.leadCode.pwdLen.toNat + (ctl.leadCode.ssidpwdLen - ctl.leadCode.pwdLen).toNat = ctl.leadCode.ssidpwdLen.toNat ∧
      ctl.leadCode.ssidpwdLen.toNat ≤ 95 := by
  have hp : ctl.leadCode.pwdLen.toNat ≤ 63 := h.pwd
  have hs : (ctl.leadCode.ssidpwdLen - ctl.leadCode.pwdLen).toNat ≤ 32 := h.ssid
  have hlt := ctl.leadCode.ssidpwdLen.toNat_lt
  rw [UInt8.toNat_sub] at hs ⊢
  omega

/-- The verdict on a buffer: password and name, and a checksum of each. -/
theorem Announced.decode (h : Announced ctl) : (decode ctl).2 = true ↔
    ctl.recvbuff.getD (ctl.leadCode.ssidpwdLen.toNat + (ctl.leadCode.ssidpwdLen % 2).toNat) 0 =
        calCrc8 (ctl.recvbuff.take ctl.leadCode.pwdLen.toNat) ∧
      ctl.recvbuff.getD (ctl.leadCode.ssidpwdLen.toNat + (ctl.leadCode.ssidpwdLen % 2).toNat + 1) 0 =
        calCrc8 ((ctl.recvbuff.drop ctl.leadCode.pwdLen.toNat).take
          (ctl.leadCode.ssidpwdLen - ctl.leadCode.pwdLen).toNat) := by
  obtain ⟨hsum, hle⟩ := h.ssid_toNat
  have hbuf : ctl.recvbuff.length = 128 := h.buffer
  unfold SmartCfg.decode SmartCfg.decodeChecks SmartCfg.decodeResult
  simp only [Bool.and_eq_true, decide_eq_true_eq]
  rw [take_memcpy (by simp; omega), take_memcpy (by simp; omega)]

/-- A wrong byte in the name or the password of a buffer that decodes goes unnoticed for three
differences, and for no other. -/
theorem decode_damaged (h : Announced ctl) (hok : (decode ctl).2 = true) {k : ℕ} (hk : k < ctl.leadCode.ssidpwdLen.toNat) (v : UInt8) :
    (decode { ctl with recvbuff := ctl.recvbuff.set k v }).2 = true ↔ ctl.recvbuff.getD k 0 ^^^ v ∈ lostDifferences := by
  obtain ⟨hsum, hle⟩ := h.ssid_toNat
  have hbuf : ctl.recvbuff.length = 128 := h.buffer
  have hset : Announced { ctl with recvbuff := ctl.recvbuff.set k v } := ⟨by simp [h.buffer], h.pwd, h.ssid⟩
  obtain ⟨hpwd, hssid⟩ := h.decode.mp hok
  have hcheck (n : ℕ) : (ctl.recvbuff.set k v).getD (ctl.leadCode.ssidpwdLen.toNat + n) 0 =
      ctl.recvbuff.getD (ctl.leadCode.ssidpwdLen.toNat + n) 0 := by
    rw [List.getD_eq_getElem?_getD, List.getElem?_set_ne (by omega), List.getD_eq_getElem?_getD]
  rw [hset.decode]
  dsimp only
  rw [Nat.add_assoc, hcheck, hcheck, hpwd, ← Nat.add_assoc, hssid]
  by_cases hin : k < ctl.leadCode.pwdLen.toNat
  · have hrest : (ctl.recvbuff.set k v).drop ctl.leadCode.pwdLen.toNat = ctl.recvbuff.drop ctl.leadCode.pwdLen.toNat :=
      List.drop_set_of_lt hin
    have hat : (ctl.recvbuff.take ctl.leadCode.pwdLen.toNat).getD k 0 = ctl.recvbuff.getD k 0 := by
      rw [List.getD_eq_getElem?_getD, List.getElem?_take_of_lt hin, List.getD_eq_getElem?_getD]
    rw [hrest, List.take_set, calCrc8_set (by simp; omega), hat]
    exact and_iff_left rfl
  · have hfirst : (ctl.recvbuff.set k v).take ctl.leadCode.pwdLen.toNat = ctl.recvbuff.take ctl.leadCode.pwdLen.toNat :=
      List.take_set_of_le (Nat.le_of_not_lt hin)
    have hat : ((ctl.recvbuff.drop ctl.leadCode.pwdLen.toNat).take (ctl.leadCode.ssidpwdLen - ctl.leadCode.pwdLen).toNat).getD
        (k - ctl.leadCode.pwdLen.toNat) 0 = ctl.recvbuff.getD k 0 := by
      rw [List.getD_eq_getElem?_getD, List.getElem?_take_of_lt (by omega), List.getElem?_drop,
        Nat.add_sub_cancel' (Nat.le_of_not_lt hin), List.getD_eq_getElem?_getD]
    rw [hfirst, List.drop_set, if_neg hin, List.take_set, calCrc8_set (by simp; omega), hat]
    exact and_iff_right rfl

/-- A password of one byte: another byte with the same checksum. -/
def sampleCtl : Ctl :=
  { smartconfigStart 0 0 with
    recvbuff := 0x31 :: 0x41 :: calCrc8 [0x31] :: calCrc8 [0x41] :: zeros 124
    leadCode := { LeadCode.clear with ssidpwdLen := 2, pwdLen := 1 } }

theorem decode_damaged_password : (decode { sampleCtl with recvbuff := sampleCtl.recvbuff.set 0 (0x31 ^^^ 0x63) }).2 = true :=
  (@decode_damaged sampleCtl ⟨rfl, by decide, by decide⟩ (by decide +kernel) 0 (by decide) _).mpr (by decide)

end Ln882x.SmartCfg
