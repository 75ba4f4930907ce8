import Ln882x.Crc.Reflected
import Mathlib.Data.Nat.Digits.Defs

/-! Bursts of wrong bits under a reflected check. A shift loses nothing when the
polynomial has its top bit, so registers that differ stay different. As many bits as
the register is wide are all in the register before the first of them has left it, so
two messages that differ, but only within such a window, leave different remainders. -/

namespace Ln882x.Crc

/-- Two messages of one length that differ, but only within `n` places in a row. -/
structure Burst {α : Type*} (n : ℕ) (x y : List α) : Prop where
  ne : x ≠ y
  length : x.length = y.length
  window : ∃ a, ∀ i, x[i]? ≠ y[i]? → a ≤ i ∧ i < a + n

/-- The bits of a byte in the order in which they are sent. -/
def byteBits (b : BitVec 8) : List Bool := (List.range 8).map b.getLsbD

def bits (bytes : List (BitVec 8)) : List Bool := bytes.flatMap byteBits

/-- The number with the given bits, the first the lowest. -/
def value (bs : List Bool) : ℕ := Nat.ofDigits 2 (bs.map Bool.toNat)

section Windows
variable {α : Type*} {n : ℕ} {x y x' y' : List α}

/-- The window, and what is the same on both of its sides. -/
theorem Burst.split (h : Burst n x y) : ∃ before mid mid' after, x = before ++ (mid ++ after) ∧
    y = before ++ (mid' ++ after) ∧ mid.length = mid'.length ∧ mid.length ≤ n ∧ mid ≠ mid' := by
  obtain ⟨a, hwin⟩ := h.window
  have hbefore : x.take a = y.take a := by
    apply List.ext_getElem?
    intro i
    by_contra hne
    by_cases hi : i < a
    · rw [List.getElem?_take_of_lt hi, List.getElem?_take_of_lt hi] at hne
      exact absurd (hwin i hne).1 (by omega)
    · simp [hi] at hne
  have hafter : (x.drop a).drop n = (y.drop a).drop n := by
    apply List.ext_getElem?
    intro i
    by_contra hne
    simp only [List.getElem?_drop] at hne
    exact absurd (hwin _ hne).2 (by omega)
  have hx : x = x.take a ++ ((x.drop a).take n ++ (x.drop a).drop n) := by
    rw [List.take_append_drop, List.take_append_drop]
  have hy : y = x.take a ++ ((y.drop a).take n ++ (x.drop a).drop n) := by
    rw [hbefore, hafter, List.take_append_drop, List.take_append_drop]
  refine ⟨x.take a, (x.drop a).take n, (y.drop a).take n, (x.drop a).drop n, hx, hy, ?_, ?_, ?_⟩
  · simp [h.length]
  · exact List.length_take_le _ _
  · intro hmid
    rw [hmid] at hx
    exact h.ne (hx.trans hy.symm)

theorem Burst.between {before mid mid' after : List α} (hlen : mid.length = mid'.length) (hmid : mid.length ≤ n) (hne : mid ≠ mid') :
    Burst n (before ++ (mid ++ after)) (before ++ (mid' ++ after)) := by
  refine ⟨?_, by simp [hlen], before.length, ?_⟩
  · intro heq
    exact hne (List.append_cancel_right (List.append_cancel_left heq))
  · intro i hi
    by_contra hout
    apply hi
    by_cases hbefore : i < before.length
    · rw [List.getElem?_append_left hbefore, List.getElem?_append_left hbefore]
    · rw [List.getElem?_append_right (by omega), List.getElem?_append_right (by omega), List.getElem?_append_right (by omega),
        List.getElem?_append_right (by omega), hlen]

theorem Burst.map {β : Type*} {g : α → β} (hg : Function.Injective g) (h : Burst n x y) : Burst n (x.map g) (y.map g) := by
  obtain ⟨a, hwin⟩ := h.window
  refine ⟨?_, by simp [h.length], a, ?_⟩
  · intro heq
    exact h.ne ((List.map_inj_right hg).mp heq)
  · intro i hi
    apply hwin
    intro heq
    simp [heq] at hi

/-- A burst in two parts put together shows in the first, or else all of it is in the second. -/
theorem Burst.append (h : Burst n (x ++ x') (y ++ y')) (hlen : x.length = y.length) :
    Burst n x y ∨ x = y ∧ Burst n x' y' := by
  obtain ⟨a, hwin⟩ := h.window
  have hlen' := h.length
  simp only [List.length_append] at hlen'
  by_cases heq : x = y
  · subst heq
    refine .inr ⟨rfl, ?_, by omega, a - x.length, ?_⟩
    · rintro rfl
      exact h.ne rfl
    · intro i hi
      have hat := hwin (x.length + i)
      rw [List.getElem?_append_right (by omega), List.getElem?_append_right (by omega), Nat.add_sub_cancel_left] at hat
      have := hat hi
      omega
  · refine .inl ⟨heq, hlen, a, ?_⟩
    intro i hi
    by_cases hlt : i < x.length
    · apply hwin
      rwa [List.getElem?_append_left hlt, List.getElem?_append_left (hlen ▸ hlt)]
    · simp [List.getElem?_eq_none (Nat.le_of_not_lt hlt), List.getElem?_eq_none (hlen ▸ Nat.le_of_not_lt hlt)] at hi

end Windows

/-! ### Numbers and their bits -/

@[simp] theorem length_byteBits (b : BitVec 8) : (byteBits b).length = 8 := by simp [byteBits]

@[simp] theorem bits_nil : bits [] = [] := rfl

@[simp] theorem bits_cons (b : BitVec 8) (bytes : List (BitVec 8)) : bits (b :: bytes) = byteBits b ++ bits bytes := rfl

@[simp] theorem bits_append (x y : List (BitVec 8)) : bits (x ++ y) = bits x ++ bits y := by simp [bits]

@[simp] theorem length_bits (bytes : List (BitVec 8)) : (bits bytes).length = 8 * bytes.length := by
  induction bytes with
  | nil => rfl
  | cons b bytes ih => simp [ih]; omega

@[simp] theorem value_nil : value [] = 0 := rfl

theorem value_cons (b : Bool) (bs : List Bool) : value (b :: bs) = b.toNat + 2 * value bs := by
  simp [value, Nat.ofDigits_cons]

theorem value_append (x y : List Bool) : value (x ++ y) = value x + 2 ^ x.length * value y := by
  simp [value, Nat.ofDigits_append]

theorem value_lt (bs : List Bool) : value bs < 2 ^ bs.length := by
  induction bs with
  | nil => simp
  | cons b bs ih =>
    have hb := b.toNat_lt
    simp only [value_cons, List.length_cons, Nat.pow_succ]
    omega

theorem value_inj {x y : List Bool} (hlen : x.length = y.length) (h : value x = value y) : x = y := by
  induction x generalizing y with
  | nil => exact (List.length_eq_zero_iff.mp hlen.symm).symm
  | cons b x ih =>
    cases y with
    | nil => cases hlen
    | cons c y =>
      have hb := b.toNat_lt
      have hc := c.toNat_lt
      simp only [value_cons] at h
      have hbc : b = c := by
        cases b <;> cases c <;> simp at h ⊢ <;> omega
      rw [hbc, ih (Nat.succ.inj hlen) (by omega)]

theorem value_byteBits (b : BitVec 8) : value (byteBits b) = b.toNat := by
  revert b
  decide +kernel

theorem bits_inj {x y : List (BitVec 8)} (hlen : x.length = y.length) (h : bits x = bits y) : x = y := by
  induction x generalizing y with
  | nil => exact (List.length_eq_zero_iff.mp hlen.symm).symm
  | cons b x ih =>
    cases y with
    | nil => cases hlen
    | cons c y =>
      obtain ⟨hhead, htail⟩ := List.append_inj h (by simp)
      have hbyte : b.toNat = c.toNat := by rw [← value_byteBits, hhead, value_byteBits]
      rw [BitVec.eq_of_toNat_eq hbyte, ih (Nat.succ.inj hlen) htail]

/-- A burst of bytes is one of eight times as many bits. -/
theorem Burst.ofBytes {n : ℕ} {x y : List (BitVec 8)} (h : Burst n x y) : Burst (8 * n) (bits x) (bits y) := by
  obtain ⟨before, mid, mid', after, rfl, rfl, hlen, hmid, hne⟩ := h.split
  simp only [bits_append]
  apply Burst.between
  · simp [hlen]
  · rw [length_bits]
    omega
  · intro heq
    exact hne (bits_inj hlen heq)

/-! ### Registers -/

variable {w : ℕ} (poly : BitVec w)

/-- The message bit by bit. -/
def feed (r : BitVec w) (bs : List Bool) : BitVec w := bs.foldl (fun r b => shiftBit poly (r ^^^ BitVec.ofNat w b.toNat)) r

theorem feed_append (r : BitVec w) (x y : List Bool) : feed poly r (x ++ y) = feed poly (feed poly r x) y := List.foldl_append

theorem shiftBit_shiftLeft {x : ℕ} (h : 2 * x < 2 ^ w) : shiftBit poly (BitVec.ofNat w (2 * x)) = BitVec.ofNat w x := by
  have hlow : (BitVec.ofNat w (2 * x)).getLsbD 0 = false := by
    rw [BitVec.getLsbD_ofNat, Nat.testBit_zero, Nat.mul_mod_right]
    simp
  rw [shiftBit, hlow, if_neg Bool.false_ne_true]
  apply BitVec.eq_of_toNat_eq
  rw [BitVec.toNat_ushiftRight, BitVec.toNat_ofNat, BitVec.toNat_ofNat, Nat.mod_eq_of_lt h, Nat.mod_eq_of_lt (by omega),
    Nat.shiftRight_eq_div_pow]
  omega

theorem ofNat_bit {x : ℕ} (b : Bool) :
    BitVec.ofNat w (b.toNat + 2 * x) = BitVec.ofNat w b.toNat ^^^ BitVec.ofNat w (2 * x) := by
  have hxor : b.toNat + 2 * x = b.toNat ^^^ (2 * x) := by
    apply Nat.eq_of_testBit_eq
    intro i
    rw [Nat.testBit_xor]
    cases i with
    | zero => cases b <;> simp [Nat.testBit_zero]
    | succ i =>
      have hlt := b.toNat_lt
      have hhalf : (b.toNat + 2 * x) / 2 = x := by omega
      have hb : b.toNat / 2 = 0 := Nat.div_eq_of_lt b.toNat_lt
      rw [Nat.testBit_succ, Nat.testBit_succ, Nat.testBit_succ, hhalf, hb]
      simp
  rw [hxor, BitVec.ofNat_xor]

/-- Bits that all fit the register may be added to it first and shifted afterwards. -/
theorem feed_eq (r : BitVec w) (bs : List Bool) (h : bs.length ≤ w) :
    feed poly r bs = shiftBits poly bs.length (r ^^^ BitVec.ofNat w (value bs)) := by
  induction bs generalizing r with
  | nil => simp [feed, shiftBits]
  | cons b bs ih =>
    have hlen : bs.length + 1 ≤ w := h
    have hfit : 2 * value bs < 2 ^ w := by
      have hlt := value_lt bs
      have hpow := Nat.pow_le_pow_right Nat.two_pos hlen
      rw [Nat.pow_succ] at hpow
      omega
    have hstep : shiftBit poly (r ^^^ BitVec.ofNat w (value (b :: bs))) =
        shiftBit poly (r ^^^ BitVec.ofNat w b.toNat) ^^^ BitVec.ofNat w (value bs) := by
      rw [value_cons, ofNat_bit, ← BitVec.xor_assoc, shiftBit_xor, shiftBit_shiftLeft poly hfit]
    rw [List.length_cons, shiftBits, hstep, ← ih _ (by omega)]
    rfl

theorem serialByte_feed (hw : 8 ≤ w) (r : BitVec w) (b : BitVec 8) : serialByte poly r b = feed poly r (byteBits b) := by
  have hb : BitVec.ofNat w (value (byteBits b)) = b.setWidth w := by
    rw [value_byteBits, BitVec.ofNat_toNat]
  rw [feed_eq poly r _ (by simpa using hw), hb, length_byteBits, serialByte]

theorem serial_feed (hw : 8 ≤ w) (r : BitVec w) (bytes : List (BitVec 8)) : serial poly r bytes = feed poly r (bits bytes) := by
  induction bytes generalizing r with
  | nil => rfl
  | cons b bytes ih =>
    show serial poly (serialByte poly r b) bytes = _
    rw [ih, serialByte_feed poly hw, bits_cons, feed_append]

section Injective
variable {poly} (hpoly : poly.msb = true)

include hpoly

/-- The top bit of a shifted register is the bit that left it. -/
theorem shiftBit_inj {r s : BitVec w} (h : shiftBit poly r = shiftBit poly s) : r = s := by
  have hxor : shiftBit poly (r ^^^ s) = 0#w := by rw [shiftBit_xor, h, BitVec.xor_self]
  have hzero : r ^^^ s = 0#w := by
    generalize r ^^^ s = d at hxor
    unfold shiftBit at hxor
    have hmsb : (d >>> 1).msb = false := by simp [BitVec.msb_ushiftRight]
    cases hlow : d.getLsbD 0 with
    | true =>
      rw [hlow, if_pos rfl] at hxor
      have htop := congrArg BitVec.msb hxor
      rw [BitVec.msb_xor, hmsb, hpoly, BitVec.msb_zero] at htop
      cases htop
    | false =>
      rw [hlow, if_neg Bool.false_ne_true] at hxor
      apply BitVec.eq_of_getLsbD_eq
      intro i hi
      cases i with
      | zero => simp [hlow]
      | succ i =>
        have hat := congrArg (BitVec.getLsbD · i) hxor
        rw [BitVec.getLsbD_ushiftRight, Nat.add_comm] at hat
        simpa using hat
  exact BitVec.xor_eq_zero_iff.mp hzero

theorem shiftBits_inj {n : ℕ} {r s : BitVec w} (h : shiftBits poly n r = shiftBits poly n s) : r = s := by
  induction n generalizing r s with
  | zero => exact h
  | succ n ih => exact shiftBit_inj hpoly (ih h)

theorem feed_inj {r s : BitVec w} {bs : List Bool} (h : feed poly r bs = feed poly s bs) : r = s := by
  induction bs generalizing r s with
  | nil => exact h
  | cons b bs ih =>
    have hbit := shiftBit_inj hpoly (ih h)
    exact (BitVec.xor_left_inj _).mp hbit

/-- Messages that differ in no more places than the register has bits. -/
theorem feed_short {r : BitVec w} {x y : List Bool} (hlen : x.length = y.length) (hx : x.length ≤ w) (h : feed poly r x = feed poly r y) :
    x = y := by
  rw [feed_eq poly r x hx, feed_eq poly r y (hlen ▸ hx), hlen] at h
  have hword := congrArg BitVec.toNat ((BitVec.xor_right_inj r).mp (shiftBits_inj hpoly h))
  have hxw := value_lt x
  have hyw := value_lt y
  have hpow := Nat.pow_le_pow_right Nat.two_pos hx
  rw [hlen] at hxw hpow
  rw [BitVec.toNat_ofNat, BitVec.toNat_ofNat, Nat.mod_eq_of_lt (by omega), Nat.mod_eq_of_lt (by omega)] at hword
  exact value_inj hlen hword

/-- A burst no longer than the register is wide changes the remainder. -/
theorem serial_burst (hw : 8 ≤ w) {r : BitVec w} {x y : List (BitVec 8)} (h : Burst w (bits x) (bits y)) :
    serial poly r x ≠ serial poly r y := by
  obtain ⟨before, mid, mid', after, hx, hy, hlen, hmid, hne⟩ := h.split
  rw [serial_feed poly hw, serial_feed poly hw, hx, hy, feed_append, feed_append, feed_append poly r, feed_append]
  intro heq
  exact hne (feed_short hpoly hlen hmid (feed_inj hpoly heq))

end Injective

/-- What a record whose last bytes hold a number leaves: the number is added to the remainder of
the bytes before it, and their sum is shifted out. -/
theorem serial_tail (hw : 8 ≤ w) (r : BitVec w) (x tail : List (BitVec 8)) (htail : 8 * tail.length ≤ w) :
    serial poly r (x ++ tail) =
      shiftBits poly (8 * tail.length) (serial poly r x ^^^ BitVec.ofNat w (value (bits tail))) := by
  rw [serial_feed poly hw, serial_feed poly hw, bits_append, feed_append, feed_eq poly _ _ (by simpa using htail), length_bits]

/-! ### Differences -/

theorem shiftBits_add (m n : ℕ) (r : BitVec w) : shiftBits poly (m + n) r = shiftBits poly n (shiftBits poly m r) := by
  induction m generalizing r with
  | zero => rw [Nat.zero_add, shiftBits]
  | succ m ih => rw [Nat.succ_add, shiftBits, shiftBits, ih]

theorem serialByte_xor (r s : BitVec w) (b c : BitVec 8) :
    serialByte poly r b ^^^ serialByte poly s c = shiftBits poly 8 ((r ^^^ s) ^^^ (b ^^^ c).setWidth w) := by
  rw [serialByte, serialByte, ← shiftBits_xor, BitVec.setWidth_xor]
  congr 1
  ac_rfl

/-- What two registers differ in is shifted on by the bytes that follow, whatever these are. -/
theorem serial_xor (r s : BitVec w) (bytes : List (BitVec 8)) :
    serial poly r bytes ^^^ serial poly s bytes = shiftBits poly (8 * bytes.length) (r ^^^ s) := by
  induction bytes generalizing r s with
  | nil => rfl
  | cons b bytes ih =>
    have hlen : 8 * (b :: bytes).length = 8 + 8 * bytes.length := by simp; omega
    show serial poly (serialByte poly r b) bytes ^^^ serial poly (serialByte poly s b) bytes = _
    rw [ih, serialByte_xor, BitVec.xor_self, hlen, shiftBits_add]
    simp

/-- Messages that differ in one byte. -/
theorem serial_byte_xor (r : BitVec w) (before after : List (BitVec 8)) (b c : BitVec 8) :
    serial poly r (before ++ b :: after) ^^^ serial poly r (before ++ c :: after) =
      shiftBits poly (8 * (after.length + 1)) ((b ^^^ c).setWidth w) := by
  have hsplit (d : BitVec 8) : serial poly r (before ++ d :: after) = serial poly (serialByte poly (serial poly r before) d) after :=
    List.foldl_append
  have hlen : 8 * (after.length + 1) = 8 + 8 * after.length := by omega
  rw [hsplit, hsplit, serial_xor, serialByte_xor, BitVec.xor_self, BitVec.zero_xor, hlen, shiftBits_add]

end Ln882x.Crc
