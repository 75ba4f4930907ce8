import Mathlib.Data.Nat.Log
import Ln882x.Ota.Accesses

/-! What a stream can make the LZMA decoder do. Between two bits the decoder has
its probabilities and its range, which the bits so far decide, and its code, which
the bytes of the stream decide. Whatever bit is to be decoded next, there is a
code below the range that decodes to it and leaves any code below the new range:
so a stream can be built backwards from its end, and every sequence of symbols is
the decoding of some stream. One of them fills the dictionary twice with literals
and then copies a byte from further back than the dictionary is long. -/

namespace Ln882x.Ota

open Nor

/-! ### The bits of a stream -/

/-- The bytes that are still to be read. -/
abbrev Tape := ℕ → UInt8

/-- A callback that hands out one byte at a time. -/
def nextByte (s : Tape) : ReadCall Tape := ⟨true, [s 0], fun n => s (n + 1)⟩

def Tape.cons (b : UInt8) (s : Tape) : Tape
  | 0 => b
  | n + 1 => s n

/-- The decoder's side of the state: probabilities away from 0 and 1, and a range that was
brought up. -/
structure Model where
  probs : ℕ → ℕ
  range : UInt32
  probs_ge : ∀ i, 31 ≤ probs i
  probs_le : ∀ i, probs i ≤ 2017
  range_ge : 2 ^ 24 ≤ range.toNat

def decoderAt (range code : UInt32) (s : Tape) : RangeDecoder Tape := ⟨[], range, code, true, false, s⟩

def Model.coder (m : Model) (code : UInt32) (s : Tape) : Coder Tape := ⟨m.probs, decoderAt m.range code s⟩

/-- From every model there is one to go to such that any code and tape there come from a code and
tape here, with the result `a` on the way. -/
def Steers {α : Type} (f : Coder Tape → α × Coder Tape) (a : α) : Prop :=
  ∀ m : Model, ∃ m' : Model, ∀ code' < m'.range, ∀ s', ∃ code < m.range, ∃ s, f (m.coder code s) = (a, m'.coder code' s')

theorem steers_pure {α : Type} (a : α) : Steers (fun c => (a, c)) a :=
  fun m => ⟨m, fun code' hcode s' => ⟨code', hcode, s', rfl⟩⟩

theorem Steers.bind {α β : Type} {f : Coder Tape → α × Coder Tape} {g : α → Coder Tape → β × Coder Tape} {a : α} {b : β}
    (hf : Steers f a) (hg : Steers (g a) b) : Steers (fun c => g (f c).1 (f c).2) b := by
  intro m
  obtain ⟨m₁, hm₁⟩ := hf m
  obtain ⟨m₂, hm₂⟩ := hg m₁
  refine ⟨m₂, fun code₂ hcode₂ s₂ => ?_⟩
  obtain ⟨code₁, hcode₁, s₁, h₁⟩ := hm₂ code₂ hcode₂ s₂
  obtain ⟨code, hcode, s, h⟩ := hm₁ code₁ hcode₁ s₁
  refine ⟨code, hcode, s, ?_⟩
  dsimp only
  rw [h]
  exact h₁

theorem shiftIn_split (c : UInt32) : (c >>> 8) <<< 8 ||| c.toUInt8.toUInt32 = c := by
  apply UInt32.toNat_inj.mp
  have hlow : c.toNat % 256 < 2 ^ 8 := Nat.mod_lt _ (by decide)
  have hc := c.toNat_lt
  rw [UInt32.toNat_or, UInt32.toNat_shiftLeft, UInt32.toNat_shiftRight, UInt8.toNat_toUInt32, UInt32.toNat_toUInt8]
  show (c.toNat >>> 8) <<< 8 % 2 ^ 32 ||| c.toNat % 256 = c.toNat
  have hhigh : (c.toNat >>> 8) <<< 8 % 2 ^ 32 = (c.toNat >>> 8) <<< 8 := by
    rw [Nat.shiftLeft_eq, Nat.shiftRight_eq_div_pow]
    omega
  rw [hhigh, ← Nat.shiftLeft_add_eq_or_of_lt hlow, Nat.shiftLeft_eq, Nat.shiftRight_eq_div_pow]
  omega

/-- Any code is that after a byte was shifted in. -/
theorem shiftInByte_cons (range code : UInt32) (s : Tape) :
    shiftInByte nextByte (decoderAt range (code >>> 8) (s.cons code.toUInt8)) = decoderAt range code s := by
  have h := shiftIn_split code
  show decoderAt range ((code >>> 8) <<< 8 ||| code.toUInt8.toUInt32) s = decoderAt range code s
  rw [h]

theorem normalize_steer {range : UInt32} (h : 2 ^ 16 ≤ range.toNat) :
    ∃ range' : UInt32, 2 ^ 24 ≤ range'.toNat ∧ ∀ code' < range', ∀ s', ∃ code < range, ∃ s,
      normalize nextByte (decoderAt range code s) = decoderAt range' code' s' := by
  by_cases hsmall : range < kTopValue
  · have hlt : range.toNat < 2 ^ 24 := UInt32.lt_iff_toNat_lt.mp hsmall
    have hshift : (range <<< 8).toNat = range.toNat * 2 ^ 8 := by
      rw [UInt32.toNat_shiftLeft]
      show range.toNat <<< 8 % 2 ^ 32 = range.toNat * 2 ^ 8
      rw [Nat.shiftLeft_eq]
      omega
    refine ⟨range <<< 8, by omega, fun code' hcode s' => ⟨code' >>> 8, ?_, s'.cons code'.toUInt8, ?_⟩⟩
    · rw [UInt32.lt_iff_toNat_lt] at hcode ⊢
      rw [UInt32.toNat_shiftRight]
      show code'.toNat >>> 8 < range.toNat
      rw [Nat.shiftRight_eq_div_pow]
      omega
    · have hin := shiftInByte_cons range code' s'
      unfold normalize
      rw [if_pos (show (decoderAt range (code' >>> 8) (s'.cons code'.toUInt8)).range < kTopValue from hsmall), hin]
      rfl
  · have hge : 2 ^ 24 ≤ range.toNat := by
      rw [UInt32.lt_iff_toNat_lt] at hsmall
      exact Nat.le_of_not_lt hsmall
    refine ⟨range, hge, fun code' hcode s' => ⟨code', hcode, s', ?_⟩⟩
    unfold normalize
    rw [if_neg (show ¬ (decoderAt range code' s').range < kTopValue from hsmall)]

/-- Both parts of the range have room for the next byte. -/
theorem Model.bound (m : Model) (i : ℕ) :
    ((m.range >>> 11) * UInt32.ofNat (m.probs i)).toNat + 2 ^ 16 ≤ m.range.toNat ∧
      2 ^ 16 ≤ ((m.range >>> 11) * UInt32.ofNat (m.probs i)).toNat := by
  have hge := m.probs_ge i
  have hle := m.probs_le i
  have hr := m.range_ge
  have hlt := m.range.toNat_lt
  have hnat : ((m.range >>> 11) * UInt32.ofNat (m.probs i)).toNat = m.range.toNat / 2048 * m.probs i := by
    rw [UInt32.toNat_mul, UInt32.toNat_shiftRight, toNat_ofNat_word (show m.probs i < 2 ^ 32 by omega)]
    show (m.range.toNat >>> 11) * m.probs i % 2 ^ 32 = m.range.toNat / 2048 * m.probs i
    rw [Nat.shiftRight_eq_div_pow, Nat.mod_eq_of_lt]
    calc m.range.toNat / 2 ^ 11 * m.probs i ≤ m.range.toNat / 2 ^ 11 * 2048 := Nat.mul_le_mul_left _ (by omega)
      _ < 2 ^ 32 := by omega
  have hlow : m.range.toNat / 2048 * 31 ≤ m.range.toNat / 2048 * m.probs i := Nat.mul_le_mul_left _ hge
  have hhigh : m.range.toNat / 2048 * m.probs i ≤ m.range.toNat / 2048 * 2017 := Nat.mul_le_mul_left _ hle
  rw [hnat]
  omega

/-- The model with the probability `i` adapted. -/
def Model.adapt (m : Model) (i prob : ℕ) (hge : 31 ≤ prob) (hle : prob ≤ 2017) {range : UInt32} (hr : 2 ^ 24 ≤ range.toNat) :
    Model where
  probs := Function.update m.probs i prob
  range := range
  probs_ge := by
    intro j
    by_cases hj : j = i
    · rw [hj, Function.update_self]
      exact hge
    · rw [Function.update_of_ne hj]
      exact m.probs_ge j
  probs_le := by
    intro j
    by_cases hj : j = i
    · rw [hj, Function.update_self]
      exact hle
    · rw [Function.update_of_ne hj]
      exact m.probs_le j
  range_ge := hr

theorem Model.bitDecode (m : Model) (i : ℕ) (code : UInt32) (s : Tape) :
    rangeDecoderBitDecode nextByte i (m.coder code s) =
      if code < (m.range >>> 11) * UInt32.ofNat (m.probs i) then
        (0, ⟨Function.update m.probs i (m.probs i + (kBitModelTotal - m.probs i) / 32),
          normalize nextByte (decoderAt ((m.range >>> 11) * UInt32.ofNat (m.probs i)) code s)⟩)
      else
        (1, ⟨Function.update m.probs i (m.probs i - m.probs i / 32),
          normalize nextByte (decoderAt (m.range - (m.range >>> 11) * UInt32.ofNat (m.probs i))
            (code - (m.range >>> 11) * UInt32.ofNat (m.probs i)) s)⟩) := rfl

theorem steers_zero (i : ℕ) : Steers (rangeDecoderBitDecode nextByte i) 0 := by
  intro m
  have hge := m.probs_ge i
  have hle := m.probs_le i
  obtain ⟨hhigh, hlow⟩ := m.bound i
  obtain ⟨range', hr', hback⟩ := normalize_steer hlow
  have htotal : kBitModelTotal = 2048 := rfl
  refine ⟨m.adapt i (m.probs i + (kBitModelTotal - m.probs i) / 32) (by omega) (by omega) hr', fun code' hcode s' => ?_⟩
  obtain ⟨code, hlt, s, hnorm⟩ := hback code' hcode s'
  refine ⟨code, ?_, s, ?_⟩
  · rw [UInt32.lt_iff_toNat_lt] at hlt ⊢
    omega
  · rw [m.bitDecode, if_pos hlt, hnorm]
    rfl

theorem steers_one (i : ℕ) : Steers (rangeDecoderBitDecode nextByte i) 1 := by
  intro m
  have hge := m.probs_ge i
  have hle := m.probs_le i
  obtain ⟨hhigh, hlow⟩ := m.bound i
  have hsub : (m.range - (m.range >>> 11) * UInt32.ofNat (m.probs i)).toNat =
      m.range.toNat - ((m.range >>> 11) * UInt32.ofNat (m.probs i)).toNat :=
    UInt32.toNat_sub_of_le _ _ (UInt32.le_iff_toNat_le.mpr (by omega))
  obtain ⟨range', hr', hback⟩ := normalize_steer (show 2 ^ 16 ≤ (m.range - (m.range >>> 11) * UInt32.ofNat (m.probs i)).toNat
    by omega)
  refine ⟨m.adapt i (m.probs i - m.probs i / 32) (by omega) (by omega) hr', fun code' hcode s' => ?_⟩
  obtain ⟨code, hlt, s, hnorm⟩ := hback code' hcode s'
  have hrange := m.range.toNat_lt
  rw [UInt32.lt_iff_toNat_lt, hsub] at hlt
  -- the code that lies as far above the bound as the next one has to be
  have hadd : (code + (m.range >>> 11) * UInt32.ofNat (m.probs i)).toNat =
      code.toNat + ((m.range >>> 11) * UInt32.ofNat (m.probs i)).toNat := by
    rw [UInt32.toNat_add, Nat.mod_eq_of_lt (by omega)]
  refine ⟨code + (m.range >>> 11) * UInt32.ofNat (m.probs i), ?_, s, ?_⟩
  · rw [UInt32.lt_iff_toNat_lt]
    omega
  · have hnot : ¬ code + (m.range >>> 11) * UInt32.ofNat (m.probs i) < (m.range >>> 11) * UInt32.ofNat (m.probs i) := by
      rw [UInt32.lt_iff_toNat_lt]
      omega
    have hcancel := UInt32.add_sub_cancel code ((m.range >>> 11) * UInt32.ofNat (m.probs i))
    rw [m.bitDecode, if_neg hnot, hcancel, hnorm]
    rfl

/-! ### The symbols of a stream -/

theorem steers_bitTreeLoop (probs n mi v : ℕ) (hv : v < 2 ^ n) : Steers (bitTreeLoop nextByte probs n mi) (mi * 2 ^ n + v) := by
  induction n generalizing mi v with
  | zero =>
    obtain rfl : v = 0 := by omega
    rw [pow_zero, mul_one, add_zero]
    exact steers_pure mi
  | succ n ih =>
    -- the first bit is the highest of the value
    rw [pow_succ] at hv ⊢
    by_cases hbit : v < 2 ^ n
    · have htail := ih (mi + mi + 0) v hbit
      rw [show (mi + mi + 0) * 2 ^ n + v = mi * (2 ^ n * 2) + v by ring] at htail
      exact (steers_zero (probs + mi)).bind (g := fun bit => bitTreeLoop nextByte probs n (mi + mi + bit)) htail
    · have htail := ih (mi + mi + 1) (v - 2 ^ n) (by omega)
      rw [show (mi + mi + 1) * 2 ^ n + (v - 2 ^ n) = mi * (2 ^ n * 2) + v by
        have hring : (mi + mi + 1) * 2 ^ n = mi * (2 ^ n * 2) + 2 ^ n := by ring
        omega] at htail
      exact (steers_one (probs + mi)).bind (g := fun bit => bitTreeLoop nextByte probs n (mi + mi + bit)) htail

theorem steers_bitTree (probs n v : ℕ) (hv : v < 2 ^ n) : Steers (rangeDecoderBitTreeDecode nextByte probs n) v := by
  intro m
  obtain ⟨m', hm'⟩ := steers_bitTreeLoop probs n 1 v hv m
  refine ⟨m', fun code' hcode s' => ?_⟩
  obtain ⟨code, hlt, s, heq⟩ := hm' code' hcode s'
  refine ⟨code, hlt, s, ?_⟩
  unfold rangeDecoderBitTreeDecode
  rw [heq, Nat.one_shiftLeft, one_mul]
  dsimp only
  rw [Nat.add_sub_cancel_left]

/-- A reverse tree whose bits are all 0. -/
theorem steers_reverseBitTree (probs n i mi symbol : ℕ) : Steers (reverseBitTreeLoop nextByte probs n i mi symbol) symbol := by
  induction n generalizing i mi with
  | zero => exact steers_pure symbol
  | succ n ih =>
    have htail : Steers (reverseBitTreeLoop nextByte probs n (i + 1) (mi + mi + 0) (symbol ||| 0 <<< i)) symbol := by
      rw [Nat.zero_shiftLeft, Nat.or_zero]
      exact ih (i + 1) (mi + mi + 0)
    exact (steers_zero (probs + mi)).bind
      (g := fun bit => reverseBitTreeLoop nextByte probs n (i + 1) (mi + mi + bit) (symbol ||| bit <<< i)) htail

/-- Direct bits that are all 0. -/
theorem steers_directBits (n : ℕ) :
    Steers (fun c => ((directBitsLoop nextByte n 0 c.rd).1, { c with rd := (directBitsLoop nextByte n 0 c.rd).2 })) 0 := by
  induction n with
  | zero => exact steers_pure 0
  | succ n ih =>
    intro m
    have hr := m.range_ge
    have hhalf : (m.range >>> 1).toNat = m.range.toNat / 2 := by
      rw [UInt32.toNat_shiftRight]
      rfl
    obtain ⟨range', hr', hback⟩ := normalize_steer (show 2 ^ 16 ≤ (m.range >>> 1).toNat by omega)
    obtain ⟨m', hm'⟩ := ih ⟨m.probs, range', m.probs_ge, m.probs_le, hr'⟩
    refine ⟨m', fun code' hcode s' => ?_⟩
    obtain ⟨code₁, hcode₁, s₁, hrest⟩ := hm' code' hcode s'
    obtain ⟨code, hlt, s, hnorm⟩ := hback code₁ hcode₁ s₁
    refine ⟨code, ?_, s, ?_⟩
    · rw [UInt32.lt_iff_toNat_lt] at hlt ⊢
      omega
    · have hstep : directBitsLoop nextByte (n + 1) 0 (m.coder code s).rd =
          directBitsLoop nextByte n 0 (decoderAt range' code₁ s₁) := by
        rw [directBitsLoop, if_neg (show ¬ (m.coder code s).rd.code ≥ (m.coder code s).rd.range >>> 1 from
          UInt32.not_le.mpr hlt), ← hnorm]
        rfl
      dsimp only
      rw [hstep]
      exact hrest

theorem exists_steers_literalLoop (probs n symbol : ℕ) : ∃ v, Steers (literalLoop nextByte probs n symbol) v := by
  induction n generalizing symbol with
  | zero => exact ⟨symbol, steers_pure symbol⟩
  | succ n ih =>
    by_cases hs : symbol < 0x100
    · obtain ⟨v, hv⟩ := ih (symbol + symbol ||| 0)
      have h := (steers_zero (probs + symbol)).bind (g := fun bit => literalLoop nextByte probs n (symbol + symbol ||| bit)) hv
      have heq : literalLoop nextByte probs (n + 1) symbol = fun c => literalLoop nextByte probs n
          (symbol + symbol ||| (rangeDecoderBitDecode nextByte (probs + symbol) c).1)
          (rangeDecoderBitDecode nextByte (probs + symbol) c).2 := by
        funext c
        rw [literalLoop, if_pos hs]
      rw [heq]
      exact ⟨v, h⟩
    · have heq : literalLoop nextByte probs (n + 1) symbol = fun c => (symbol, c) := by
        funext c
        rw [literalLoop, if_neg hs]
      rw [heq]
      exact ⟨symbol, steers_pure symbol⟩

theorem exists_steers_literal (probs : ℕ) : ∃ b, Steers (xzLiteralDecode nextByte probs) b := by
  obtain ⟨v, hv⟩ := exists_steers_literalLoop probs 8 1
  exact ⟨UInt8.ofNat v, hv.bind (g := fun v c => (UInt8.ofNat v, c)) (steers_pure _)⟩

/-- The shortest match. -/
theorem steers_len (p posState : ℕ) : Steers (xzLenDecode nextByte p posState) 0 := by
  intro m
  obtain ⟨m₁, hm₁⟩ := steers_zero (p + lenChoice) m
  obtain ⟨m₂, hm₂⟩ := steers_bitTree (p + lenLow + (posState <<< 3)) 3 0 (by decide) m₁
  refine ⟨m₂, fun code₂ hcode₂ s₂ => ?_⟩
  obtain ⟨code₁, hcode₁, s₁, h₁⟩ := hm₂ code₂ hcode₂ s₂
  obtain ⟨code, hcode, s, h⟩ := hm₁ code₁ hcode₁ s₁
  refine ⟨code, hcode, s, ?_⟩
  unfold xzLenDecode
  rw [h]
  exact h₁

/-- The rest of a distance after its slot. -/
def distanceRest (posSlot : ℕ) (c : Coder Tape) : UInt32 × Coder Tape :=
  if posSlot ≥ 4 then
    let numDirectBits := posSlot >>> 1 - 1
    let rep0 : UInt32 := (2 ||| UInt32.ofNat (posSlot &&& 1)) <<< UInt32.ofNat numDirectBits
    if posSlot < 14 then
      let s := rangeDecoderReverseBitTreeDecode nextByte (specPos + rep0.toNat - posSlot - 1) numDirectBits c
      (rep0 + UInt32.ofNat s.1 + 1, s.2)
    else
      let d := rangeDecoderDecodeDirectBits nextByte c.rd (numDirectBits - 4)
      let s := rangeDecoderReverseBitTreeDecode nextByte alignProbs 4 { c with rd := d.2 }
      (rep0 + (d.1 <<< 4) + UInt32.ofNat s.1 + 1, s.2)
  else (UInt32.ofNat posSlot + 1, c)

/-- The low bits of a distance are 0. -/
theorem steers_distanceRest {posSlot : ℕ} (h4 : 4 ≤ posSlot) :
    Steers (distanceRest posSlot) ((2 ||| UInt32.ofNat (posSlot &&& 1)) <<< UInt32.ofNat (posSlot >>> 1 - 1) + 1) := by
  generalize hn : posSlot >>> 1 - 1 = n
  generalize hrep : (2 ||| UInt32.ofNat (posSlot &&& 1) : UInt32) <<< UInt32.ofNat n = rep0
  have hzero : (UInt32.ofNat 0 : UInt32) = 0 := rfl
  by_cases h14 : posSlot < 14
  · have heq : distanceRest posSlot = fun c =>
        let s := reverseBitTreeLoop nextByte (specPos + rep0.toNat - posSlot - 1) n 0 1 0 c
        (rep0 + UInt32.ofNat s.1 + 1, s.2) := by
      funext c
      subst hn hrep
      rw [distanceRest, if_pos h4, if_pos h14]
      rfl
    have h := (steers_reverseBitTree (specPos + rep0.toNat - posSlot - 1) n 0 1 0).bind
      (g := fun s c => (rep0 + UInt32.ofNat s + 1, c)) (steers_pure _)
    rw [hzero, UInt32.add_zero] at h
    rw [heq]
    exact h
  · have heq : distanceRest posSlot = fun c =>
        let d := directBitsLoop nextByte (n - 4) 0 c.rd
        let s := reverseBitTreeLoop nextByte alignProbs 4 0 1 0 { c with rd := d.2 }
        (rep0 + (d.1 <<< 4) + UInt32.ofNat s.1 + 1, s.2) := by
      funext c
      subst hn hrep
      rw [distanceRest, if_pos h4, if_neg h14]
      rfl
    have halign (d : UInt32) := (steers_reverseBitTree alignProbs 4 0 1 0).bind
      (g := fun s c => (rep0 + (d <<< 4) + UInt32.ofNat s + 1, c)) (steers_pure _)
    have h := (steers_directBits (n - 4)).bind
      (g := fun (d : UInt32) c => (rep0 + (d <<< 4) + UInt32.ofNat (reverseBitTreeLoop nextByte alignProbs 4 0 1 0 c).1 + 1,
        (reverseBitTreeLoop nextByte alignProbs 4 0 1 0 c).2)) (halign 0)
    rw [hzero, UInt32.zero_shiftLeft, UInt32.add_zero, UInt32.add_zero] at h
    rw [heq]
    exact h

/-- A distance that is one more than a power of two. -/
theorem steers_distance {j : ℕ} (hj : j ≤ 15) (len : ℕ) : Steers (xzDecodeDistance nextByte len) (UInt32.ofNat (2 ^ j + 1)) := by
  have hslot (posSlot : ℕ) (hlt : posSlot < 2 ^ 6) := steers_bitTree (posSlotProbs + ((if len < 4 then len else 3) <<< 6)) 6
    posSlot hlt
  have heq : xzDecodeDistance nextByte len = fun c =>
      let r := rangeDecoderBitTreeDecode nextByte (posSlotProbs + ((if len < 4 then len else 3) <<< 6)) 6 c
      distanceRest r.1 r.2 := by
    funext c
    unfold xzDecodeDistance distanceRest
    rfl
  rw [heq]
  by_cases h2 : 2 ≤ j
  · have hrest := steers_distanceRest (show 4 ≤ 2 * j by omega)
    have hvalue : (2 ||| UInt32.ofNat (2 * j &&& 1)) <<< UInt32.ofNat ((2 * j) >>> 1 - 1) + 1 = UInt32.ofNat (2 ^ j + 1) := by
      interval_cases j <;> decide
    rw [hvalue] at hrest
    exact (hslot (2 * j) (by omega)).bind (g := distanceRest) hrest
  · -- the slot is the distance itself
    have hsmall (posSlot : ℕ) (hlt : ¬ posSlot ≥ 4) : Steers (distanceRest posSlot) (UInt32.ofNat posSlot + 1) := by
      have heq : distanceRest posSlot = fun c => (UInt32.ofNat posSlot + 1, c) := by
        funext c
        rw [distanceRest, if_neg hlt]
      rw [heq]
      exact steers_pure _
    have hvalue : UInt32.ofNat (j + 1) + 1 = UInt32.ofNat (2 ^ j + 1) := by
      interval_cases j <;> decide
    rw [← hvalue]
    exact (hslot (j + 1) (by omega)).bind (g := distanceRest) (hsmall (j + 1) (by omega))

/-! ### A stream that leaves the dictionary -/

/-- The decoder after `k` literals. -/
structure Literals (p : XzProps) (k : ℕ) (l : XzLocals Tape) : Prop extends Tracks p k l where
  previousIsMatch : l.vs.previousIsMatch = false
  remainLen : l.vs.remainLen = some 0

section Rounds
variable {p : XzProps} {k : ℕ} {l : XzLocals Tape}

/-- The state after a literal. -/
def afterLiteral (l : XzLocals Tape) (b : UInt8) : XzLocals Tape :=
  { l with
    vs :=
      { l.vs with
        state := if l.vs.state < 4 then 0 else if l.vs.state < 10 then l.vs.state - 3 else l.vs.state - 6
        previousIsMatch := false } }.put b

theorem round_literal {c c' : Coder Tape} {b : UInt8} (hok : l.vs.coder.rd.readCbRet = true)
    (hextra : l.vs.coder.rd.extraBytes = false) (hprev : l.vs.previousIsMatch = false)
    (hbit : rangeDecoderBitDecode nextByte (isMatch + (l.vs.state <<< 4) + (l.pos &&& UInt32.ofNat (1 <<< l.vs.pb - 1)).toNat)
      l.vs.coder = (0, c))
    (hlit : xzLiteralDecode nextByte (literalProbs + xzLitSize *
      (((l.pos &&& UInt32.ofNat (1 <<< l.vs.lp - 1)).toNat <<< l.vs.lc) + (l.previousByte.toNat >>> (8 - l.vs.lc)))) c =
        (b, c')) (outSize : ℕ) : xzDecodeRound nextByte l outSize = .next ((afterLiteral l b).withCoder c') := by
  have hdec : xzDecodeLiteral nextByte l c = (afterLiteral l b).withCoder c' := by
    unfold xzDecodeLiteral
    dsimp only
    rw [hprev, if_neg Bool.false_ne_true, hlit]
    rfl
  unfold xzDecodeRound
  dsimp only
  rw [hok, hextra, hbit, hdec]
  rfl

theorem Literals.round (hp : p.Accepted) (h : Literals p k l) (outSize : ℕ) (m : Model) :
    ∃ (l' : XzLocals Tape) (m' : Model), Literals p (k + 1) l' ∧ l'.out.length = l.out.length + 1 ∧
      ∀ code' < m'.range, ∀ s', ∃ code < m.range, ∃ s,
        xzDecodeRound nextByte (l.withCoder (m.coder code s)) outSize = .next (l'.withCoder (m'.coder code' s')) := by
  obtain ⟨m₁, hm₁⟩ := steers_zero (isMatch + (l.vs.state <<< 4) + (l.pos &&& UInt32.ofNat (1 <<< l.vs.pb - 1)).toNat) m
  obtain ⟨b, hb⟩ := exists_steers_literal (literalProbs + xzLitSize *
    (((l.pos &&& UInt32.ofNat (1 <<< l.vs.lp - 1)).toNat <<< l.vs.lc) + (l.previousByte.toNat >>> (8 - l.vs.lc))))
  obtain ⟨m₂, hm₂⟩ := hb m₁
  have hstate : (if l.vs.state < 4 then 0 else if l.vs.state < 10 then l.vs.state - 3 else l.vs.state - 6) < 12 := by
    have hs := h.state
    split_ifs <;> omega
  have htracks : Tracks p k
      { l with
        vs :=
          { l.vs with
            state := if l.vs.state < 4 then 0 else if l.vs.state < 10 then l.vs.state - 3 else l.vs.state - 6
            previousIsMatch := false } } :=
    ⟨h.size, h.lc, h.lp, h.pb, h.pos, h.dictionaryPos, hstate⟩
  refine ⟨afterLiteral l b, m₂, ⟨htracks.put hp b, rfl, h.remainLen⟩, List.length_append, fun code₂ hcode₂ s₂ => ?_⟩
  obtain ⟨code₁, hcode₁, s₁, h₁⟩ := hm₂ code₂ hcode₂ s₂
  obtain ⟨code, hcode, s, h₀⟩ := hm₁ code₁ hcode₁ s₁
  exact ⟨code, hcode, s, round_literal (l := l.withCoder (m.coder code s)) rfl rfl h.previousIsMatch h₀ h₁ outSize⟩

/-- The accesses of a round include those of the new match that it decodes. -/
theorem mem_round_newMatch {c₁ c₂ c₃ c₄ : Coder Tape} {len outSize : ℕ} {distance : UInt32}
    (hok : l.vs.coder.rd.readCbRet = true) (hextra : l.vs.coder.rd.extraBytes = false)
    (hbit : rangeDecoderBitDecode nextByte (isMatch + (l.vs.state <<< 4) + (l.pos &&& UInt32.ofNat (1 <<< l.vs.pb - 1)).toNat)
      l.vs.coder = (1, c₁))
    (hrep : rangeDecoderBitDecode nextByte (isRep + l.vs.state) c₁ = (0, c₂))
    (hlen : xzLenDecode nextByte lenCoder (l.pos &&& UInt32.ofNat (1 <<< l.vs.pb - 1)).toNat c₂ = (len, c₃))
    (hdist : xzDecodeDistance nextByte len c₃ = (distance, c₄)) :
    ∃ l' : XzLocals Tape, l'.vs.rep0 = distance ∧ l'.pos = l.pos ∧ l'.vs.dictionaryPos = l.vs.dictionaryPos ∧
      l'.vs.dictionarySize = l.vs.dictionarySize ∧ l'.out = l.out ∧
      ∀ a ∈ xzMatchAccesses l' len outSize, a ∈ xzRoundAccesses nextByte l outSize := by
  refine ⟨
    { l with
      vs :=
        { l.vs with
          coder := c₄, state := if l.vs.state < 7 then 7 else 10, rep0 := distance, rep1 := l.vs.rep0, rep2 := l.vs.rep1,
          rep3 := l.vs.rep2, previousIsMatch := true } }, rfl, rfl, rfl, rfl, rfl, fun a ha => ?_⟩
  unfold xzRoundAccesses
  dsimp only
  rw [hok, hextra, hbit]
  dsimp only
  rw [hrep]
  apply List.mem_cons_of_mem
  apply List.mem_cons_of_mem
  show a ∈ xzNewMatchAccesses nextByte { l with vs := { l.vs with previousIsMatch := true } } c₂
    (l.pos &&& UInt32.ofNat (1 <<< l.vs.pb - 1)).toNat outSize
  unfold xzNewMatchAccesses
  dsimp only
  rw [hlen]
  dsimp only
  rw [hdist]
  exact List.mem_append_right _ ha

/-- The power of two between the size of the dictionary and its double. -/
theorem XzProps.Accepted.exists_power (hp : p.Accepted) : ∃ j ≤ 15, p.dictSize ≤ 2 ^ j ∧ 2 ^ j + 1 ≤ 2 * p.dictSize := by
  have hpos := hp.dict_pos
  have hle := hp.dict_le
  unfold dictBufSize at hle
  refine ⟨Nat.clog 2 p.dictSize, ?_, Nat.le_pow_clog (by decide) _, ?_⟩
  · exact Nat.clog_le_of_le_pow (by omega)
  · by_cases hone : p.dictSize = 1
    · rw [hone]
      decide
    · have hlt := Nat.pow_pred_clog_lt_self (show 1 < 2 by decide) (show 1 < p.dictSize by omega)
      have hclog : 0 < Nat.clog 2 p.dictSize := Nat.clog_pos (by decide) (by omega)
      have hpow : 2 ^ Nat.clog 2 p.dictSize = 2 ^ (Nat.clog 2 p.dictSize).pred * 2 := by
        rw [← pow_succ]
        exact congrArg (2 ^ ·) (Nat.succ_pred_eq_of_pos hclog).symm
      omega

/-- When the dictionary has been filled twice, a match can lie outside it. -/
theorem exists_match_outside (hp : p.Accepted) (h : Tracks p (2 * p.dictSize) l) {outSize : ℕ} (hlt : l.out.length < outSize)
    (m : Model) : ∃ code < m.range, ∃ s, ∃ a ∈ xzRoundAccesses nextByte (l.withCoder (m.coder code s)) outSize, ¬ a.Within p := by
  obtain ⟨j, hj, hge, hle⟩ := hp.exists_power
  obtain ⟨m₁, hm₁⟩ := steers_one (isMatch + (l.vs.state <<< 4) + (l.pos &&& UInt32.ofNat (1 <<< l.vs.pb - 1)).toNat) m
  obtain ⟨m₂, hm₂⟩ := steers_zero (isRep + l.vs.state) m₁
  obtain ⟨m₃, hm₃⟩ := steers_len lenCoder (l.pos &&& UInt32.ofNat (1 <<< l.vs.pb - 1)).toNat m₂
  obtain ⟨m₄, hm₄⟩ := steers_distance hj 0 m₃
  have hzero : 0 < m₄.range := by
    have hr := m₄.range_ge
    rw [UInt32.lt_iff_toNat_lt]
    exact lt_of_lt_of_le (by decide) hr
  obtain ⟨code₃, hcode₃, s₃, h₃⟩ := hm₄ 0 hzero (fun _ => 0)
  obtain ⟨code₂, hcode₂, s₂, h₂⟩ := hm₃ code₃ hcode₃ s₃
  obtain ⟨code₁, hcode₁, s₁, h₁⟩ := hm₂ code₂ hcode₂ s₂
  obtain ⟨code, hcode, s, h₀⟩ := hm₁ code₁ hcode₁ s₁
  refine ⟨code, hcode, s, ?_⟩
  obtain ⟨l', hrep0, hpos, hdpos, hdsize, hout, hmem⟩ :=
    @mem_round_newMatch (l.withCoder (m.coder code s)) _ _ _ _ _ outSize _ rfl rfl h₀ h₁ h₂ h₃
  have hdict := hp.dict_le
  unfold dictBufSize at hdict
  have hnat : (UInt32.ofNat (2 ^ j + 1)).toNat = 2 ^ j + 1 := toNat_ofNat_word (by omega)
  refine ⟨.matched l'.vs.rep0 l'.vs.matchPos, hmem _ ?_, ?_⟩
  · have hne : ¬ l'.vs.rep0 = 0 := by
      intro h0
      have h0' := congrArg UInt32.toNat h0
      rw [hrep0, hnat] at h0'
      exact absurd h0' (Nat.succ_ne_zero _)
    have hreach : ¬ l'.vs.rep0 > l'.pos := by
      rw [gt_iff_lt, UInt32.not_lt, UInt32.le_iff_toNat_le, hrep0, hnat, hpos]
      show 2 ^ j + 1 ≤ l.pos.toNat
      rw [h.pos, toNat_ofNat_word (by omega)]
      exact hle
    have hroom : min (0 + 2) (outSize - l'.out.length) = min 1 (outSize - l'.out.length - 1) + 1 := by
      rw [hout]
      show min (0 + 2) (outSize - l.out.length) = min 1 (outSize - l.out.length - 1) + 1
      omega
    rw [xzMatchAccesses, if_neg hne, if_neg hreach, XzLocals.copyMatchAccesses, hroom, XzLocals.copyAccesses]
    exact List.mem_append_left _ List.mem_cons_self
  · rintro ⟨hin, -⟩
    have hback := (@backPos_lt_iff p.dictSize 0 (2 ^ j + 1) hp.dict_le hp.dict_pos hle).mp (by
      have heq : l'.vs.matchPos = backPos (UInt32.ofNat p.dictSize) (UInt32.ofNat 0) (UInt32.ofNat (2 ^ j + 1)) := by
        show backPos l'.vs.dictionarySize l'.vs.dictionaryPos l'.vs.rep0 = _
        rw [hrep0, hdpos, hdsize]
        show backPos l.vs.dictionarySize l.vs.dictionaryPos _ = _
        rw [h.size, h.dictionaryPos, Nat.mul_mod_left]
      rw [← heq]
      exact hin)
    omega

/-- A run of `n` literals. -/
theorem Literals.loop (hp : p.Accepted) {outSize : ℕ} (n : ℕ) (h : Literals p k l) (hroom : l.out.length + n ≤ outSize)
    (m : Model) :
    ∃ (l' : XzLocals Tape) (m' : Model), Literals p (k + n) l' ∧ l'.out.length = l.out.length + n ∧
      ∀ code' < m'.range, ∀ s', ∃ code < m.range, ∃ s, ∀ fuel,
        xzDecodeLoop nextByte outSize (fuel + n) (l.withCoder (m.coder code s)) =
          xzDecodeLoop nextByte outSize fuel (l'.withCoder (m'.coder code' s')) ∧
        ∀ a ∈ xzLoopAccesses nextByte outSize fuel (l'.withCoder (m'.coder code' s')),
          a ∈ xzLoopAccesses nextByte outSize (fuel + n) (l.withCoder (m.coder code s)) := by
  induction n generalizing k l m with
  | zero => exact ⟨l, m, h, rfl, fun code' hcode s' => ⟨code', hcode, s', fun fuel => ⟨rfl, fun a ha => ha⟩⟩⟩
  | succ n ih =>
    obtain ⟨l₁, m₁, hl₁, hlen₁, hstep⟩ := h.round hp outSize m
    obtain ⟨l', m', hl', hlen', hrest⟩ := ih hl₁ (by omega) m₁
    refine ⟨l', m', by rwa [show k + (n + 1) = k + 1 + n by omega], by omega, fun code' hcode s' => ?_⟩
    obtain ⟨code₁, hcode₁, s₁, hloop⟩ := hrest code' hcode s'
    obtain ⟨code, hlt, s, hround⟩ := hstep code₁ hcode₁ s₁
    refine ⟨code, hlt, s, fun fuel => ?_⟩
    have hguard : (l.withCoder (m.coder code s)).out.length < outSize := by
      show l.out.length < outSize
      omega
    obtain ⟨hdec, hacc⟩ := hloop fuel
    rw [← Nat.add_assoc fuel n 1]
    constructor
    · rw [xzDecodeLoop, if_pos hguard, hround]
      exact hdec
    · intro a ha
      rw [xzLoopAccesses, if_pos hguard, hround]
      exact List.mem_append_right _ (hacc a ha)

end Rounds

/-! ### The blocks of the stream -/

section Blocks
variable {p : XzProps} {k : ℕ} {vs : XzVarState Tape}

/-- The locals at the start of a block. -/
def blockStart (vs : XzVarState Tape) : XzLocals Tape :=
  ⟨vs, [], vs.dictionary (if vs.dictionaryPos = 0 then vs.dictionarySize - 1 else vs.dictionaryPos - 1)⟩

theorem Literals.atStart (h : Literals p k (⟨vs, [], 0⟩ : XzLocals Tape)) : Literals p k (blockStart vs) :=
  ⟨⟨h.size, h.lc, h.lp, h.pb, h.pos, h.dictionaryPos, h.state⟩, h.previousIsMatch, h.remainLen⟩

/-- Nothing is left over from the block before: the call starts with its loop. -/
theorem xzDecode_start (h : vs.remainLen = some 0) (outSize : ℕ) :
    xzDecode nextByte vs outSize = (xzDecodeLoop nextByte outSize outSize (blockStart vs)).map (fun l =>
        (l.out, { l.vs with globalPos := l.vs.globalPos + UInt32.ofNat l.out.length })) ∧
      ∀ a ∈ xzLoopAccesses nextByte outSize outSize (blockStart vs), a ∈ xzDecodeAccesses nextByte vs outSize := by
  have hcopy : XzLocals.copyMatch ⟨vs, [], 0⟩ 0 outSize = ⟨vs, [], 0⟩ := copyMatch_zero_of_idle h outSize
  unfold xzDecode xzDecodeAccesses
  rw [h]
  dsimp only
  rw [hcopy]
  constructor
  · show (xzDecodeLoop nextByte outSize outSize (blockStart vs) >>= _) = _
    cases xzDecodeLoop nextByte outSize outSize (blockStart vs) with
    | error e => rfl
    | ok l => rfl
  · intro a ha
    exact List.mem_append_right _ (List.mem_cons_of_mem _ ha)

/-- A block of literals. -/
theorem Literals.block (hp : p.Accepted) (h : Literals p k (⟨vs, [], 0⟩ : XzLocals Tape)) (outSize : ℕ) (m : Model) :
    ∃ (block : Bytes) (vs' : XzVarState Tape) (m' : Model), Literals p (k + outSize) (⟨vs', [], 0⟩ : XzLocals Tape) ∧
      block.length = outSize ∧ ∀ code' < m'.range, ∀ s', ∃ code < m.range, ∃ s,
        xzDecode nextByte { vs with coder := m.coder code s } outSize =
          .ok (block, { vs' with coder := m'.coder code' s' }) := by
  obtain ⟨l', m', hl', hlen, hloop⟩ := h.atStart.loop hp outSize (show 0 + outSize ≤ outSize by omega) m
  have hout : l'.out.length = outSize := hlen.trans (Nat.zero_add _)
  refine ⟨l'.out, { l'.vs with globalPos := l'.vs.globalPos + UInt32.ofNat l'.out.length }, m', ?_, hout,
    fun code' hcode s' => ?_⟩
  · refine ⟨⟨hl'.size, hl'.lc, hl'.lp, hl'.pb, ?_, hl'.dictionaryPos, hl'.state⟩, hl'.previousIsMatch, hl'.remainLen⟩
    have hpos := hl'.pos
    unfold XzLocals.pos at hpos ⊢
    rw [← hpos, UInt32.add_comm (UInt32.ofNat l'.out.length)]
    exact UInt32.zero_add _
  · obtain ⟨code, hlt, s, hdec⟩ := hloop code' hcode s'
    refine ⟨code, hlt, s, ?_⟩
    have hrun := (hdec 0).1
    rw [Nat.zero_add] at hrun
    have hstart := (xzDecode_start (show { vs with coder := m.coder code s }.remainLen = some 0 from h.remainLen) outSize).1
    rw [hstart, show blockStart { vs with coder := m.coder code s } = (blockStart vs).withCoder (m.coder code s) from rfl, hrun]
    rfl

/-- From every multiple of a block on there is a stream that goes on with literals until the
dictionary has been filled twice and then leaves it. -/
theorem exists_outside_blocks (hp : p.Accepted) (hout : 2 * p.dictSize < p.outSize) (n : ℕ)
    (h : Literals p k (⟨vs, [], 0⟩ : XzLocals Tape)) (hk : k ≤ 2 * p.dictSize) (hn : p.outSize - k ≤ n) (m : Model) :
    ∃ code < m.range, ∃ s, ∃ a ∈ xzBlockAccesses (fun _ => nextByte) (fun _ t => t) p.outSize n k
      { vs with coder := m.coder code s } (), ¬ a.Within p := by
  induction n generalizing k vs m with
  | zero => omega
  | succ n ih =>
    have hlt : k < p.outSize := by omega
    generalize hsize : min (p.outSize - k) blockBufSize = size
    by_cases hblock : k + size ≤ 2 * p.dictSize
    · -- the whole block is literals
      have hsize_pos : 0 < size := by
        rw [← hsize]
        exact lt_min (by omega) (by decide)
      obtain ⟨block, vs', m', hvs', hlen, hdec⟩ := h.block hp size m
      obtain ⟨code', hcode', s', a, ha, hnot⟩ := ih hvs' hblock (by omega) m'
      obtain ⟨code, hcode, s, heq⟩ := hdec code' hcode' s'
      refine ⟨code, hcode, s, a, ?_, hnot⟩
      have hne : block ≠ [] := by
        rintro rfl
        rw [List.length_nil] at hlen
        omega
      rw [xzBlockAccesses, if_pos hlt]
      dsimp only
      rw [hsize, heq]
      dsimp only
      rw [if_neg hne, hlen]
      exact List.mem_append_right _ ha
    · -- the block is where the match stands
      obtain ⟨l', m', hl', hlen, hloop⟩ := h.atStart.loop hp (2 * p.dictSize - k)
        (show 0 + (2 * p.dictSize - k) ≤ size by omega) m
      rw [show k + (2 * p.dictSize - k) = 2 * p.dictSize by omega] at hl'
      have hroom : l'.out.length < size := by
        rw [hlen]
        show 0 + (2 * p.dictSize - k) < size
        omega
      obtain ⟨code', hcode', s', a, ha, hnot⟩ := exists_match_outside hp hl'.toTracks hroom m'
      obtain ⟨code, hcode, s, hrun⟩ := hloop code' hcode' s'
      refine ⟨code, hcode, s, a, ?_, hnot⟩
      have hacc := (hrun (size - (2 * p.dictSize - k) - 1 + 1)).2 a (by
        rw [xzLoopAccesses, if_pos (show (l'.withCoder (m'.coder code' s')).out.length < size from hroom)]
        exact List.mem_append_left _ ha)
      rw [show size - (2 * p.dictSize - k) - 1 + 1 + (2 * p.dictSize - k) = size by omega] at hacc
      rw [xzBlockAccesses, if_pos hlt]
      dsimp only
      rw [hsize]
      have hstart := (xzDecode_start (show { vs with coder := m.coder code s }.remainLen = some 0 from h.remainLen) size).2
      exact List.mem_append_left _ (hstart a hacc)

/-- The model that the decoder starts with. -/
def initModel : Model where
  probs := fun _ => kBitModelTotal / 2
  range := 0xFFFFFFFF
  probs_ge := fun _ => by decide
  probs_le := fun _ => by decide
  range_ge := by decide

/-- The first five bytes set the code. -/
theorem rangeDecoderInit_tape (code : UInt32) (s : Tape) :
    ∃ s₀, rangeDecoderInit nextByte s₀ = decoderAt 0xFFFFFFFF code s := by
  have hgone : code >>> 8 >>> 8 >>> 8 >>> 8 >>> 8 = 0 := by
    apply UInt32.toNat_inj.mp
    have hlt := code.toNat_lt
    simp only [UInt32.toNat_shiftRight, UInt32.reduceToNat, Nat.reduceMod, Nat.shiftRight_eq_div_pow, Nat.reducePow]
    omega
  refine ⟨((((s.cons code.toUInt8).cons (code >>> 8).toUInt8).cons (code >>> 8 >>> 8).toUInt8).cons
    (code >>> 8 >>> 8 >>> 8).toUInt8).cons (code >>> 8 >>> 8 >>> 8 >>> 8).toUInt8, ?_⟩
  have hrange : List.range 5 = [0, 1, 2, 3, 4] := rfl
  unfold rangeDecoderInit
  rw [hrange]
  simp only [List.foldl_cons, List.foldl_nil]
  rw [← hgone]
  have hshift := shiftInByte_cons 0xFFFFFFFF
  unfold decoderAt at hshift ⊢
  rw [hshift, hshift, hshift, hshift, hshift]

/-- A stream more than twice as long as its dictionary can read outside the dictionary. -/
theorem exists_outside {header : Bytes} (h : xzProps header = .ok p) (hd : 0 < p.dictSize) (hout : 2 * p.dictSize < p.outSize) :
    ∃ s, ∃ a ∈ xzAccesses (fun _ : Unit => nextByte) (fun _ t => t) header s (), ¬ a.Within p := by
  have hp := xzProps_accepted h hd
  have hstart := (atBlock_init p nextByte (fun _ => 0)).tracks
  obtain ⟨code, -, s, a, ha, hnot⟩ := @exists_outside_blocks p 0 (xzInit nextByte p fun _ => 0) hp hout p.outSize
    ⟨hstart, rfl, rfl⟩ (Nat.zero_le _) (Nat.sub_le _ _) initModel
  obtain ⟨s₀, hs₀⟩ := rangeDecoderInit_tape code s
  refine ⟨s₀, a, ?_, hnot⟩
  have hinit : xzInit nextByte p s₀ = { xzInit nextByte p (fun _ => 0) with coder := initModel.coder code s } := by
    unfold xzInit
    rw [hs₀]
    rfl
  rw [xzAccesses, h]
  dsimp only
  rw [hinit]
  exact ha

end Blocks

/-- Without a dictionary the byte before the first one is looked for outside it. -/
theorem exists_outside_of_no_dict {p : XzProps} {header : Bytes} (h : xzProps header = .ok p) (hd : p.dictSize = 0)
    (hout : 0 < p.outSize) (s : Tape) :
    ∃ a ∈ xzAccesses (fun _ : Unit => nextByte) (fun _ t => t) header s (), ¬ a.Within p := by
  refine ⟨.dict 0xFFFFFFFF, ?_, ?_⟩
  · obtain ⟨n, hn⟩ : ∃ n, p.outSize = n + 1 := ⟨p.outSize - 1, by omega⟩
    have hlast : UInt32.ofNat p.dictSize - 1 = 0xFFFFFFFF := by
      rw [hd]
      rfl
    rw [xzAccesses, h]
    dsimp only
    rw [hn, xzBlockAccesses, if_pos (Nat.succ_pos n)]
    apply List.mem_append_left
    rw [← hlast]
    have hcopy := copyMatch_zero_of_idle (l := ⟨xzInit nextByte p s, [], 0⟩) rfl (min (n + 1 - 0) blockBufSize)
    show _ ∈ XzLocals.copyMatchAccesses ⟨xzInit nextByte p s, [], 0⟩ 0 _ ++ _
    apply List.mem_append_right
    rw [hcopy]
    exact List.mem_cons_self
  · rintro ⟨hlt, -⟩
    rw [hd] at hlt
    exact absurd hlt (Nat.not_lt_zero _)

/-- For every header that is accepted: whatever the read callback hands out, every index is in its
array exactly if nothing is to be decoded or the stream is at most twice as long as its
dictionary. A stream that is longer has its indices in the arrays if no distance in it is longer
than the dictionary. -/
theorem accesses_within_iff (header : Bytes) (p : XzProps) (h : xzProps header = .ok p) :
    ((∀ (σ τ : Type) (read : τ → σ → ReadCall σ) (write : Bytes → τ → τ) (input : σ) (t : τ),
        ∀ a ∈ xzAccesses read write header input t, a.Within p) ↔
      p.outSize = 0 ∨ 0 < p.dictSize ∧ p.outSize ≤ 2 * p.dictSize) ∧
    (0 < p.dictSize → ∀ (σ τ : Type) (read : τ → σ → ReadCall σ) (write : Bytes → τ → τ) (input : σ) (t : τ),
      (∀ distance i, Access.matched distance i ∈ xzAccesses read write header input t → distance.toNat ≤ p.dictSize) →
      ∀ a ∈ xzAccesses read write header input t, a.Within p) := by
  refine ⟨⟨fun hall => ?_, ?_⟩, fun hd σ τ read write input t hdist => within_of_distances read write h hd input t hdist⟩
  · by_contra hnot
    rw [not_or, not_and_or] at hnot
    obtain ⟨hpos, hdict | hlong⟩ := hnot
    · obtain ⟨a, ha, hout⟩ := exists_outside_of_no_dict h (by omega) (by omega) (fun _ => 0)
      exact hout (hall _ _ _ _ _ _ a ha)
    · by_cases hd : 0 < p.dictSize
      · obtain ⟨s, a, ha, hout⟩ := exists_outside h hd (by omega)
        exact hout (hall _ _ _ _ _ _ a ha)
      · obtain ⟨a, ha, hout⟩ := exists_outside_of_no_dict h (by omega) (by omega) (fun _ => 0)
        exact hout (hall _ _ _ _ _ _ a ha)
  · rintro (hzero | ⟨hd, hle⟩) σ τ read write input t
    · rw [xzAccesses, h]
      dsimp only
      rw [hzero]
      exact fun a ha => absurd ha List.not_mem_nil
    · exact within_of_short read write h hd hle input t

/-- A callback that hands out all it has at once. -/
def readWhole (_ : Unit) (s : Bytes) : ReadCall Bytes := ⟨true, s, []⟩

/-- A header with `lc` 3, `lp` 0 and `pb` 2. -/
def headerOf (dictSize outSize : ℕ) : Bytes := 0x5D :: leBytes 4 dictSize ++ leBytes 4 outSize ++ [0, 0, 0, 0]

/-- Two literals, and the two bytes that lie two back. -/
def farStream : Bytes := [0, 32, 144, 156, 4, 0, 0, 0, 0, 0]

/-- A stream of 8192 bytes with a dictionary of 4096, and one of 6 bytes with a dictionary of 2
whose distances are at most 2. -/
theorem accesses_within_headers :
    (∀ (σ τ : Type) (read : τ → σ → ReadCall σ) (write : Bytes → τ → τ) (input : σ) (t : τ),
      ∀ a ∈ xzAccesses read write (headerOf 4096 8192) input t, a.Within ⟨8192, 4096, 3, 0, 2⟩) ∧
    ∀ a ∈ xzAccesses readWhole (fun _ t => t) (headerOf 2 6) farStream (), a.Within ⟨6, 2, 3, 0, 2⟩ := by
  have hshort : ∀ a ∈ xzAccesses readWhole (fun _ t => t) (headerOf 2 6) farStream (),
      (match a with | .matched distance _ => distance.toNat | _ => 0) ≤ 2 := by decide +kernel
  constructor
  · exact (accesses_within_iff (headerOf 4096 8192) ⟨8192, 4096, 3, 0, 2⟩ rfl).1.mpr (Or.inr (by decide))
  · exact (accesses_within_iff (headerOf 2 6) ⟨6, 2, 3, 0, 2⟩ rfl).2 (by decide) _ _ _ _ _ _
      (fun distance i hmem => hshort _ hmem)

/-- With a dictionary of one byte the match of the same stream is read at the index `0xFFFFFFFF`. -/
theorem farStream_outside :
    xzProps (headerOf 1 3) = .ok ⟨3, 1, 3, 0, 2⟩ ∧
      ¬ ∀ a ∈ xzAccesses readWhole (fun _ t => t) (headerOf 1 3) farStream (), a.Within ⟨3, 1, 3, 0, 2⟩ := by
  have hmem : Access.matched 2 0xFFFFFFFF ∈ xzAccesses readWhole (fun _ t => t) (headerOf 1 3) farStream () := by
    decide +kernel
  refine ⟨rfl, fun hall => ?_⟩
  have hlt := (hall _ hmem).1
  exact absurd hlt (by decide)

end Ln882x.Ota
