import Mathlib.Data.Nat.Bitwise
import Mathlib.Data.Nat.Factorization.Basic

/-! Walking over the bits of a word. Each step takes the lowest bit off, as
`value & (value - 1)` does, and finds its number from the difference; so the walk
meets the bits that are set and no others. -/

namespace Ln882x.Runtime

/-- The numbers of the bits met in at most `n` steps; `log` numbers a single bit. -/
def bitWalk {w : ℕ} (log : BitVec w → ℕ) : ℕ → BitVec w → List ℕ
  | 0, _ => []
  | n + 1, value =>
    if value = 0 then []
    else
      let tmp := value &&& (value - 1)
      log (value - tmp) :: bitWalk log n tmp

theorem and_pred (k m : ℕ) : 2 ^ k * (2 * m + 1) &&& (2 ^ k * (2 * m + 1) - 1) = 2 ^ k * (2 * m) := by
  have hpos : 0 < 2 ^ k := Nat.two_pow_pos k
  have hpred : 2 ^ k * (2 * m + 1) - 1 = 2 ^ k * (2 * m) + (2 ^ k - 1) := by
    rw [Nat.mul_add_one]
    omega
  rw [hpred]
  refine Nat.eq_of_testBit_eq fun j => ?_
  rw [Nat.testBit_and, Nat.testBit_two_pow_mul, Nat.testBit_two_pow_mul, Nat.testBit_two_pow_mul_add _ (by omega)]
  by_cases hj : j < k
  · simp [Nat.not_le_of_lt hj]
  · rw [if_neg hj]
    obtain ⟨i, rfl⟩ := Nat.exists_eq_add_of_le (Nat.le_of_not_lt hj)
    cases i with
    | zero => simp
    | succ i => simp [Nat.testBit_succ, Nat.mul_add_div]

theorem testBit_odd_part (k m j : ℕ) :
    (2 ^ k * (2 * m + 1)).testBit j = true ↔ j = k ∨ (2 ^ k * (2 * m)).testBit j = true := by
  rw [Nat.testBit_two_pow_mul, Nat.testBit_two_pow_mul]
  by_cases hj : j < k
  · simp [Nat.not_le_of_lt hj, Nat.ne_of_lt hj]
  · obtain ⟨i, rfl⟩ := Nat.exists_eq_add_of_le (Nat.le_of_not_lt hj)
    cases i with
    | zero => simp
    | succ i => simp [Nat.testBit_succ, Nat.mul_add_div]

/-- The lowest bit of a word, and the word without it. -/
theorem exists_lowest_bit {w : ℕ} {value : BitVec w} (h : value ≠ 0) : ∃ k < w,
    value - (value &&& (value - 1)) = BitVec.twoPow w k ∧
      (∀ j, value.getLsbD j = true ↔ j = k ∨ (value &&& (value - 1)).getLsbD j = true) ∧
      ∀ j, (value &&& (value - 1)).getLsbD j = true → k < j := by
  have hne : value.toNat ≠ 0 := fun h0 => h (BitVec.eq_of_toNat_eq (by simpa using h0))
  obtain ⟨k, o, ⟨m, rfl⟩, hval⟩ := Nat.exists_eq_two_pow_mul_odd hne
  have hlt : value.toNat < 2 ^ w := value.isLt
  have hone : (1 : BitVec w).toNat = 1 := by
    show 1 % 2 ^ w = 1
    exact Nat.mod_eq_of_lt (by omega)
  have hpred : (value - 1).toNat = value.toNat - 1 := by
    rw [BitVec.toNat_sub_of_le (by rw [BitVec.le_def, hone]; omega), hone]
  have htmp : (value &&& (value - 1)).toNat = 2 ^ k * (2 * m) := by
    rw [BitVec.toNat_and, hpred, hval, and_pred]
  have hle : value &&& (value - 1) ≤ value := by
    rw [BitVec.le_def, htmp, hval]
    exact Nat.mul_le_mul_left _ (Nat.le_succ _)
  have hdiff : (value - (value &&& (value - 1))).toNat = 2 ^ k := by
    rw [BitVec.toNat_sub_of_le hle, htmp, hval, Nat.mul_add_one, Nat.add_sub_cancel_left]
  have hk : k < w := by
    have hpow : 2 ^ k ≤ value.toNat := by
      rw [hval]
      exact Nat.le_mul_of_pos_right _ (Nat.succ_pos _)
    exact (Nat.pow_lt_pow_iff_right Nat.one_lt_two).mp (Nat.lt_of_le_of_lt hpow hlt)
  refine ⟨k, hk, ?_, fun j => ?_, fun j hj => ?_⟩
  · apply BitVec.eq_of_toNat_eq
    rw [hdiff, BitVec.toNat_twoPow, Nat.mod_eq_of_lt (Nat.pow_lt_pow_right Nat.one_lt_two hk)]
  · rw [BitVec.getLsbD, BitVec.getLsbD, htmp, hval]
    exact testBit_odd_part k m j
  · rw [BitVec.getLsbD, htmp, Nat.testBit_two_pow_mul] at hj
    by_contra hle
    rcases Nat.lt_or_eq_of_le (Nat.le_of_not_lt hle) with hlt | rfl
    · simp [Nat.not_le_of_lt hlt] at hj
    · simp at hj

variable {w : ℕ} {log : BitVec w → ℕ} (hlog : ∀ k < w, log (BitVec.twoPow w k) = k)
include hlog

theorem mem_bitWalk_of_le {n : ℕ} {value : BitVec w} (h : ∀ j, value.getLsbD j = true → w ≤ n + j) (i : ℕ) :
    i ∈ bitWalk log n value ↔ value.getLsbD i = true := by
  induction n generalizing value with
  | zero =>
    refine iff_of_false List.not_mem_nil fun hi => ?_
    have hlt := BitVec.lt_of_getLsbD hi
    have hge := h i hi
    omega
  | succ n ih =>
    rw [bitWalk]
    by_cases h0 : value = 0
    · rw [if_pos h0, h0]
      simp
    · rw [if_neg h0]
      obtain ⟨k, hk, hdiff, hbits, habove⟩ := exists_lowest_bit h0
      have hkset : value.getLsbD k = true := (hbits k).mpr (.inl rfl)
      have hrest : ∀ j, (value &&& (value - 1)).getLsbD j = true → w ≤ n + j := by
        intro j hj
        have hkj := habove j hj
        have hkw := h k hkset
        omega
      simp only
      rw [List.mem_cons, hdiff, hlog k hk, ih hrest, hbits]

/-- The walk meets exactly the bits that are set. -/
theorem mem_bitWalk (value : BitVec w) (i : ℕ) : i ∈ bitWalk log w value ↔ value.getLsbD i = true :=
  mem_bitWalk_of_le hlog (fun j _ => Nat.le_add_right w j) i

end Ln882x.Runtime
