import Mathlib.Tactic.Common
import Mathlib.Data.Nat.Notation

/-! Reflected cyclic redundancy checks over any polynomial and width. The bit-serial
remainder shifts to the right, and a shift is linear in exclusive or. Eight shifts
therefore move the register down by a byte and add what the low byte alone leaves,
which is what a table of 256 entries holds. Initial values and final masks belong to
the particular check. -/

namespace Ln882x.Crc

variable {w : ℕ} (poly : BitVec w)

/-- One step of the shift register. -/
def shiftBit (r : BitVec w) : BitVec w := if r.getLsbD 0 then (r >>> 1) ^^^ poly else r >>> 1

def shiftBits : ℕ → BitVec w → BitVec w
  | 0, r => r
  | n + 1, r => shiftBits n (shiftBit poly r)

/-- A byte of the message: it is added to the low end, then shifted out bit by bit. -/
def serialByte (r : BitVec w) (b : BitVec 8) : BitVec w := shiftBits poly 8 (r ^^^ b.setWidth w)

def serial (r : BitVec w) (bytes : List (BitVec 8)) : BitVec w := bytes.foldl (serialByte poly) r

theorem shiftBit_xor (x y : BitVec w) : shiftBit poly (x ^^^ y) = shiftBit poly x ^^^ shiftBit poly y := by
  unfold shiftBit
  rw [BitVec.getLsbD_xor, BitVec.ushiftRight_xor_distrib]
  ext i hi
  cases x.getLsbD 0 <;> cases y.getLsbD 0 <;> simp <;> grind

theorem shiftBits_xor (n : ℕ) (x y : BitVec w) :
    shiftBits poly n (x ^^^ y) = shiftBits poly n x ^^^ shiftBits poly n y := by
  induction n generalizing x y with
  | zero => rfl
  | succ n ih => rw [shiftBits, shiftBit_xor, ih, ← shiftBits, ← shiftBits]

/-- A register whose low bits are clear only moves down. -/
theorem shiftBits_of_clear (n : ℕ) {r : BitVec w} (h : ∀ i < n, r.getLsbD i = false) :
    shiftBits poly n r = r >>> n := by
  induction n generalizing r with
  | zero => rw [shiftBits, BitVec.ushiftRight_zero]
  | succ n ih =>
    have hlow : shiftBit poly r = r >>> 1 := by
      rw [shiftBit, h 0 n.succ_pos, if_neg Bool.false_ne_true]
    have hclear : ∀ i < n, (r >>> 1).getLsbD i = false := by
      intro i hi
      rw [BitVec.getLsbD_ushiftRight, Nat.add_comm]
      exact h (i + 1) (Nat.succ_lt_succ hi)
    rw [shiftBits, hlow, ih hclear, ← BitVec.shiftRight_add, Nat.add_comm]

/-- The low bits are shifted out and leave their remainder, the others move down. -/
theorem shiftBits_split (n : ℕ) (r : BitVec w) :
    shiftBits poly n r = shiftBits poly n ((r.setWidth n).setWidth w) ^^^ (r >>> n) := by
  have hsplit : r = (r.setWidth n).setWidth w ^^^ (r ^^^ (r.setWidth n).setWidth w) := by
    rw [BitVec.xor_comm r, ← BitVec.xor_assoc, BitVec.xor_self, BitVec.zero_xor]
  have hclear : ∀ i < n, (r ^^^ (r.setWidth n).setWidth w).getLsbD i = false := by
    intro i hi
    simp only [BitVec.getLsbD_xor, BitVec.getLsbD_setWidth, hi, decide_true, Bool.true_and]
    by_cases hiw : i < w
    · simp [hiw]
    · simp [hiw, BitVec.getLsbD_of_ge r i (by omega)]
  have hhigh : (r ^^^ (r.setWidth n).setWidth w) >>> n = r >>> n := by
    apply BitVec.eq_of_getLsbD_eq
    intro i hi
    simp only [BitVec.getLsbD_ushiftRight, BitVec.getLsbD_xor, BitVec.getLsbD_setWidth]
    have hout : ¬ n + i < n := by omega
    simp [hout]
  calc shiftBits poly n r
      = shiftBits poly n ((r.setWidth n).setWidth w ^^^ (r ^^^ (r.setWidth n).setWidth w)) := by rw [← hsplit]
    _ = shiftBits poly n ((r.setWidth n).setWidth w) ^^^ ((r ^^^ (r.setWidth n).setWidth w) >>> n) := by
      rw [shiftBits_xor, shiftBits_of_clear poly n hclear]
    _ = shiftBits poly n ((r.setWidth n).setWidth w) ^^^ (r >>> n) := by rw [hhigh]

/-- A byte by way of a table of remainders. -/
theorem serialByte_table {table : BitVec 8 → BitVec w} (ht : ∀ i, table i = shiftBits poly 8 (i.setWidth w))
    (hw : 8 ≤ w) (r : BitVec w) (b : BitVec 8) : serialByte poly r b = (r >>> 8) ^^^ table (r.setWidth 8 ^^^ b) := by
  have hlow : (r ^^^ b.setWidth w).setWidth 8 = r.setWidth 8 ^^^ b := by
    rw [BitVec.setWidth_xor, BitVec.setWidth_setWidth_of_le b hw, BitVec.setWidth_eq]
  have hbyte : (b.setWidth w) >>> 8 = 0#w := by
    apply BitVec.eq_of_getLsbD_eq
    intro i hi
    simp only [BitVec.getLsbD_ushiftRight, BitVec.getLsbD_setWidth, BitVec.getLsbD_zero]
    rw [BitVec.getLsbD_of_ge b (8 + i) (by omega), Bool.and_false]
  rw [serialByte, shiftBits_split, hlow, ← ht, BitVec.ushiftRight_xor_distrib, hbyte, BitVec.xor_zero, BitVec.xor_comm]

end Ln882x.Crc
