import Ln882x.Ota.Lzma
import Ln882x.Runtime.Machine

/-! The range decoder over whole streams. Each bit leaves a range that one byte of the input
brings back to at least 2^24, because the probabilities stay away from 0 and from 2048. A
tree of probabilities is a run of bits along one of its paths. The code stays below the
range, except behind a direct bit that halves an odd range and finds the code at its end. -/

namespace Ln882x.Ota

open Nor
open Ln882x.Runtime (Machine)

variable {σ : Type} {read : σ → ReadCall σ}

/-- The calls of the decoder; a table of probabilities is given by where it starts. -/
inductive CoderCall
  | bit (i : ℕ)
  | bitTree (probs numLevels : ℕ)
  | reverseBitTree (probs numLevels : ℕ)
  | directBits (numTotalBits : ℕ)

def CoderCall.run (read : σ → ReadCall σ) : CoderCall → Coder σ → ℕ × Coder σ
  | .bit i, c => rangeDecoderBitDecode read i c
  | .bitTree probs numLevels, c => rangeDecoderBitTreeDecode read probs numLevels c
  | .reverseBitTree probs numLevels, c => rangeDecoderReverseBitTreeDecode read probs numLevels c
  | .directBits numTotalBits, c =>
    let r := rangeDecoderDecodeDirectBits read c.rd numTotalBits
    (r.1.toNat, { c with rd := r.2 })

/-- The range after one direct bit, before another byte is read. -/
def halved (rd : RangeDecoder σ) : RangeDecoder σ :=
  let range := rd.range >>> 1
  if rd.code ≥ range then { rd with range := range, code := rd.code - range } else { rd with range := range }

/-- One direct bit. -/
def directStep (read : σ → ReadCall σ) (rd : RangeDecoder σ) : RangeDecoder σ := normalize read (halved rd)

/-- An odd range with the code in its last place. -/
def AtOddEnd (rd : RangeDecoder σ) : Prop := rd.range.toNat % 2 = 1 ∧ rd.code.toNat + 1 = rd.range.toNat

/-- No direct bit of the call meets the end of an odd range. -/
def AvoidsOddEnd (read : σ → ReadCall σ) (c : Coder σ) : CoderCall → Prop
  | .directBits n => ∀ k < n, ¬AtOddEnd ((directStep read)^[k] c.rd)
  | _ => True

/-- The decoder with its calls. -/
def coderMachine (read : σ → ReadCall σ) : Machine (Coder σ) CoderCall ℕ where
  step c call := call.run read c
  may c call := AvoidsOddEnd read c call

/-- After `RangeDecoderInit`, with all probabilities at 1024. -/
def coderStart (read : σ → ReadCall σ) (input : σ) : Coder σ := ⟨fun _ => 1024, rangeDecoderInit read input⟩

/-- The range is large, and every probability is far from both ends. -/
structure Normal (c : Coder σ) : Prop where
  range : 2 ^ 24 ≤ c.rd.range.toNat
  prob : ∀ i, 31 ≤ c.probs i ∧ c.probs i ≤ 2017

/-- `(rd->Range >> kNumBitModelTotalBits) * (*prob)` -/
def boundOf (c : Coder σ) (i : ℕ) : UInt32 := (c.rd.range >>> 11) * UInt32.ofNat (c.probs i)

/-- The product that splits the range fits 32 bits and lies strictly inside the range. -/
structure Splits (c : Coder σ) (i : ℕ) : Prop where
  exact : (boundOf c i).toNat = c.rd.range.toNat / 2 ^ 11 * c.probs i
  pos : 0 < c.rd.range.toNat / 2 ^ 11 * c.probs i
  lt : c.rd.range.toNat / 2 ^ 11 * c.probs i < c.rd.range.toNat

/-! ### One byte -/

theorem shiftIn_toNat {code : UInt32} (b : UInt8) (h : code.toNat < 2 ^ 24) :
    ((code <<< 8) ||| b.toUInt32).toNat = code.toNat * 2 ^ 8 + b.toNat := by
  have hb : b.toNat < 2 ^ 8 := b.toNat_lt
  have hshift : (code <<< 8).toNat = 2 ^ 8 * code.toNat := by
    rw [UInt32.toNat_shiftLeft, Nat.shiftLeft_eq]
    show code.toNat * 2 ^ 8 % 2 ^ 32 = _
    rw [Nat.mod_eq_of_lt (by omega), Nat.mul_comm]
  rw [UInt32.toNat_or, hshift, UInt8.toNat_toUInt32, ← Nat.two_pow_add_eq_or_of_lt hb, Nat.mul_comm]

theorem range_shiftLeft {range : UInt32} (h : range.toNat < 2 ^ 24) : (range <<< 8).toNat = range.toNat * 2 ^ 8 := by
  rw [UInt32.toNat_shiftLeft, Nat.shiftLeft_eq]
  show range.toNat * 2 ^ 8 % 2 ^ 32 = _
  exact Nat.mod_eq_of_lt (by omega)

/-- One byte is enough for a range of at least 2^16. -/
theorem normalize_range {rd : RangeDecoder σ} (h : 2 ^ 16 ≤ rd.range.toNat) :
    2 ^ 24 ≤ (normalize read rd).range.toNat := by
  unfold normalize
  split
  · rename_i hlt
    have hlt' : rd.range.toNat < 2 ^ 24 := UInt32.lt_iff_toNat_lt.mp hlt
    show 2 ^ 24 ≤ (rd.range <<< 8).toNat
    rw [range_shiftLeft hlt']
    omega
  · rename_i hge
    have hge' : ¬rd.range.toNat < 2 ^ 24 := fun h => hge (UInt32.lt_iff_toNat_lt.mpr h)
    omega

variable (read) in
theorem shiftInByte_code (rd : RangeDecoder σ) :
    ∃ b : UInt8, (shiftInByte read rd).code = (rd.code <<< 8) ||| b.toUInt32 := by
  unfold shiftInByte rangeDecoderReadByte
  cases rd.buffer with
  | cons b rest => exact ⟨b, rfl⟩
  | nil =>
    cases hbytes : (read rd.input).bytes with
    | nil => exact ⟨0xFF, by simp [hbytes]⟩
    | cons b rest => exact ⟨b, by simp [hbytes]⟩

theorem normalize_code {rd : RangeDecoder σ} (h : rd.code < rd.range) :
    (normalize read rd).code < (normalize read rd).range := by
  unfold normalize
  split
  · rename_i hlt
    have hlt' : rd.range.toNat < 2 ^ 24 := UInt32.lt_iff_toNat_lt.mp hlt
    have hcode : rd.code.toNat < rd.range.toNat := UInt32.lt_iff_toNat_lt.mp h
    obtain ⟨b, hb⟩ := shiftInByte_code read rd
    have hbyte : b.toNat < 2 ^ 8 := b.toNat_lt
    rw [UInt32.lt_iff_toNat_lt]
    show (shiftInByte read rd).code.toNat < (rd.range <<< 8).toNat
    rw [hb, shiftIn_toNat b (by omega), range_shiftLeft hlt']
    omega
  · exact h

/-! ### One bit -/

section Bit

variable {c : Coder σ}

theorem Normal.splits (h : Normal c) (i : ℕ) : Splits c i := by
  obtain ⟨hlow, hhigh⟩ := h.prob i
  have hrange := h.range
  have htop : c.rd.range.toNat < 2 ^ 32 := c.rd.range.toNat_lt
  have hshift : (c.rd.range >>> 11).toNat = c.rd.range.toNat / 2 ^ 11 := by
    rw [UInt32.toNat_shiftRight, Nat.shiftRight_eq_div_pow]
    rfl
  have hpos : 0 < c.rd.range.toNat / 2 ^ 11 := by omega
  have hlt : c.rd.range.toNat / 2 ^ 11 * c.probs i < c.rd.range.toNat :=
    calc c.rd.range.toNat / 2 ^ 11 * c.probs i < c.rd.range.toNat / 2 ^ 11 * 2 ^ 11 :=
          Nat.mul_lt_mul_of_pos_left (by omega) hpos
      _ ≤ c.rd.range.toNat := Nat.div_mul_le_self _ _
  refine ⟨?_, Nat.mul_pos hpos (by omega), hlt⟩
  have hprob : (UInt32.ofNat (c.probs i)).toNat = c.probs i :=
    UInt32.toNat_ofNat_of_lt' (Nat.lt_of_le_of_lt hhigh (by decide))
  rw [boundOf, UInt32.toNat_mul, hshift, hprob, Nat.mod_eq_of_lt (by omega)]

/-- Both parts of a split range are large enough for one byte. -/
theorem Normal.parts (h : Normal c) (i : ℕ) : 2 ^ 16 ≤ (boundOf c i).toNat ∧
    2 ^ 16 ≤ (c.rd.range - boundOf c i).toNat := by
  have hs := h.splits i
  obtain ⟨hlow, hhigh⟩ := h.prob i
  have hrange := h.range
  have hdiv := Nat.div_mul_le_self c.rd.range.toNat (2 ^ 11)
  have hge : 2 ^ 13 ≤ c.rd.range.toNat / 2 ^ 11 := by omega
  have hfirst : c.rd.range.toNat / 2 ^ 11 * 31 ≤ c.rd.range.toNat / 2 ^ 11 * c.probs i := Nat.mul_le_mul_left _ hlow
  have hrest : c.rd.range.toNat / 2 ^ 11 * c.probs i ≤ c.rd.range.toNat / 2 ^ 11 * 2017 := Nat.mul_le_mul_left _ hhigh
  have hle : boundOf c i ≤ c.rd.range := UInt32.le_iff_toNat_le.mpr (by rw [hs.exact]; exact hs.lt.le)
  rw [UInt32.toNat_sub_of_le _ _ hle, hs.exact]
  omega

theorem prob_up {p : ℕ} (h : 31 ≤ p ∧ p ≤ 2017) : 31 ≤ p + (kBitModelTotal - p) / 32 ∧
    p + (kBitModelTotal - p) / 32 ≤ 2017 := by
  simp only [kBitModelTotal, Nat.reduceShiftLeft]
  omega

theorem prob_down {p : ℕ} (h : 31 ≤ p ∧ p ≤ 2017) : 31 ≤ p - p / 32 ∧ p - p / 32 ≤ 2017 := by
  omega

theorem Normal.update (h : Normal c) {rd : RangeDecoder σ} (hr : 2 ^ 24 ≤ rd.range.toNat) {p : ℕ}
    (hp : 31 ≤ p ∧ p ≤ 2017) (i : ℕ) : Normal ⟨Function.update c.probs i p, rd⟩ := by
  refine ⟨hr, fun j => ?_⟩
  show 31 ≤ Function.update c.probs i p j ∧ Function.update c.probs i p j ≤ 2017
  by_cases hj : j = i
  · rw [hj, Function.update_self]
    exact hp
  · rw [Function.update_of_ne hj]
    exact h.prob j

theorem Normal.bit (h : Normal c) (i : ℕ) : Normal (rangeDecoderBitDecode read i c).2 := by
  have hparts := h.parts i
  unfold rangeDecoderBitDecode
  by_cases hlt : c.rd.code < (c.rd.range >>> 11) * UInt32.ofNat (c.probs i)
  · rw [if_pos hlt]
    exact h.update (normalize_range hparts.1) (prob_up (h.prob i)) i
  · rw [if_neg hlt]
    exact h.update (normalize_range hparts.2) (prob_down (h.prob i)) i

variable (read c) in
theorem bit_lt_two (i : ℕ) : (rangeDecoderBitDecode read i c).1 < 2 := by
  unfold rangeDecoderBitDecode
  by_cases hlt : c.rd.code < (c.rd.range >>> 11) * UInt32.ofNat (c.probs i)
  · rw [if_pos hlt]
    exact Nat.zero_lt_two
  · rw [if_neg hlt]
    exact Nat.one_lt_two

/-- A bit keeps the code below the range. -/
theorem Normal.bit_code (h : Normal c) (hc : c.rd.code < c.rd.range) (i : ℕ) :
    (rangeDecoderBitDecode read i c).2.rd.code < (rangeDecoderBitDecode read i c).2.rd.range := by
  have hs := h.splits i
  unfold rangeDecoderBitDecode
  by_cases hlt : c.rd.code < (c.rd.range >>> 11) * UInt32.ofNat (c.probs i)
  · rw [if_pos hlt]
    exact normalize_code hlt
  · rw [if_neg hlt]
    have hle : boundOf c i ≤ c.rd.code := UInt32.not_lt.mp hlt
    refine normalize_code (UInt32.lt_iff_toNat_lt.mpr ?_)
    have hcode : c.rd.code.toNat < c.rd.range.toNat := UInt32.lt_iff_toNat_lt.mp hc
    have hle' := UInt32.le_iff_toNat_le.mp hle
    have hler : boundOf c i ≤ c.rd.range := UInt32.le_iff_toNat_le.mpr (by omega)
    show (c.rd.code - boundOf c i).toNat < (c.rd.range - boundOf c i).toNat
    rw [UInt32.toNat_sub_of_le _ _ hle, UInt32.toNat_sub_of_le _ _ hler]
    omega

end Bit

/-! ### Trees -/

/-- A tree decode is a run of bits, one for each level, whose probabilities have numbers from 1 to
2^n - 1 in the table, and its value has n bits. -/
structure TreeDecoded (read : σ → ReadCall σ) (c : Coder σ) (probs n : ℕ) (r : ℕ × Coder σ) : Prop where
  value : r.1 < 2 ^ n
  bits : ∃ is : List ℕ, is.length = n ∧ (∀ i ∈ is, 1 ≤ i ∧ i < 2 ^ n) ∧
    r.2 = (coderMachine read).after c (is.map fun i => .bit (probs + i))

/-- The rest of a path from node `mi`, with `n` levels to go, and the node it comes to. -/
structure Path (read : σ → ReadCall σ) (c : Coder σ) (probs n mi mi' : ℕ) (c' : Coder σ) (is : List ℕ) : Prop where
  length : is.length = n
  nodes : ∀ i ∈ is, mi ≤ i ∧ 2 * i < (mi + 1) * 2 ^ n
  ge : mi * 2 ^ n ≤ mi'
  lt : mi' < (mi + 1) * 2 ^ n
  run : c' = (coderMachine read).after c (is.map fun i => .bit (probs + i))

section Tree

variable {c c' : Coder σ} {probs n mi mi' : ℕ} {is : List ℕ}

theorem Path.nil : Path read c probs 0 mi mi c [] where
  length := rfl
  nodes := by simp
  ge := by simp
  lt := by simp
  run := rfl

/-- A bit in front of a path. -/
theorem Path.cons (h : Path read (rangeDecoderBitDecode read (probs + mi) c).2 probs n
      (mi + mi + (rangeDecoderBitDecode read (probs + mi) c).1) mi' c' is) :
    Path read c probs (n + 1) mi mi' c' (mi :: is) := by
  have hbit := bit_lt_two read c (probs + mi)
  have hpos : 0 < 2 ^ n := Nat.two_pow_pos n
  have hlow : mi * 2 ^ (n + 1) ≤ (mi + mi + (rangeDecoderBitDecode read (probs + mi) c).1) * 2 ^ n := by
    rw [pow_succ', ← Nat.mul_assoc, Nat.mul_comm mi 2]
    exact Nat.mul_le_mul_right _ (by omega)
  have hhigh : (mi + mi + (rangeDecoderBitDecode read (probs + mi) c).1 + 1) * 2 ^ n ≤ (mi + 1) * 2 ^ (n + 1) := by
    rw [pow_succ', ← Nat.mul_assoc, Nat.mul_comm (mi + 1) 2]
    exact Nat.mul_le_mul_right _ (by omega)
  refine ⟨congrArg (· + 1) h.length, ?_, hlow.trans h.ge, Nat.lt_of_lt_of_le h.lt hhigh, h.run⟩
  intro i hi
  rcases List.mem_cons.mp hi with rfl | hi
  · refine ⟨le_rfl, ?_⟩
    rw [pow_succ']
    calc 2 * i < (i + 1) * 2 := by omega
      _ ≤ (i + 1) * (2 * 2 ^ n) := Nat.mul_le_mul_left _ (by omega)
  · obtain ⟨hge, hlt⟩ := h.nodes i hi
    exact ⟨by omega, Nat.lt_of_lt_of_le hlt hhigh⟩

/-- From the root no node has number 0 or a number from 2^n on. -/
theorem Path.root_nodes (h : Path read c probs n 1 mi' c' is) : ∀ i ∈ is, 1 ≤ i ∧ i < 2 ^ n := by
  intro i hi
  obtain ⟨hge, hlt⟩ := h.nodes i hi
  exact ⟨hge, by omega⟩

variable (read probs) in
theorem bitTreeLoop_path (n mi : ℕ) (c : Coder σ) :
    ∃ is, Path read c probs n mi (bitTreeLoop read probs n mi c).1 (bitTreeLoop read probs n mi c).2 is := by
  induction n generalizing mi c with
  | zero => exact ⟨[], .nil⟩
  | succ n ih =>
    obtain ⟨is, his⟩ := ih (mi + mi + (rangeDecoderBitDecode read (probs + mi) c).1)
      (rangeDecoderBitDecode read (probs + mi) c).2
    exact ⟨mi :: is, his.cons⟩

theorem bitTree_decoded (probs n : ℕ) (c : Coder σ) :
    TreeDecoded read c probs n (rangeDecoderBitTreeDecode read probs n c) := by
  obtain ⟨is, his⟩ := bitTreeLoop_path read probs n 1 c
  have hlt := his.lt
  refine ⟨?_, is, his.length, his.root_nodes, his.run⟩
  show (bitTreeLoop read probs n 1 c).1 - 1 <<< n < 2 ^ n
  rw [Nat.one_shiftLeft]
  omega

variable (read probs) in
/-- The symbol gets one bit after the other; the path is that of the other tree decode. -/
theorem reverseBitTreeLoop_path (n k mi symbol : ℕ) (c : Coder σ) (hs : symbol < 2 ^ k) :
    (reverseBitTreeLoop read probs n k mi symbol c).1 < 2 ^ (k + n) ∧
      ∃ mi' is, Path read c probs n mi mi' (reverseBitTreeLoop read probs n k mi symbol c).2 is := by
  induction n generalizing k mi symbol c with
  | zero => exact ⟨hs, mi, [], .nil⟩
  | succ n ih =>
    have hbit := bit_lt_two read c (probs + mi)
    have hnext : symbol ||| (rangeDecoderBitDecode read (probs + mi) c).1 <<< k < 2 ^ (k + 1) := by
      refine Nat.or_lt_two_pow (Nat.lt_trans hs (Nat.pow_lt_pow_right one_lt_two (Nat.lt_succ_self k))) ?_
      rw [Nat.shiftLeft_eq, pow_succ']
      exact Nat.mul_lt_mul_of_pos_right hbit (Nat.two_pow_pos k)
    obtain ⟨hlt, mi', is, his⟩ := ih (k + 1) (mi + mi + (rangeDecoderBitDecode read (probs + mi) c).1) _
      (rangeDecoderBitDecode read (probs + mi) c).2 hnext
    refine ⟨?_, mi', mi :: is, his.cons⟩
    rw [show k + (n + 1) = k + 1 + n by omega]
    exact hlt

theorem reverseBitTree_decoded (probs n : ℕ) (c : Coder σ) :
    TreeDecoded read c probs n (rangeDecoderReverseBitTreeDecode read probs n c) := by
  obtain ⟨hlt, mi', is, his⟩ := reverseBitTreeLoop_path read probs n 0 1 0 c Nat.one_pos
  rw [Nat.zero_add] at hlt
  exact ⟨hlt, is, his.length, his.root_nodes, his.run⟩

end Tree

/-! ### Direct bits -/

section Direct

variable {rd : RangeDecoder σ}

theorem halved_range (rd : RangeDecoder σ) : (halved rd).range.toNat = rd.range.toNat / 2 := by
  have hshift : (rd.range >>> 1).toNat = rd.range.toNat / 2 := by
    rw [UInt32.toNat_shiftRight, Nat.shiftRight_eq_div_pow]
    rfl
  unfold halved
  by_cases hge : rd.code ≥ rd.range >>> 1
  · rw [if_pos hge]
    exact hshift
  · rw [if_neg hge]
    exact hshift

theorem directStep_range (h : 2 ^ 24 ≤ rd.range.toNat) : 2 ^ 24 ≤ (directStep read rd).range.toNat := by
  refine normalize_range ?_
  rw [halved_range]
  omega

/-- Halving keeps the code below the range, except at the end of an odd range. -/
theorem halved_code (hc : rd.code < rd.range) (hend : ¬AtOddEnd rd) : (halved rd).code < (halved rd).range := by
  have hhalf := halved_range rd
  have hcode : rd.code.toNat < rd.range.toNat := UInt32.lt_iff_toNat_lt.mp hc
  rw [UInt32.lt_iff_toNat_lt, hhalf]
  unfold halved at hhalf ⊢
  by_cases hge : rd.code ≥ rd.range >>> 1
  · rw [if_pos hge] at hhalf ⊢
    have hle := UInt32.le_iff_toNat_le.mp hge
    simp only at hhalf ⊢
    rw [UInt32.toNat_sub_of_le _ _ hge]
    rw [AtOddEnd] at hend
    omega
  · rw [if_neg hge] at hhalf ⊢
    have hlt := UInt32.lt_iff_toNat_lt.mp (UInt32.not_le.mp hge)
    simp only at hhalf ⊢
    omega

theorem directBitsLoop_rd (n : ℕ) (result : UInt32) (rd : RangeDecoder σ) :
    (directBitsLoop read n result rd).2 = (directStep read)^[n] rd := by
  induction n generalizing result rd with
  | zero => rfl
  | succ n ih =>
    rw [Function.iterate_succ_apply, directBitsLoop]
    by_cases hge : rd.code ≥ rd.range >>> 1
    · simp only [if_pos hge]
      rw [ih, directStep, halved, if_pos hge]
    · simp only [if_neg hge]
      rw [ih, directStep, halved, if_neg hge]

theorem iterate_range (n : ℕ) (h : 2 ^ 24 ≤ rd.range.toNat) : 2 ^ 24 ≤ ((directStep read)^[n] rd).range.toNat := by
  induction n with
  | zero => exact h
  | succ n ih =>
    rw [Function.iterate_succ_apply']
    exact directStep_range ih

theorem iterate_code (n : ℕ) (hc : rd.code < rd.range) (hend : ∀ k < n, ¬AtOddEnd ((directStep read)^[k] rd)) :
    ((directStep read)^[n] rd).code < ((directStep read)^[n] rd).range := by
  induction n with
  | zero => exact hc
  | succ n ih =>
    rw [Function.iterate_succ_apply']
    have hbefore := ih fun k hk => hend k (Nat.lt_succ_of_lt hk)
    exact normalize_code (halved_code hbefore (hend n (Nat.lt_succ_self n)))

end Direct

/-! ### Calls -/

section Calls

variable {c : Coder σ}

/-- What every bit keeps, a run of bits keeps. -/
theorem after_bits {I : Coder σ → Prop} (h : ∀ c i, I c → I (rangeDecoderBitDecode read i c).2) (hc : I c) (probs : ℕ)
    (is : List ℕ) : I ((coderMachine read).after c (is.map fun i => .bit (probs + i))) := by
  induction is generalizing c with
  | nil => exact hc
  | cons i is ih => exact ih (h c (probs + i) hc)

theorem TreeDecoded.keeps {I : Coder σ → Prop} (h : ∀ c i, I c → I (rangeDecoderBitDecode read i c).2) (hc : I c)
    {probs n : ℕ} {r : ℕ × Coder σ} (hr : TreeDecoded read c probs n r) : I r.2 := by
  obtain ⟨is, -, -, hrun⟩ := hr.bits
  rw [hrun]
  exact after_bits h hc probs is

theorem Normal.call (h : Normal c) (call : CoderCall) : Normal (call.run read c).2 := by
  cases call with
  | bit i => exact h.bit i
  | bitTree probs n => exact (bitTree_decoded probs n c).keeps (I := Normal) (fun _ i hc => hc.bit i) h
  | reverseBitTree probs n => exact (reverseBitTree_decoded probs n c).keeps (I := Normal) (fun _ i hc => hc.bit i) h
  | directBits n =>
    refine ⟨?_, h.prob⟩
    show 2 ^ 24 ≤ (directBitsLoop read n 0 c.rd).2.range.toNat
    rw [directBitsLoop_rd]
    exact iterate_range n h.range

/-- Normal, with the code below the range. -/
def Below (c : Coder σ) : Prop := Normal c ∧ c.rd.code < c.rd.range

theorem below_bit (c : Coder σ) (i : ℕ) (h : Below c) : Below (rangeDecoderBitDecode read i c).2 :=
  ⟨h.1.bit i, h.1.bit_code h.2 i⟩

theorem below_call : (coderMachine read).Keeps Below := by
  intro c call h hends
  cases call with
  | bit i => exact below_bit c i h
  | bitTree probs n => exact (bitTree_decoded probs n c).keeps below_bit h
  | reverseBitTree probs n => exact (reverseBitTree_decoded probs n c).keeps below_bit h
  | directBits n =>
    refine ⟨h.1.call (.directBits n), ?_⟩
    show (directBitsLoop read n 0 c.rd).2.code < (directBitsLoop read n 0 c.rd).2.range
    rw [directBitsLoop_rd]
    exact iterate_code n h.2 hends

theorem shiftInByte_range (rd : RangeDecoder σ) : (shiftInByte read rd).range = rd.range := by
  unfold shiftInByte rangeDecoderReadByte
  cases rd.buffer with
  | cons b rest => rfl
  | nil => cases hbytes : (read rd.input).bytes <;> simp [hbytes]

theorem normal_start (input : σ) : Normal (coderStart read input) := by
  refine ⟨?_, fun i => by simp [coderStart]⟩
  have hrange : (rangeDecoderInit read input).range = 0xFFFFFFFF := by
    simp only [rangeDecoderInit, List.range_succ, List.range_zero, List.nil_append, List.cons_append, List.foldl_cons,
      List.foldl_nil, shiftInByte_range]
  rw [coderStart, hrange]
  decide

end Calls

end Ln882x.Ota
