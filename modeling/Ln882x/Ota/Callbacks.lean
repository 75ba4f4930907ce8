import Ln882x.Ota.Lzma

/-! The decoder and its input. All a decoder learns of its input it learns
through the read callback, so two callbacks that agree on the states in which
they are called make the same decoder, and a property of these states that every
call of the callback keeps is kept by the decoder. The output is bounded by the
size asked for. -/

namespace Ln882x.Ota

open Nor

variable {σ τ α : Type} {I : σ → Prop} {r₁ r₂ : σ → ReadCall σ}

/-- Two callbacks that do the same on the states of `I` and stay in them. -/
structure Agree (I : σ → Prop) (r₁ r₂ : σ → ReadCall σ) : Prop where
  eq : ∀ s, I s → r₁ s = r₂ s
  next : ∀ s, I s → I (r₁ s).next

/-! ### The range decoder -/

/-- The same result, with the input still in `I`. -/
def Alike (I : σ → Prop) (x y : α × RangeDecoder σ) : Prop := x = y ∧ I x.2.input

/-- The same for a decoder with its probabilities. -/
def AlikeC (I : σ → Prop) (x y : α × Coder σ) : Prop := x = y ∧ I x.2.rd.input

theorem AlikeC.of {β : Type} {x : α × Coder σ} (b : β) (h : I x.2.rd.input) : AlikeC I (b, x.2) (b, x.2) := ⟨rfl, h⟩

theorem Agree.readByte (h : Agree I r₁ r₂) {d : RangeDecoder σ} (hi : I d.input) :
    Alike I (rangeDecoderReadByte r₁ d) (rangeDecoderReadByte r₂ d) := by
  have heq := h.eq _ hi
  have hnext := h.next _ hi
  unfold rangeDecoderReadByte
  rw [← heq]
  cases d.buffer with
  | cons b rest => exact ⟨rfl, hi⟩
  | nil =>
    dsimp only
    cases (r₁ d.input).bytes with
    | cons b rest => exact ⟨rfl, hnext⟩
    | nil => exact ⟨rfl, hnext⟩

theorem Agree.shiftInByte (h : Agree I r₁ r₂) {d : RangeDecoder σ} (hi : I d.input) :
    shiftInByte r₁ d = shiftInByte r₂ d ∧ I (shiftInByte r₁ d).input := by
  obtain ⟨heq, hin⟩ := h.readByte hi
  constructor
  · rw [Ota.shiftInByte, Ota.shiftInByte, heq]
  · exact hin

theorem Agree.normalize (h : Agree I r₁ r₂) {d : RangeDecoder σ} (hi : I d.input) :
    normalize r₁ d = normalize r₂ d ∧ I (normalize r₁ d).input := by
  obtain ⟨heq, hin⟩ := h.shiftInByte hi
  unfold Ota.normalize
  split_ifs
  · rw [heq] at hin ⊢
    exact ⟨rfl, hin⟩
  · exact ⟨rfl, hi⟩

theorem Agree.rangeDecoderInit (h : Agree I r₁ r₂) {s : σ} (hi : I s) :
    rangeDecoderInit r₁ s = rangeDecoderInit r₂ s ∧ I (rangeDecoderInit r₁ s).input := by
  have hfold (l : List ℕ) (rd : RangeDecoder σ) (hin : I rd.input) :
      l.foldl (fun rd _ => Ota.shiftInByte r₁ rd) rd = l.foldl (fun rd _ => Ota.shiftInByte r₂ rd) rd ∧
        I (l.foldl (fun rd _ => Ota.shiftInByte r₁ rd) rd).input := by
    induction l generalizing rd with
    | nil => exact ⟨rfl, hin⟩
    | cons _ l ih =>
      obtain ⟨heq, hnext⟩ := h.shiftInByte hin
      rw [List.foldl_cons, List.foldl_cons, ← heq]
      exact ih _ hnext
  exact hfold _ _ hi

/-- The start of a stream calls the callback: what holds after its first call is kept. -/
theorem Agree.init_called (h : Agree I r₁ r₁) {s : σ} (hi : I (r₁ s).next) : I (Ota.rangeDecoderInit r₁ s).input := by
  have hfirst : I (Ota.shiftInByte r₁ ⟨[], 0xFFFFFFFF, 0, true, false, s⟩).input := by
    unfold Ota.shiftInByte rangeDecoderReadByte
    dsimp only
    cases (r₁ s).bytes with
    | cons b rest => exact hi
    | nil => exact hi
  have hrange : List.range 5 = [0, 1, 2, 3, 4] := rfl
  unfold Ota.rangeDecoderInit
  rw [hrange, List.foldl_cons]
  generalize Ota.shiftInByte r₁ ⟨[], 0xFFFFFFFF, 0, true, false, s⟩ = d at hfirst
  exact (h.shiftInByte (h.shiftInByte (h.shiftInByte (h.shiftInByte hfirst).2).2).2).2

theorem Agree.directBits (h : Agree I r₁ r₂) (n : ℕ) (result : UInt32) {d : RangeDecoder σ} (hi : I d.input) :
    Alike I (directBitsLoop r₁ n result d) (directBitsLoop r₂ n result d) := by
  induction n generalizing result d with
  | zero => exact ⟨rfl, hi⟩
  | succ n ih =>
    rw [directBitsLoop, directBitsLoop]
    split_ifs
    · obtain ⟨heq, hin⟩ :=
        h.normalize (d := { d with range := d.range >>> 1, code := d.code - d.range >>> 1 }) hi
      rw [← heq]
      exact ih _ hin
    · obtain ⟨heq, hin⟩ := h.normalize (d := { d with range := d.range >>> 1 }) hi
      rw [← heq]
      exact ih _ hin

theorem Agree.bitDecode (h : Agree I r₁ r₂) (i : ℕ) {c : Coder σ} (hi : I c.rd.input) :
    AlikeC I (rangeDecoderBitDecode r₁ i c) (rangeDecoderBitDecode r₂ i c) := by
  unfold rangeDecoderBitDecode
  dsimp only
  generalize (c.rd.range >>> 11) * UInt32.ofNat (c.probs i) = bound
  split_ifs
  · obtain ⟨heq, hin⟩ := h.normalize (d := { c.rd with range := bound }) hi
    rw [← heq]
    exact ⟨rfl, hin⟩
  · obtain ⟨heq, hin⟩ :=
      h.normalize (d := { c.rd with range := c.rd.range - bound, code := c.rd.code - bound }) hi
    rw [← heq]
    exact ⟨rfl, hin⟩

theorem Agree.bitTree (h : Agree I r₁ r₂) (probs n mi : ℕ) {c : Coder σ} (hi : I c.rd.input) :
    AlikeC I (bitTreeLoop r₁ probs n mi c) (bitTreeLoop r₂ probs n mi c) := by
  induction n generalizing mi c with
  | zero => exact ⟨rfl, hi⟩
  | succ n ih =>
    obtain ⟨heq, hin⟩ := h.bitDecode (probs + mi) hi
    rw [bitTreeLoop, bitTreeLoop, ← heq]
    exact ih _ hin

theorem Agree.bitTreeDecode (h : Agree I r₁ r₂) (probs n : ℕ) {c : Coder σ} (hi : I c.rd.input) :
    AlikeC I (rangeDecoderBitTreeDecode r₁ probs n c) (rangeDecoderBitTreeDecode r₂ probs n c) := by
  obtain ⟨heq, hin⟩ := h.bitTree probs n 1 hi
  rw [rangeDecoderBitTreeDecode, rangeDecoderBitTreeDecode, ← heq]
  exact ⟨rfl, hin⟩

theorem Agree.reverseBitTree (h : Agree I r₁ r₂) (probs n i mi symbol : ℕ) {c : Coder σ} (hi : I c.rd.input) :
    AlikeC I (reverseBitTreeLoop r₁ probs n i mi symbol c) (reverseBitTreeLoop r₂ probs n i mi symbol c) := by
  induction n generalizing i mi symbol c with
  | zero => exact ⟨rfl, hi⟩
  | succ n ih =>
    obtain ⟨heq, hin⟩ := h.bitDecode (probs + mi) hi
    rw [reverseBitTreeLoop, reverseBitTreeLoop, ← heq]
    exact ih _ _ _ hin

theorem Agree.literal (h : Agree I r₁ r₂) (probs n symbol : ℕ) {c : Coder σ} (hi : I c.rd.input) :
    AlikeC I (literalLoop r₁ probs n symbol c) (literalLoop r₂ probs n symbol c) := by
  induction n generalizing symbol c with
  | zero => exact ⟨rfl, hi⟩
  | succ n ih =>
    obtain ⟨heq, hin⟩ := h.bitDecode (probs + symbol) hi
    rw [literalLoop, literalLoop, ← heq]
    split_ifs
    · exact ih _ hin
    · exact ⟨rfl, hi⟩

theorem Agree.literalMatch (h : Agree I r₁ r₂) (probs n symbol : ℕ) (matchByte : UInt8) {c : Coder σ} (hi : I c.rd.input) :
    AlikeC I (literalMatchLoop r₁ probs n symbol matchByte c) (literalMatchLoop r₂ probs n symbol matchByte c) := by
  induction n generalizing symbol matchByte c with
  | zero => exact ⟨rfl, hi⟩
  | succ n ih =>
    rw [literalMatchLoop, literalMatchLoop]
    dsimp only
    obtain ⟨heq, hin⟩ := h.bitDecode (probs + ((1 + ((matchByte >>> 7) &&& 1).toNat) <<< 8) + symbol) hi
    rw [← heq]
    split_ifs
    · exact h.literal _ _ _ hin
    · exact ih _ _ hin
    · exact ⟨rfl, hi⟩

theorem Agree.literalDecode (h : Agree I r₁ r₂) (probs : ℕ) {c : Coder σ} (hi : I c.rd.input) :
    AlikeC I (xzLiteralDecode r₁ probs c) (xzLiteralDecode r₂ probs c) := by
  obtain ⟨heq, hin⟩ := h.literal probs 8 1 hi
  rw [xzLiteralDecode, xzLiteralDecode, ← heq]
  exact ⟨rfl, hin⟩

theorem Agree.literalDecodeMatch (h : Agree I r₁ r₂) (probs : ℕ) (matchByte : UInt8) {c : Coder σ} (hi : I c.rd.input) :
    AlikeC I (xzLiteralDecodeMatch r₁ probs matchByte c) (xzLiteralDecodeMatch r₂ probs matchByte c) := by
  obtain ⟨heq, hin⟩ := h.literalMatch probs 8 1 matchByte hi
  rw [xzLiteralDecodeMatch, xzLiteralDecodeMatch, ← heq]
  exact ⟨rfl, hin⟩

theorem Agree.lenDecode (h : Agree I r₁ r₂) (p posState : ℕ) {c : Coder σ} (hi : I c.rd.input) :
    AlikeC I (xzLenDecode r₁ p posState c) (xzLenDecode r₂ p posState c) := by
  obtain ⟨heq, hin⟩ := h.bitDecode (p + lenChoice) hi
  obtain ⟨heq2, hin2⟩ := h.bitDecode (p + lenChoice2) hin
  unfold xzLenDecode
  dsimp only
  rw [← heq, ← heq2]
  split_ifs
  · exact h.bitTreeDecode _ _ hin
  · obtain ⟨heq3, hin3⟩ := h.bitTreeDecode (p + lenMid + (posState <<< 3)) 3 hin2
    rw [← heq3]
    exact .of _ hin3
  · obtain ⟨heq3, hin3⟩ := h.bitTreeDecode (p + lenHigh) 8 hin2
    rw [← heq3]
    exact .of _ hin3

/-! ### The decoder -/

theorem input_copy (n : ℕ) (l : XzLocals σ) : (XzLocals.copy n l).vs.coder = l.vs.coder := by
  induction n generalizing l with
  | zero => rfl
  | succ n ih => exact ih l.copyByte

theorem input_copyMatch (l : XzLocals σ) (len outSize : ℕ) : (l.copyMatch len outSize).vs.coder = l.vs.coder :=
  input_copy _ l

/-- The callback's state after a round. -/
def XzRound.input : XzRound σ → σ
  | .next l => l.vs.coder.rd.input
  | .stop l => l.vs.coder.rd.input
  | .fail _ input => input

theorem input_xzDecodeMatch (l : XzLocals σ) (len outSize : ℕ) :
    (xzDecodeMatch l len outSize).input = l.vs.coder.rd.input := by
  unfold xzDecodeMatch
  split_ifs
  · rfl
  · rfl
  · simp only [XzRound.input, input_copyMatch]

theorem Agree.decodeLiteral (h : Agree I r₁ r₂) (l : XzLocals σ) {c : Coder σ} (hi : I c.rd.input) :
    xzDecodeLiteral r₁ l c = xzDecodeLiteral r₂ l c ∧ I (xzDecodeLiteral r₁ l c).vs.coder.rd.input := by
  unfold xzDecodeLiteral
  dsimp only
  generalize literalProbs + _ = probs
  generalize (if l.vs.state < 4 then 0 else if l.vs.state < 10 then l.vs.state - 3 else l.vs.state - 6) = state
  split_ifs
  · obtain ⟨heq, hin⟩ := h.literalDecodeMatch probs (l.vs.dictionary l.vs.matchPos) hi
    rw [← heq]
    exact ⟨rfl, hin⟩
  · obtain ⟨heq, hin⟩ := h.literalDecode probs hi
    rw [← heq]
    exact ⟨rfl, hin⟩

theorem Agree.decodeDistance (h : Agree I r₁ r₂) (len : ℕ) {c : Coder σ} (hi : I c.rd.input) :
    AlikeC I (xzDecodeDistance r₁ len c) (xzDecodeDistance r₂ len c) := by
  unfold xzDecodeDistance
  dsimp only
  obtain ⟨heq, hin⟩ := h.bitTreeDecode (posSlotProbs + ((if len < 4 then len else 3) <<< 6)) 6 hi
  rw [← heq]
  generalize rangeDecoderBitTreeDecode r₁ _ 6 c = slot at hin ⊢
  split_ifs
  · obtain ⟨heq2, hin2⟩ := h.reverseBitTree _ _ 0 1 0 hin
    rw [rangeDecoderReverseBitTreeDecode, rangeDecoderReverseBitTreeDecode, ← heq2]
    exact .of _ hin2
  · obtain ⟨heq2, hin2⟩ := h.directBits (slot.1 >>> 1 - 1 - 4) 0 hin
    rw [rangeDecoderDecodeDirectBits, rangeDecoderDecodeDirectBits, ← heq2]
    obtain ⟨heq3, hin3⟩ := h.reverseBitTree alignProbs 4 0 1 0 (c := { slot.2 with rd := _ }) hin2
    rw [rangeDecoderReverseBitTreeDecode, rangeDecoderReverseBitTreeDecode, ← heq3]
    exact .of _ hin3
  · exact .of _ hin

theorem Agree.decodeNewMatch (h : Agree I r₁ r₂) (l : XzLocals σ) {c : Coder σ} (posState outSize : ℕ) (hi : I c.rd.input) :
    xzDecodeNewMatch r₁ l c posState outSize = xzDecodeNewMatch r₂ l c posState outSize ∧
      I (xzDecodeNewMatch r₁ l c posState outSize).input := by
  unfold xzDecodeNewMatch
  dsimp only
  obtain ⟨heq, hin⟩ := h.lenDecode lenCoder posState hi
  rw [← heq]
  generalize xzLenDecode r₁ lenCoder posState c = len at hin ⊢
  obtain ⟨heq2, hin2⟩ := h.decodeDistance len.1 hin
  rw [← heq2]
  generalize xzDecodeDistance r₁ len.1 len.2 = dist at hin2 ⊢
  constructor
  · rfl
  · rw [input_xzDecodeMatch]
    exact hin2

theorem Agree.decodeRepLen (h : Agree I r₁ r₂) (l : XzLocals σ) {c : Coder σ} (posState outSize : ℕ) (hi : I c.rd.input) :
    xzDecodeRepLen r₁ l c posState outSize = xzDecodeRepLen r₂ l c posState outSize ∧
      I (xzDecodeRepLen r₁ l c posState outSize).input := by
  unfold xzDecodeRepLen
  obtain ⟨heq, hin⟩ := h.lenDecode repLenCoder posState hi
  rw [input_xzDecodeMatch, ← heq]
  exact ⟨rfl, hin⟩

theorem input_xzDecodeShortRep (l : XzLocals σ) (c : Coder σ) : (xzDecodeShortRep l c).input = c.rd.input := by
  unfold xzDecodeShortRep
  split
  · rfl
  · rfl

theorem Agree.decodeRep (h : Agree I r₁ r₂) (l : XzLocals σ) {c : Coder σ} (posState outSize : ℕ) (hi : I c.rd.input) :
    xzDecodeRep r₁ l c posState outSize = xzDecodeRep r₂ l c posState outSize ∧
      I (xzDecodeRep r₁ l c posState outSize).input := by
  unfold xzDecodeRep
  dsimp only
  obtain ⟨heq, hin⟩ := h.bitDecode (isRepG0 + l.vs.state) hi
  obtain ⟨heqLong, hinLong⟩ := h.bitDecode (isRep0Long + (l.vs.state <<< 4) + posState) hin
  obtain ⟨heq1, hin1⟩ := h.bitDecode (isRepG1 + l.vs.state) hin
  obtain ⟨heq2, hin2⟩ := h.bitDecode (isRepG2 + l.vs.state) hin1
  rw [← heq, ← heqLong, ← heq1, ← heq2]
  split_ifs
  · rw [input_xzDecodeShortRep]
    exact ⟨rfl, hinLong⟩
  · exact h.decodeRepLen _ _ _ hinLong
  · exact h.decodeRepLen _ _ _ hin1
  · exact h.decodeRepLen _ _ _ hin2
  · exact h.decodeRepLen _ _ _ hin2

theorem Agree.decodeRound (h : Agree I r₁ r₂) {l : XzLocals σ} (outSize : ℕ) (hi : I l.vs.coder.rd.input) :
    xzDecodeRound r₁ l outSize = xzDecodeRound r₂ l outSize ∧ I (xzDecodeRound r₁ l outSize).input := by
  unfold xzDecodeRound
  dsimp only
  generalize (l.pos &&& UInt32.ofNat (1 <<< l.vs.pb - 1)).toNat = posState
  obtain ⟨heq, hin⟩ := h.bitDecode (isMatch + (l.vs.state <<< 4) + posState) hi
  obtain ⟨heq2, hin2⟩ := h.bitDecode (isRep + l.vs.state) hin
  rw [← heq, ← heq2]
  split_ifs
  · exact ⟨rfl, hi⟩
  · exact ⟨rfl, hi⟩
  · obtain ⟨heq3, hin3⟩ := h.decodeLiteral l hin
    rw [← heq3]
    exact ⟨rfl, hin3⟩
  · exact h.decodeRep _ _ _ hin2
  · exact h.decodeNewMatch _ _ _ hin2

/-- The callback's state after the loop. -/
def loopInput : Except (XzErr × σ) (XzLocals σ) → σ
  | .ok l => l.vs.coder.rd.input
  | .error e => e.2

theorem Agree.decodeLoop (h : Agree I r₁ r₂) (outSize n : ℕ) {l : XzLocals σ} (hi : I l.vs.coder.rd.input) :
    xzDecodeLoop r₁ outSize n l = xzDecodeLoop r₂ outSize n l ∧ I (loopInput (xzDecodeLoop r₁ outSize n l)) := by
  induction n generalizing l with
  | zero => exact ⟨rfl, hi⟩
  | succ n ih =>
    obtain ⟨heq, hin⟩ := h.decodeRound outSize hi
    rw [xzDecodeLoop, xzDecodeLoop, ← heq]
    split_ifs
    · cases hround : xzDecodeRound r₁ l outSize with
      | next l' =>
        rw [hround] at hin
        exact ih hin
      | stop l' =>
        rw [hround] at hin
        exact ⟨rfl, hin⟩
      | fail e input =>
        rw [hround] at hin
        exact ⟨rfl, hin⟩
    · exact ⟨rfl, hi⟩

/-- The callback's state after a block. -/
def blockInput : Except (XzErr × σ) (Bytes × XzVarState σ) → σ
  | .ok b => b.2.coder.rd.input
  | .error e => e.2

theorem Agree.decode (h : Agree I r₁ r₂) {vs : XzVarState σ} (outSize : ℕ) (hi : I vs.coder.rd.input) :
    xzDecode r₁ vs outSize = xzDecode r₂ vs outSize ∧ I (blockInput (xzDecode r₁ vs outSize)) := by
  unfold xzDecode
  cases vs.remainLen with
  | none => exact ⟨rfl, hi⟩
  | some len =>
    dsimp only
    generalize hl : XzLocals.copyMatch (⟨vs, [], 0⟩ : XzLocals σ) len outSize = l
    have hcoder : l.vs.coder = vs.coder := by rw [← hl, input_copyMatch]
    generalize l.vs.dictionary (if l.vs.dictionaryPos = 0 then l.vs.dictionarySize - 1 else l.vs.dictionaryPos - 1) = b
    rw [← hcoder] at hi
    obtain ⟨heq, hin⟩ := h.decodeLoop outSize outSize (l := { l with previousByte := b }) hi
    rw [← heq]
    cases hloop : xzDecodeLoop r₁ outSize outSize { l with previousByte := b } with
    | ok l' =>
      rw [hloop] at hin
      exact ⟨rfl, hin⟩
    | error e =>
      rw [hloop] at hin
      exact ⟨rfl, hin⟩

/-! ### The size of a block -/

theorem length_put (l : XzLocals σ) (b : UInt8) : (l.put b).out.length = l.out.length + 1 := List.length_append

theorem length_copy (n : ℕ) (l : XzLocals σ) : (XzLocals.copy n l).out.length = l.out.length + n := by
  induction n generalizing l with
  | zero => rfl
  | succ n ih =>
    rw [XzLocals.copy, ih, XzLocals.copyByte, length_put]
    omega

theorem length_copyMatch {l : XzLocals σ} {outSize : ℕ} (len : ℕ) (h : l.out.length ≤ outSize) :
    (l.copyMatch len outSize).out.length ≤ outSize := by
  unfold XzLocals.copyMatch
  rw [length_copy]
  omega

/-- The bytes put out after a round; a failed block has none. -/
def XzRound.out : XzRound σ → Bytes
  | .next l => l.out
  | .stop l => l.out
  | .fail _ _ => []

theorem length_xzDecodeMatch {l : XzLocals σ} {outSize : ℕ} (len : ℕ) (h : l.out.length ≤ outSize) :
    (xzDecodeMatch l len outSize).out.length ≤ outSize := by
  unfold xzDecodeMatch
  split_ifs
  · exact h
  · exact Nat.zero_le outSize
  · exact length_copyMatch (len + 2) h

theorem length_xzDecodeRepLen (read : σ → ReadCall σ) {l : XzLocals σ} {outSize : ℕ} (c : Coder σ) (posState : ℕ)
    (h : l.out.length < outSize) : (xzDecodeRepLen read l c posState outSize).out.length ≤ outSize := by
  unfold xzDecodeRepLen
  apply length_xzDecodeMatch
  exact h.le

theorem length_xzDecodeRep (read : σ → ReadCall σ) {l : XzLocals σ} {outSize : ℕ} (c : Coder σ) (posState : ℕ)
    (h : l.out.length < outSize) : (xzDecodeRep read l c posState outSize).out.length ≤ outSize := by
  unfold xzDecodeRep
  dsimp only
  split_ifs
  · unfold xzDecodeShortRep
    split
    · exact Nat.zero_le outSize
    · simp only [XzRound.out, XzLocals.copyByte, length_put]
      exact h
  all_goals
    apply length_xzDecodeRepLen
    exact h

theorem length_xzDecodeNewMatch (read : σ → ReadCall σ) {l : XzLocals σ} {outSize : ℕ} (c : Coder σ) (posState : ℕ)
    (h : l.out.length < outSize) : (xzDecodeNewMatch read l c posState outSize).out.length ≤ outSize := by
  unfold xzDecodeNewMatch
  dsimp only
  generalize xzLenDecode read lenCoder posState c = len
  generalize xzDecodeDistance read len.1 len.2 = dist
  apply length_xzDecodeMatch
  exact h.le

theorem length_xzDecodeRound (read : σ → ReadCall σ) {l : XzLocals σ} {outSize : ℕ} (h : l.out.length < outSize) :
    (xzDecodeRound read l outSize).out.length ≤ outSize := by
  unfold xzDecodeRound
  dsimp only
  generalize (l.pos &&& UInt32.ofNat (1 <<< l.vs.pb - 1)).toNat = posState
  generalize rangeDecoderBitDecode read (isMatch + (l.vs.state <<< 4) + posState) l.vs.coder = m
  generalize rangeDecoderBitDecode read (isRep + l.vs.state) m.2 = rep
  split_ifs
  · exact Nat.zero_le outSize
  · exact Nat.zero_le outSize
  · simp only [XzRound.out, xzDecodeLiteral, length_put]
    exact h
  · exact length_xzDecodeRep read _ _ h
  · exact length_xzDecodeNewMatch read _ _ h

theorem length_xzDecodeLoop (read : σ → ReadCall σ) {outSize : ℕ} (n : ℕ) {l l' : XzLocals σ} (h : l.out.length ≤ outSize)
    (hl : xzDecodeLoop read outSize n l = .ok l') : l'.out.length ≤ outSize := by
  induction n generalizing l with
  | zero =>
    cases hl
    exact h
  | succ n ih =>
    rw [xzDecodeLoop] at hl
    split_ifs at hl with hlt
    · have hw := length_xzDecodeRound read hlt
      cases hround : xzDecodeRound read l outSize with
      | next l'' =>
        rw [hround] at hl hw
        exact ih hw hl
      | stop l'' =>
        rw [hround] at hl hw
        cases hl
        exact hw
      | fail e input =>
        rw [hround] at hl
        cases hl
    · cases hl
      exact h

/-- A block is not longer than asked for. -/
theorem length_xzDecode (read : σ → ReadCall σ) {vs vs' : XzVarState σ} {outSize : ℕ} {block : Bytes}
    (h : xzDecode read vs outSize = .ok (block, vs')) : block.length ≤ outSize := by
  unfold xzDecode at h
  cases hlen : vs.remainLen with
  | none =>
    rw [hlen] at h
    cases h
    exact Nat.zero_le outSize
  | some len =>
    rw [hlen] at h
    dsimp only at h
    have hl := length_copyMatch (l := (⟨vs, [], 0⟩ : XzLocals σ)) len (Nat.zero_le outSize)
    generalize XzLocals.copyMatch (⟨vs, [], 0⟩ : XzLocals σ) len outSize = l at h hl
    generalize l.vs.dictionary (if l.vs.dictionaryPos = 0 then l.vs.dictionarySize - 1 else l.vs.dictionaryPos - 1) = b at h
    cases hloop : xzDecodeLoop read outSize outSize { l with previousByte := b } with
    | ok l' =>
      rw [hloop] at h
      cases h
      exact length_xzDecodeLoop read outSize (l := { l with previousByte := b }) hl hloop
    | error e =>
      rw [hloop] at h
      cases h

/-! ### The stream -/

section Stream
variable {read : τ → σ → ReadCall σ} {write : Bytes → τ → τ} {outSize : ℕ}

/-- What no write can bring about holds before the loop if it holds after it. -/
theorem xzBlockLoop_down {B : τ → Prop} (hB : ∀ block t, B (write block t) → B t) (n : ℕ) {pos : ℕ} {vs : XzVarState σ}
    {t : τ} (h : B (xzBlockLoop read write outSize n pos vs t).2.2) : B t := by
  induction n generalizing pos vs t with
  | zero => exact h
  | succ n ih =>
    rw [xzBlockLoop] at h
    split_ifs at h
    · cases hd : xzDecode (read t) vs (min (outSize - pos) blockBufSize) with
      | error e =>
        rw [hd] at h
        exact h
      | ok r =>
        rw [hd] at h
        dsimp only at h
        split_ifs at h
        · exact h
        · exact hB _ t (ih h)
    · exact h

/-- Two runs of the loop with data related by `R`, the second of which ends in `B`. -/
theorem xzBlockLoop_sim {υ : Type} {read₂ : υ → σ → ReadCall σ} {write₂ : Bytes → υ → υ} {R : τ → υ → Prop} {B : υ → Prop}
    (hread : ∀ t u, R t u → B u → Agree I (read t) (read₂ u))
    (hwrite : ∀ block t u, block ≠ [] → R t u → B (write₂ block u) → R (write block t) (write₂ block u))
    (hB : ∀ block u, B (write₂ block u) → B u) (n : ℕ) {pos : ℕ} {vs : XzVarState σ} {t : τ} {u : υ}
    (hi : I vs.coder.rd.input) (hR : R t u) (hend : B (xzBlockLoop read₂ write₂ outSize n pos vs u).2.2) :
    (xzBlockLoop read write outSize n pos vs t).1 = (xzBlockLoop read₂ write₂ outSize n pos vs u).1 ∧
      (xzBlockLoop read write outSize n pos vs t).2.1 = (xzBlockLoop read₂ write₂ outSize n pos vs u).2.1 ∧
      I (xzBlockLoop read write outSize n pos vs t).2.1 ∧
      R (xzBlockLoop read write outSize n pos vs t).2.2 (xzBlockLoop read₂ write₂ outSize n pos vs u).2.2 := by
  induction n generalizing pos vs t u with
  | zero => exact ⟨rfl, rfl, hi, hR⟩
  | succ n ih =>
    obtain ⟨heq, hin⟩ := (hread t u hR (xzBlockLoop_down hB (n + 1) hend)).decode (min (outSize - pos) blockBufSize) hi
    rw [xzBlockLoop] at hend ⊢
    rw [xzBlockLoop]
    rw [← heq] at hend ⊢
    split_ifs at hend ⊢ with hlt
    · cases hd : xzDecode (read t) vs (min (outSize - pos) blockBufSize) with
      | error e =>
        rw [hd] at hin
        exact ⟨rfl, rfl, hin, hR⟩
      | ok r =>
        rw [hd] at hin hend
        dsimp only at hend ⊢
        split_ifs at hend ⊢ with hnil
        · exact ⟨rfl, rfl, hin, hR⟩
        · exact ih hin (hwrite _ t u hnil hR (xzBlockLoop_down hB n hend)) hend
    · exact ⟨rfl, rfl, hi, hR⟩

/-- What the callbacks keep is kept by the loop. -/
theorem xzBlockLoop_input (hread : ∀ t, Agree I (read t) (read t)) (n : ℕ) {pos : ℕ} {vs : XzVarState σ} (t : τ)
    (hi : I vs.coder.rd.input) : I (xzBlockLoop read write outSize n pos vs t).2.1 := by
  have hread' : ∀ t u, t = u → True → Agree I (read t) (read u) := by
    rintro t _ rfl _
    exact hread t
  have hwrite : ∀ block t u, block ≠ [] → t = u → True → write block t = write block u := by
    rintro block t _ _ rfl _
    rfl
  exact (xzBlockLoop_sim hread' hwrite (fun _ _ _ => trivial) n hi (rfl : t = t) trivial).2.2.1

theorem Agree.init (h : Agree I r₁ r₂) (p : XzProps) {s : σ} (hi : I s) :
    xzInit r₁ p s = xzInit r₂ p s ∧ I (xzInit r₁ p s).coder.rd.input := by
  obtain ⟨heq, hin⟩ := h.rangeDecoderInit hi
  constructor
  · rw [xzInit, xzInit, heq]
  · exact hin

theorem Agree.xzInit_called (h : Agree I r₁ r₁) (p : XzProps) {s : σ} (hi : I (r₁ s).next) :
    I (xzInit r₁ p s).coder.rd.input := h.init_called hi

variable {υ : Type} {read₂ : υ → σ → ReadCall σ} {write₂ : Bytes → υ → υ} {R : τ → υ → Prop} {B : υ → Prop}

/-- Two decoders whose data are related from block to block agree. -/
theorem xzDecompressBufToBuf_sim (hread : ∀ t u, R t u → B u → Agree I (read t) (read₂ u))
    (hwrite : ∀ block t u, block ≠ [] → R t u → B (write₂ block u) → R (write block t) (write₂ block u))
    (hB : ∀ block u, B (write₂ block u) → B u) (header : Bytes) {s : σ} {t : τ} {u : υ} (hi : I s) (hR : R t u)
    (hend : B (xzDecompressBufToBuf read₂ write₂ header s u).2.2) :
    (xzDecompressBufToBuf read write header s t).1 = (xzDecompressBufToBuf read₂ write₂ header s u).1 ∧
      (xzDecompressBufToBuf read write header s t).2.1 = (xzDecompressBufToBuf read₂ write₂ header s u).2.1 ∧
      I (xzDecompressBufToBuf read write header s t).2.1 ∧
      R (xzDecompressBufToBuf read write header s t).2.2 (xzDecompressBufToBuf read₂ write₂ header s u).2.2 := by
  unfold xzDecompressBufToBuf at hend ⊢
  cases hp : xzProps header with
  | error e => exact ⟨rfl, rfl, hi, hR⟩
  | ok p =>
    rw [hp] at hend
    obtain ⟨heq, hin⟩ := (hread t u hR (xzBlockLoop_down hB p.outSize hend)).init p hi
    dsimp only at hend ⊢
    rw [← heq] at hend ⊢
    exact xzBlockLoop_sim hread hwrite hB p.outSize hin hR hend

end Stream

end Ln882x.Ota
