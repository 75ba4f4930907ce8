import Mathlib.Tactic.IntervalCases
import Ln882x.Ota.Lzma

/-! The memory that the LZMA decoder touches. Beside each function of the
decoder stands the list of its accesses, in the order of the source: the
probability that a bit is decoded with, the cells of the dictionary, and the
bytes of the block. The indices are kept as the source computes them. A decoder
that has put out `k` bytes has them at `k` modulo the dictionary, and its
distance reaches back at most `k`: so every index is in its array, except that of
a byte copied from further back than the dictionary is long. -/

namespace Ln882x.Ota

open Nor

/-! ### The accesses -/

inductive Access where
  /-- The probability `p[i]`. -/
  | prob (i : ℕ)
  | dict (i : UInt32)
  /-- The byte of the dictionary that lies `distance` back. -/
  | matched (distance i : UInt32)
  /-- The byte `i` of an output block of `size` bytes. -/
  | out (i size : ℕ)
  deriving DecidableEq

section Decoder
variable {σ : Type} (read : σ → ReadCall σ)

/-- The probabilities of a bit tree. A reverse bit tree goes through the same ones. -/
def bitTreeAccesses (probs : ℕ) : ℕ → ℕ → Coder σ → List Access
  | 0, _, _ => []
  | n + 1, mi, c =>
    let r := rangeDecoderBitDecode read (probs + mi) c
    .prob (probs + mi) :: bitTreeAccesses probs n (mi + mi + r.1) r.2

def literalAccesses (probs : ℕ) : ℕ → ℕ → Coder σ → List Access
  | 0, _, _ => []
  | n + 1, symbol, c =>
    if symbol < 0x100 then
      let r := rangeDecoderBitDecode read (probs + symbol) c
      .prob (probs + symbol) :: literalAccesses probs n (symbol + symbol ||| r.1) r.2
    else []

def literalMatchAccesses (probs : ℕ) : ℕ → ℕ → UInt8 → Coder σ → List Access
  | 0, _, _, _ => []
  | n + 1, symbol, matchByte, c =>
    if symbol < 0x100 then
      let matchBit := ((matchByte >>> 7) &&& 1).toNat
      let i := probs + ((1 + matchBit) <<< 8) + symbol
      let r := rangeDecoderBitDecode read i c
      let symbol := symbol <<< 1 ||| r.1
      .prob i ::
        if matchBit ≠ r.1 then literalAccesses read probs n symbol r.2
        else literalMatchAccesses probs n symbol (matchByte <<< 1) r.2
    else []

def xzLenAccesses (p posState : ℕ) (c : Coder σ) : List Access :=
  let r := rangeDecoderBitDecode read (p + lenChoice) c
  .prob (p + lenChoice) ::
    if r.1 = 0 then bitTreeAccesses read (p + lenLow + (posState <<< 3)) 3 1 r.2
    else
      let r := rangeDecoderBitDecode read (p + lenChoice2) r.2
      .prob (p + lenChoice2) ::
        if r.1 = 0 then bitTreeAccesses read (p + lenMid + (posState <<< 3)) 3 1 r.2
        else bitTreeAccesses read (p + lenHigh) 8 1 r.2

def xzDistanceAccesses (len : ℕ) (c : Coder σ) : List Access :=
  let slots := posSlotProbs + ((if len < 4 then len else 3) <<< 6)
  let r := rangeDecoderBitTreeDecode read slots 6 c
  let posSlot := r.1
  let numDirectBits := posSlot >>> 1 - 1
  let rep0 : UInt32 := (2 ||| UInt32.ofNat (posSlot &&& 1)) <<< UInt32.ofNat numDirectBits
  bitTreeAccesses read slots 6 1 c ++
    if posSlot ≥ 4 then
      if posSlot < 14 then bitTreeAccesses read (specPos + rep0.toNat - posSlot - 1) numDirectBits 1 r.2
      else
        let d := rangeDecoderDecodeDirectBits read r.2.rd (numDirectBits - 4)
        bitTreeAccesses read alignProbs 4 1 { r.2 with rd := d.2 }
    else []

/-- A byte copied: read in the dictionary, then written there and to the block. -/
def XzLocals.copyByteAccesses (l : XzLocals σ) (outSize : ℕ) : List Access :=
  [.matched l.vs.rep0 l.vs.matchPos, .dict l.vs.dictionaryPos, .out l.out.length outSize]

def XzLocals.copyAccesses (outSize : ℕ) : ℕ → XzLocals σ → List Access
  | 0, _ => []
  | n + 1, l => l.copyByteAccesses outSize ++ XzLocals.copyAccesses outSize n l.copyByte

def XzLocals.copyMatchAccesses (l : XzLocals σ) (len outSize : ℕ) : List Access :=
  XzLocals.copyAccesses outSize (min len (outSize - l.out.length)) l

def xzLiteralAccesses (l : XzLocals σ) (c : Coder σ) (outSize : ℕ) : List Access :=
  let vs := l.vs
  let probs := literalProbs + xzLitSize *
    (((l.pos &&& UInt32.ofNat (1 <<< vs.lp - 1)).toNat <<< vs.lc) + (l.previousByte.toNat >>> (8 - vs.lc)))
  (if vs.previousIsMatch then
      .matched vs.rep0 vs.matchPos :: literalMatchAccesses read probs 8 1 (vs.dictionary vs.matchPos) c
    else literalAccesses read probs 8 1 c) ++
  [.out l.out.length outSize, .dict vs.dictionaryPos]

def xzMatchAccesses (l : XzLocals σ) (len outSize : ℕ) : List Access :=
  if l.vs.rep0 = 0 then []
  else if l.vs.rep0 > l.pos then []
  else l.copyMatchAccesses (len + 2) outSize

def xzRepLenAccesses (l : XzLocals σ) (c : Coder σ) (posState outSize : ℕ) : List Access :=
  let len := xzLenDecode read repLenCoder posState c
  xzLenAccesses read repLenCoder posState c ++
    xzMatchAccesses { l with vs := { l.vs with coder := len.2, state := if l.vs.state < 7 then 8 else 11 } } len.1 outSize

def xzShortRepAccesses (l : XzLocals σ) (c : Coder σ) (outSize : ℕ) : List Access :=
  if l.pos = 0 then []
  else { l with vs := { l.vs with coder := c, state := if l.vs.state < 7 then 9 else 11 } }.copyByteAccesses outSize

def xzRepAccesses (l : XzLocals σ) (c : Coder σ) (posState outSize : ℕ) : List Access :=
  let vs := l.vs
  let g0 := rangeDecoderBitDecode read (isRepG0 + vs.state) c
  .prob (isRepG0 + vs.state) ::
    if g0.1 = 0 then
      let long := rangeDecoderBitDecode read (isRep0Long + (vs.state <<< 4) + posState) g0.2
      .prob (isRep0Long + (vs.state <<< 4) + posState) ::
        if long.1 = 0 then xzShortRepAccesses l long.2 outSize else xzRepLenAccesses read l long.2 posState outSize
    else
      let g1 := rangeDecoderBitDecode read (isRepG1 + vs.state) g0.2
      .prob (isRepG1 + vs.state) ::
        if g1.1 = 0 then
          xzRepLenAccesses read { l with vs := { vs with rep0 := vs.rep1, rep1 := vs.rep0 } } g1.2 posState outSize
        else
          let g2 := rangeDecoderBitDecode read (isRepG2 + vs.state) g1.2
          .prob (isRepG2 + vs.state) ::
            if g2.1 = 0 then
              xzRepLenAccesses read { l with vs := { vs with rep0 := vs.rep2, rep1 := vs.rep0, rep2 := vs.rep1 } } g2.2
                posState outSize
            else
              xzRepLenAccesses read
                { l with vs := { vs with rep0 := vs.rep3, rep1 := vs.rep0, rep2 := vs.rep1, rep3 := vs.rep2 } } g2.2
                posState outSize

def xzNewMatchAccesses (l : XzLocals σ) (c : Coder σ) (posState outSize : ℕ) : List Access :=
  let vs := l.vs
  let len := xzLenDecode read lenCoder posState c
  let dist := xzDecodeDistance read len.1 len.2
  xzLenAccesses read lenCoder posState c ++ xzDistanceAccesses read len.1 len.2 ++
    xzMatchAccesses
      { l with
        vs :=
          { vs with
            coder := dist.2
            state := if vs.state < 7 then 7 else 10
            rep0 := dist.1
            rep1 := vs.rep0
            rep2 := vs.rep1
            rep3 := vs.rep2 } } len.1 outSize

def xzRoundAccesses (l : XzLocals σ) (outSize : ℕ) : List Access :=
  let posState := (l.pos &&& UInt32.ofNat (1 <<< l.vs.pb - 1)).toNat
  if !l.vs.coder.rd.readCbRet then []
  else if l.vs.coder.rd.extraBytes then []
  else
    let i := isMatch + (l.vs.state <<< 4) + posState
    let m := rangeDecoderBitDecode read i l.vs.coder
    .prob i ::
      if m.1 = 0 then xzLiteralAccesses read l m.2 outSize
      else
        let l := { l with vs := { l.vs with previousIsMatch := true } }
        let rep := rangeDecoderBitDecode read (isRep + l.vs.state) m.2
        .prob (isRep + l.vs.state) ::
          if rep.1 = 1 then xzRepAccesses read l rep.2 posState outSize
          else xzNewMatchAccesses read l rep.2 posState outSize

def xzLoopAccesses (outSize : ℕ) : ℕ → XzLocals σ → List Access
  | 0, _ => []
  | n + 1, l =>
    if l.out.length < outSize then
      xzRoundAccesses read l outSize ++
        match xzDecodeRound read l outSize with
        | .next l => xzLoopAccesses outSize n l
        | .stop _ => []
        | .fail _ _ => []
    else []

/-- The accesses of a call of `xz_decode`. -/
def xzDecodeAccesses (vs : XzVarState σ) (outSize : ℕ) : List Access :=
  match vs.remainLen with
  | none => []
  | some len =>
    let l := XzLocals.copyMatch ⟨vs, [], 0⟩ len outSize
    let last := if l.vs.dictionaryPos = 0 then l.vs.dictionarySize - 1 else l.vs.dictionaryPos - 1
    XzLocals.copyMatchAccesses ⟨vs, [], 0⟩ len outSize ++ .dict last ::
      xzLoopAccesses read outSize outSize { l with previousByte := l.vs.dictionary last }

end Decoder

section Stream
variable {σ τ : Type} (read : τ → σ → ReadCall σ) (write : Bytes → τ → τ)

def xzBlockAccesses (outSize : ℕ) : ℕ → ℕ → XzVarState σ → τ → List Access
  | 0, _, _, _ => []
  | n + 1, nowPos, vs, t =>
    if nowPos < outSize then
      let size := min (outSize - nowPos) blockBufSize
      xzDecodeAccesses (read t) vs size ++
        match xzDecode (read t) vs size with
        | .error _ => []
        | .ok (block, vs) =>
          if block = [] then [] else xzBlockAccesses outSize n (nowPos + block.length) vs (write block t)
    else []

/-- The accesses of the decoder for a stream that starts with `header`. -/
def xzAccesses (header : Bytes) (input : σ) (t : τ) : List Access :=
  match xzProps header with
  | .error _ => []
  | .ok p => xzBlockAccesses read write p.outSize p.outSize 0 (xzInit (read t) p input) t

end Stream

/-- The index of an access is in its array, and the array in its memory. -/
def Access.Within (p : XzProps) : Access → Prop
  | .prob i => i < literalProbs + (xzLitSize <<< (p.lc + p.lp)) ∧ xzVarStateSize + 2 * (i + 1) ≤ internalDataBufSize
  | .dict i => i.toNat < p.dictSize ∧ p.dictSize ≤ dictBufSize
  | .matched _ i => i.toNat < p.dictSize ∧ p.dictSize ≤ dictBufSize
  | .out i size => i < size ∧ size ≤ blockBufSize

/-! ### The probabilities -/

/-- A stream that is accepted and has a dictionary. -/
structure XzProps.Accepted (p : XzProps) : Prop where
  dict_pos : 0 < p.dictSize
  dict_le : p.dictSize ≤ dictBufSize
  out_lt : p.outSize < 2 ^ 32
  lc_le : p.lc ≤ 8
  pb_le : p.pb ≤ 4

/-- The position `distance` back, as `XzVarState.matchPos` computes it. -/
def backPos (size pos distance : UInt32) : UInt32 :=
  if pos - distance ≥ size then pos - distance + size else pos - distance

/-- What holds of every access: a byte that is copied after `k` others lies at most `k` back. -/
def Access.Fits (p : XzProps) : Access → Prop
  | .prob i => i < literalProbs + (xzLitSize <<< (p.lc + p.lp))
  | .dict i => i.toNat < p.dictSize
  | .matched distance i => ∃ k < p.outSize, distance.toNat ≤ max k 1 ∧
      i = backPos (UInt32.ofNat p.dictSize) (UInt32.ofNat (k % p.dictSize)) distance
  | .out i size => i < size ∧ size ≤ blockBufSize

section Probabilities
variable {σ : Type} (read : σ → ReadCall σ) (p : XzProps)

theorem bitDecode_le (i : ℕ) (c : Coder σ) : (rangeDecoderBitDecode read i c).1 ≤ 1 := by
  unfold rangeDecoderBitDecode
  dsimp only
  split_ifs
  · exact Nat.zero_le 1
  · exact le_rfl

theorem fits_prob {i : ℕ} (h : i < literalProbs) : (Access.prob i).Fits p := Nat.lt_of_lt_of_le h (Nat.le_add_right _ _)

/-- A tree of `n` levels under `mi` has its nodes below `(mi + 1) * 2 ^ n / 2`. -/
theorem fits_bitTree {probs bound : ℕ} (hfits : ∀ i < probs + bound, (Access.prob i).Fits p) (n mi : ℕ) (c : Coder σ)
    (h : (mi + 1) * 2 ^ n ≤ 2 * bound) : ∀ a ∈ bitTreeAccesses read probs n mi c, a.Fits p := by
  induction n generalizing mi c with
  | zero => exact fun a ha => absurd ha List.not_mem_nil
  | succ n ih =>
    have hbit := bitDecode_le read (probs + mi) c
    have hpow : 1 ≤ 2 ^ n := Nat.one_le_two_pow
    rw [bitTreeAccesses, List.forall_mem_cons]
    constructor
    · apply hfits
      have hmi : mi + 1 ≤ (mi + 1) * 2 ^ n := Nat.le_mul_of_pos_right _ hpow
      rw [pow_succ, ← mul_assoc] at h
      omega
    · apply ih
      refine le_trans ?_ h
      rw [pow_succ, mul_comm (2 ^ n) 2, ← mul_assoc]
      exact Nat.mul_le_mul_right _ (by omega)

theorem fits_tree {probs n : ℕ} (c : Coder σ) (h : probs + 2 ^ n ≤ literalProbs) :
    ∀ a ∈ bitTreeAccesses read probs n 1 c, a.Fits p := by
  have hfits (i : ℕ) (hi : i < probs + 2 ^ n) : (Access.prob i).Fits p := fits_prob p (by omega)
  exact fits_bitTree read p hfits n 1 c le_rfl

theorem fits_literal {probs : ℕ} (hfits : ∀ i < probs + 0x300, (Access.prob i).Fits p) (n symbol : ℕ) (c : Coder σ) :
    ∀ a ∈ literalAccesses read probs n symbol c, a.Fits p := by
  induction n generalizing symbol c with
  | zero => exact fun a ha => absurd ha List.not_mem_nil
  | succ n ih =>
    rw [literalAccesses]
    split_ifs with hs
    · rw [List.forall_mem_cons]
      exact ⟨hfits _ (by omega), ih _ _⟩
    · exact fun a ha => absurd ha List.not_mem_nil

theorem fits_literalMatch {probs : ℕ} (hfits : ∀ i < probs + 0x300, (Access.prob i).Fits p) (n symbol : ℕ)
    (matchByte : UInt8) (c : Coder σ) : ∀ a ∈ literalMatchAccesses read probs n symbol matchByte c, a.Fits p := by
  induction n generalizing symbol matchByte c with
  | zero => exact fun a ha => absurd ha List.not_mem_nil
  | succ n ih =>
    rw [literalMatchAccesses]
    split_ifs with hs
    · have hbit : ((matchByte >>> 7) &&& 1).toNat ≤ 1 := by
        rw [UInt8.toNat_and]
        exact Nat.and_le_right
      have hshift : (1 + ((matchByte >>> 7) &&& 1).toNat) <<< 8 ≤ 0x200 := by
        rw [Nat.shiftLeft_eq]
        omega
      rw [List.forall_mem_cons]
      constructor
      · exact hfits _ (by omega)
      · split_ifs
        · exact fits_literal read p hfits _ _ _
        · exact ih _ _ _
    · exact fun a ha => absurd ha List.not_mem_nil

theorem fits_len {q posState : ℕ} (hq : q + kNumLenProbs ≤ literalProbs) (hps : posState < 16) (c : Coder σ) :
    ∀ a ∈ xzLenAccesses read q posState c, a.Fits p := by
  have hshift : posState <<< 3 ≤ 120 := by
    rw [Nat.shiftLeft_eq]
    omega
  have hlens : lenChoice = 0 ∧ lenChoice2 = 1 ∧ lenLow = 2 ∧ lenMid = 130 ∧ lenHigh = 258 ∧ kNumLenProbs = 514 := by decide
  obtain ⟨hchoice, hchoice2, hlow, hmid, hhigh, hnum⟩ := hlens
  unfold xzLenAccesses
  dsimp only
  rw [List.forall_mem_cons]
  refine ⟨fits_prob p (by omega), ?_⟩
  split_ifs
  · exact fits_tree read p _ (by omega)
  · rw [List.forall_mem_cons]
    exact ⟨fits_prob p (by omega), fits_tree read p _ (by omega)⟩
  · rw [List.forall_mem_cons]
    exact ⟨fits_prob p (by omega), fits_tree read p _ (by omega)⟩

/-- The tables of the distance models: those of a slot end where those of the next one start. -/
theorem specPos_lt {posSlot : ℕ} (h4 : 4 ≤ posSlot) (h14 : posSlot < 14) :
    specPos + ((2 ||| UInt32.ofNat (posSlot &&& 1)) <<< UInt32.ofNat (posSlot >>> 1 - 1)).toNat - posSlot - 1 +
      2 ^ (posSlot >>> 1 - 1) ≤ alignProbs := by
  interval_cases posSlot <;> decide

theorem fits_distance (len : ℕ) (c : Coder σ) : ∀ a ∈ xzDistanceAccesses read len c, a.Fits p := by
  have hslot : posSlotProbs + ((if len < 4 then len else 3) <<< 6) + 2 ^ 6 ≤ literalProbs := by
    have hlen : (if len < 4 then len else 3) ≤ 3 := by split_ifs <;> omega
    rw [Nat.shiftLeft_eq]
    calc posSlotProbs + (if len < 4 then len else 3) * 2 ^ 6 + 2 ^ 6 ≤ posSlotProbs + 3 * 2 ^ 6 + 2 ^ 6 := by omega
      _ ≤ literalProbs := by decide
  unfold xzDistanceAccesses
  dsimp only
  generalize posSlotProbs + ((if len < 4 then len else 3) <<< 6) = slots at hslot ⊢
  rw [List.forall_mem_append]
  refine ⟨fits_tree read p c hslot, ?_⟩
  split_ifs with h4 h14
  · have hspec := specPos_lt h4 h14
    have halign : alignProbs ≤ literalProbs := by decide
    exact fits_tree read p _ (hspec.trans halign)
  · exact fits_tree read p _ (by decide)
  · exact fun a ha => absurd ha List.not_mem_nil

end Probabilities

/-! ### The state of the decoder -/

/-- The state after `k` bytes of the stream, `l.out` of them in this block. -/
structure Tracks {σ : Type} (p : XzProps) (k : ℕ) (l : XzLocals σ) : Prop where
  size : l.vs.dictionarySize = UInt32.ofNat p.dictSize
  lc : l.vs.lc = p.lc
  lp : l.vs.lp = p.lp
  pb : l.vs.pb = p.pb
  pos : l.pos = UInt32.ofNat k
  dictionaryPos : l.vs.dictionaryPos = UInt32.ofNat (k % p.dictSize)
  state : l.vs.state < 12

/-- The distance in `rep0` reaches no further than the bytes there are. -/
def Reaches {σ : Type} (k : ℕ) (l : XzLocals σ) : Prop := l.vs.rep0.toNat ≤ max k 1

section Locals
variable {σ : Type} {p : XzProps} {k : ℕ} {l : XzLocals σ}

theorem toNat_ofNat_word {n : ℕ} (h : n < 2 ^ 32) : (UInt32.ofNat n).toNat = n := by
  rw [UInt32.toNat_ofNat', Nat.mod_eq_of_lt h]

theorem XzProps.Accepted.word_dict (hp : p.Accepted) : p.dictSize < 2 ^ 32 := by
  have h := hp.dict_le
  unfold dictBufSize at h
  omega

/-- The position in the dictionary after one more byte. -/
theorem XzProps.Accepted.next_pos (hp : p.Accepted) (k : ℕ) :
    (if UInt32.ofNat (k % p.dictSize) + 1 = UInt32.ofNat p.dictSize then 0 else UInt32.ofNat (k % p.dictSize) + 1) =
      UInt32.ofNat ((k + 1) % p.dictSize) := by
  have hlt := Nat.mod_lt k hp.dict_pos
  have hword := hp.word_dict
  have hadd : UInt32.ofNat (k % p.dictSize) + 1 = UInt32.ofNat (k % p.dictSize + 1) := (UInt32.ofNat_add _ _).symm
  rw [hadd, ← Nat.mod_add_mod]
  by_cases hend : k % p.dictSize + 1 = p.dictSize
  · rw [hend, if_pos rfl, Nat.mod_self]
    rfl
  · have hne : UInt32.ofNat (k % p.dictSize + 1) ≠ UInt32.ofNat p.dictSize := by
      intro h
      have hnat := congrArg UInt32.toNat h
      rw [toNat_ofNat_word (by omega), toNat_ofNat_word hword] at hnat
      exact hend hnat
    rw [if_neg hne, Nat.mod_eq_of_lt (show k % p.dictSize + 1 < p.dictSize by omega)]

theorem Tracks.put (hp : p.Accepted) (h : Tracks p k l) (b : UInt8) : Tracks p (k + 1) (l.put b) where
  size := h.size
  lc := h.lc
  lp := h.lp
  pb := h.pb
  pos := by
    have hpos := h.pos
    unfold XzLocals.pos at hpos ⊢
    rw [UInt32.ofNat_add, ← hpos]
    simp only [XzLocals.put, List.length_append, List.length_singleton, UInt32.ofNat_add]
    ac_rfl
  dictionaryPos := by
    have hnext := hp.next_pos k
    simp only [XzLocals.put, h.dictionaryPos, h.size]
    exact hnext
  state := h.state

theorem Reaches.put (h : Reaches k l) (b : UInt8) : Reaches (k + 1) (l.put b) := by
  unfold Reaches at h ⊢
  simp only [XzLocals.put]
  omega

theorem fits_out {p : XzProps} {i size : ℕ} (h : i < size) (hs : size ≤ blockBufSize) : (Access.out i size).Fits p := ⟨h, hs⟩

theorem Tracks.fits_dict (hp : p.Accepted) (h : Tracks p k l) : (Access.dict l.vs.dictionaryPos).Fits p := by
  have hlt := Nat.mod_lt k hp.dict_pos
  have hword := hp.word_dict
  show l.vs.dictionaryPos.toNat < p.dictSize
  rw [h.dictionaryPos, toNat_ofNat_word (by omega)]
  exact hlt

theorem Tracks.fits_matched (h : Tracks p k l) (hr : Reaches k l) (hk : k < p.outSize) :
    (Access.matched l.vs.rep0 l.vs.matchPos).Fits p := by
  refine ⟨k, hk, hr, ?_⟩
  rw [← h.size, ← h.dictionaryPos]
  rfl

theorem Tracks.fits_copyByte (hp : p.Accepted) (h : Tracks p k l) (hr : Reaches k l) (hk : k < p.outSize) {outSize : ℕ}
    (hlt : l.out.length < outSize) (hs : outSize ≤ blockBufSize) : ∀ a ∈ l.copyByteAccesses outSize, a.Fits p := by
  simp only [XzLocals.copyByteAccesses, List.forall_mem_cons]
  exact ⟨h.fits_matched hr hk, h.fits_dict hp, fits_out hlt hs, fun a ha => absurd ha List.not_mem_nil⟩

end Locals

/-! ### The rounds -/

/-- The decoder in the block of `outSize` bytes at `start`. -/
structure InBlock {σ : Type} (p : XzProps) (outSize start k : ℕ) (l : XzLocals σ) : Prop extends Tracks p k l where
  base : k = start + l.out.length
  out_le : l.out.length ≤ outSize
  size_le : outSize ≤ blockBufSize
  room : start + outSize ≤ p.outSize

/-- What a round leaves if it does not fail. -/
structure XzRound.Keeps {σ : Type} (P : XzLocals σ → Prop) (r : XzRound σ) : Prop where
  next : ∀ l, r = .next l → P l
  stop : ∀ l, r = .stop l → P l

section Rounds
variable {σ : Type} {p : XzProps} {outSize start k : ℕ} {l : XzLocals σ}

theorem keeps_next {P : XzLocals σ → Prop} (h : P l) : (XzRound.next l).Keeps P where
  next := by
    rintro l' ⟨⟩
    exact h
  stop := nofun

theorem keeps_stop {P : XzLocals σ → Prop} (h : P l) : (XzRound.stop l).Keeps P where
  next := nofun
  stop := by
    rintro l' ⟨⟩
    exact h

theorem keeps_fail {P : XzLocals σ → Prop} (e : XzErr) (input : σ) : (XzRound.fail e input).Keeps P where
  next := nofun
  stop := nofun

/-- The state between two rounds. -/
def Between (p : XzProps) (outSize start : ℕ) (l : XzLocals σ) : Prop := ∃ k, InBlock p outSize start k l ∧ Reaches k l

theorem InBlock.lt_out (h : InBlock p outSize start k l) (hlt : l.out.length < outSize) : k < p.outSize := by
  have hbase := h.base
  have hroom := h.room
  omega

theorem InBlock.put (hp : p.Accepted) (h : InBlock p outSize start k l) (hlt : l.out.length < outSize) (b : UInt8) :
    InBlock p outSize start (k + 1) (l.put b) where
  toTracks := h.toTracks.put hp b
  base := by
    rw [XzLocals.put, List.length_append, h.base]
    rfl
  out_le := by
    rw [XzLocals.put, List.length_append]
    exact hlt
  size_le := h.size_le
  room := h.room

/-- The copy of a match, or of what the last block left of one. -/
theorem InBlock.copy (hp : p.Accepted) (h : InBlock p outSize start k l) (hr : Reaches k l) (n : ℕ)
    (hn : n ≤ outSize - l.out.length) :
    (∀ a ∈ XzLocals.copyAccesses outSize n l, a.Fits p) ∧ Between p outSize start (XzLocals.copy n l) := by
  induction n generalizing k l with
  | zero => exact ⟨fun a ha => absurd ha List.not_mem_nil, k, h, hr⟩
  | succ n ih =>
    have hlt : l.out.length < outSize := by omega
    have hroom : n ≤ outSize - l.copyByte.out.length := by
      rw [XzLocals.copyByte, XzLocals.put, List.length_append, List.length_singleton]
      omega
    obtain ⟨hfits, hbetween⟩ := ih (h.put hp hlt _) (hr.put _) hroom
    rw [XzLocals.copyAccesses, XzLocals.copy, List.forall_mem_append]
    exact ⟨⟨h.toTracks.fits_copyByte hp hr (h.lt_out hlt) hlt h.size_le, hfits⟩, hbetween⟩

theorem InBlock.copyMatch (hp : p.Accepted) (h : InBlock p outSize start k l) (hr : Reaches k l) (len : ℕ) :
    (∀ a ∈ l.copyMatchAccesses len outSize, a.Fits p) ∧ Between p outSize start (l.copyMatch len outSize) := by
  obtain ⟨hfits, k', hin, hreach⟩ := h.copy hp hr (min len (outSize - l.out.length)) (min_le_right _ _)
  exact ⟨hfits, k', ⟨⟨hin.size, hin.lc, hin.lp, hin.pb, hin.pos, hin.dictionaryPos, hin.state⟩, hin.base, hin.out_le,
    hin.size_le, hin.room⟩, hreach⟩

/-- The code checks a distance against the bytes there are before it copies. -/
theorem InBlock.match (hp : p.Accepted) (h : InBlock p outSize start k l) (len : ℕ) :
    (∀ a ∈ xzMatchAccesses l len outSize, a.Fits p) ∧ (xzDecodeMatch l len outSize).Keeps (Between p outSize start) := by
  unfold xzMatchAccesses xzDecodeMatch
  split_ifs with h0 hpos
  · refine ⟨fun a ha => absurd ha List.not_mem_nil, keeps_stop ⟨k, ?_, ?_⟩⟩
    · exact ⟨⟨h.size, h.lc, h.lp, h.pb, h.pos, h.dictionaryPos, h.state⟩, h.base, h.out_le, h.size_le, h.room⟩
    · show l.vs.rep0.toNat ≤ max k 1
      rw [h0]
      exact Nat.zero_le _
  · exact ⟨fun a ha => absurd ha List.not_mem_nil, keeps_fail _ _⟩
  · have hword : k < 2 ^ 32 := by
      have hbase := h.base
      have hroom := h.room
      have hout := h.out_le
      have hlt := hp.out_lt
      omega
    have hreach : Reaches k l := by
      rw [gt_iff_lt, UInt32.not_lt, UInt32.le_iff_toNat_le, h.pos, toNat_ofNat_word hword] at hpos
      exact hpos.trans (le_max_left _ _)
    obtain ⟨hfits, hbetween⟩ := h.copyMatch hp hreach (len + 2)
    exact ⟨hfits, keeps_next hbetween⟩

/-- A new state of the machine and other distances, before the distance is checked. -/
theorem InBlock.update (h : InBlock p outSize start k l) (c : Coder σ) {state : ℕ} (hs : state < 12) (r0 r1 r2 r3 : UInt32)
    (isMatch : Bool) :
    InBlock p outSize start k
      { l with
        vs :=
          { l.vs with
            coder := c, rep0 := r0, rep1 := r1, rep2 := r2, rep3 := r3, state := state, previousIsMatch := isMatch } } :=
  ⟨⟨h.size, h.lc, h.lp, h.pb, h.pos, h.dictionaryPos, hs⟩, h.base, h.out_le, h.size_le, h.room⟩

variable (read : σ → ReadCall σ)

theorem InBlock.repLen (hp : p.Accepted) (h : InBlock p outSize start k l) (c : Coder σ) {posState : ℕ} (hps : posState < 16)
    (r0 r1 r2 r3 : UInt32) :
    let l' : XzLocals σ := { l with vs := { l.vs with rep0 := r0, rep1 := r1, rep2 := r2, rep3 := r3 } }
    (∀ a ∈ xzRepLenAccesses read l' c posState outSize, a.Fits p) ∧
      (xzDecodeRepLen read l' c posState outSize).Keeps (Between p outSize start) := by
  have hstate : (if l.vs.state < 7 then 8 else 11) < 12 := by split_ifs <;> decide
  have hm := InBlock.match hp (h.update (xzLenDecode read repLenCoder posState c).2 hstate r0 r1 r2 r3 l.vs.previousIsMatch)
    (xzLenDecode read repLenCoder posState c).1
  dsimp only
  unfold xzRepLenAccesses xzDecodeRepLen
  rw [List.forall_mem_append]
  exact ⟨⟨fits_len read p (by decide) hps c, hm.1⟩, hm.2⟩

theorem InBlock.shortRep (hp : p.Accepted) (h : InBlock p outSize start k l) (hr : Reaches k l) (hlt : l.out.length < outSize)
    (c : Coder σ) :
    (∀ a ∈ xzShortRepAccesses l c outSize, a.Fits p) ∧ (xzDecodeShortRep l c).Keeps (Between p outSize start) := by
  have hstate : (if l.vs.state < 7 then 9 else 11) < 12 := by split_ifs <;> decide
  have hin := h.update c hstate l.vs.rep0 l.vs.rep1 l.vs.rep2 l.vs.rep3 l.vs.previousIsMatch
  unfold xzShortRepAccesses xzDecodeShortRep
  generalize (if l.vs.state < 7 then 9 else 11) = state at hstate hin ⊢
  split_ifs
  · exact ⟨fun a ha => absurd ha List.not_mem_nil, keeps_fail _ _⟩
  · have hbetween (b : UInt8) := And.intro (hin.put hp hlt b) (Reaches.put hr b)
    exact ⟨hin.toTracks.fits_copyByte hp hr (h.lt_out hlt) hlt h.size_le, keeps_next ⟨k + 1, hbetween _⟩⟩

/-- The probabilities of the machine's state are below those of the literals. -/
theorem InBlock.fits_state (h : InBlock p outSize start k l) {base : ℕ} (hb : base + 12 ≤ literalProbs) :
    (Access.prob (base + l.vs.state)).Fits p := by
  have hs := h.state
  exact fits_prob p (by omega)

theorem InBlock.fits_statePos (h : InBlock p outSize start k l) {base posState : ℕ} (hb : base + 192 ≤ literalProbs)
    (hps : posState < 16) : (Access.prob (base + (l.vs.state <<< 4) + posState)).Fits p := by
  have hs := h.state
  rw [Nat.shiftLeft_eq]
  exact fits_prob p (by omega)

theorem InBlock.rep (hp : p.Accepted) (h : InBlock p outSize start k l) (hr : Reaches k l) (hlt : l.out.length < outSize)
    (c : Coder σ) {posState : ℕ} (hps : posState < 16) :
    (∀ a ∈ xzRepAccesses read l c posState outSize, a.Fits p) ∧
      (xzDecodeRep read l c posState outSize).Keeps (Between p outSize start) := by
  have hG0 := h.fits_state (show isRepG0 + 12 ≤ literalProbs by decide)
  have hG1 := h.fits_state (show isRepG1 + 12 ≤ literalProbs by decide)
  have hG2 := h.fits_state (show isRepG2 + 12 ≤ literalProbs by decide)
  have hlong := h.fits_statePos (show isRep0Long + 192 ≤ literalProbs by decide) hps
  have hlen (c : Coder σ) (r0 r1 r2 r3 : UInt32) := h.repLen read hp c hps r0 r1 r2 r3
  unfold xzRepAccesses xzDecodeRep
  dsimp only
  rw [List.forall_mem_cons]
  split_ifs
  · rw [List.forall_mem_cons]
    obtain ⟨hfits, hkeeps⟩ := h.shortRep hp hr hlt _
    exact ⟨⟨hG0, hlong, hfits⟩, hkeeps⟩
  · rw [List.forall_mem_cons]
    obtain ⟨hfits, hkeeps⟩ := hlen _ l.vs.rep0 l.vs.rep1 l.vs.rep2 l.vs.rep3
    exact ⟨⟨hG0, hlong, hfits⟩, hkeeps⟩
  · rw [List.forall_mem_cons]
    obtain ⟨hfits, hkeeps⟩ := hlen _ l.vs.rep1 l.vs.rep0 l.vs.rep2 l.vs.rep3
    exact ⟨⟨hG0, hG1, hfits⟩, hkeeps⟩
  · rw [List.forall_mem_cons, List.forall_mem_cons]
    obtain ⟨hfits, hkeeps⟩ := hlen _ l.vs.rep2 l.vs.rep0 l.vs.rep1 l.vs.rep3
    exact ⟨⟨hG0, hG1, hG2, hfits⟩, hkeeps⟩
  · rw [List.forall_mem_cons, List.forall_mem_cons]
    obtain ⟨hfits, hkeeps⟩ := hlen _ l.vs.rep3 l.vs.rep0 l.vs.rep1 l.vs.rep2
    exact ⟨⟨hG0, hG1, hG2, hfits⟩, hkeeps⟩

theorem InBlock.newMatch (hp : p.Accepted) (h : InBlock p outSize start k l) (c : Coder σ) {posState : ℕ} (hps : posState < 16) :
    (∀ a ∈ xzNewMatchAccesses read l c posState outSize, a.Fits p) ∧
      (xzDecodeNewMatch read l c posState outSize).Keeps (Between p outSize start) := by
  have hstate : (if l.vs.state < 7 then 7 else 10) < 12 := by split_ifs <;> decide
  unfold xzNewMatchAccesses xzDecodeNewMatch
  dsimp only
  generalize xzLenDecode read lenCoder posState c = len
  have hm := InBlock.match hp (h.update (xzDecodeDistance read len.1 len.2).2 hstate (xzDecodeDistance read len.1 len.2).1
    l.vs.rep0 l.vs.rep1 l.vs.rep2 l.vs.previousIsMatch) len.1
  rw [List.forall_mem_append, List.forall_mem_append]
  exact ⟨⟨⟨fits_len read p (by decide) hps c, fits_distance read p _ _⟩, hm.1⟩, hm.2⟩

/-- The 768 probabilities of a literal are those of its position and of the last byte. -/
theorem literal_table {lc lp : ℕ} (hlc : lc ≤ 8) (pos : UInt32) (last : UInt8) :
    ((pos &&& UInt32.ofNat (1 <<< lp - 1)).toNat <<< lc) + (last.toNat >>> (8 - lc)) + 1 ≤ 2 ^ (lc + lp) := by
  have hmask : (pos &&& UInt32.ofNat (1 <<< lp - 1)).toNat + 1 ≤ 2 ^ lp := by
    have hone : 1 ≤ 2 ^ lp := Nat.one_le_two_pow
    have hle : (pos &&& UInt32.ofNat (1 <<< lp - 1)).toNat ≤ 1 <<< lp - 1 := by
      rw [UInt32.toNat_and, UInt32.toNat_ofNat']
      exact Nat.and_le_right.trans (Nat.mod_le _ _)
    rw [Nat.one_shiftLeft] at hle ⊢
    omega
  have hlast : last.toNat >>> (8 - lc) < 2 ^ lc := by
    rw [Nat.shiftRight_eq_div_pow, Nat.div_lt_iff_lt_mul (Nat.two_pow_pos _), ← pow_add, show lc + (8 - lc) = 8 by omega]
    exact last.toNat_lt
  generalize (pos &&& UInt32.ofNat (1 <<< lp - 1)).toNat = low at hmask ⊢
  rw [Nat.shiftLeft_eq]
  calc low * 2 ^ lc + last.toNat >>> (8 - lc) + 1 ≤ (low + 1) * 2 ^ lc := by
        rw [add_mul, one_mul]
        omega
    _ ≤ 2 ^ lp * 2 ^ lc := Nat.mul_le_mul_right _ hmask
    _ = 2 ^ (lc + lp) := by rw [← pow_add, add_comm]

theorem InBlock.literal (hp : p.Accepted) (h : InBlock p outSize start k l) (hr : Reaches k l) (hlt : l.out.length < outSize)
    (c : Coder σ) :
    (∀ a ∈ xzLiteralAccesses read l c outSize, a.Fits p) ∧ Between p outSize start (xzDecodeLiteral read l c) := by
  have hstate : (if l.vs.state < 4 then 0 else if l.vs.state < 10 then l.vs.state - 3 else l.vs.state - 6) < 12 := by
    have hs := h.state
    split_ifs <;> omega
  constructor
  · have htable := @literal_table p.lc p.lp hp.lc_le l.pos l.previousByte
    unfold xzLiteralAccesses
    dsimp only
    rw [h.lc, h.lp]
    generalize ((l.pos &&& UInt32.ofNat (1 <<< p.lp - 1)).toNat <<< p.lc) + (l.previousByte.toNat >>> (8 - p.lc)) = table at *
    have hfits (i : ℕ) (hi : i < literalProbs + xzLitSize * table + 0x300) : (Access.prob i).Fits p := by
      show i < literalProbs + (xzLitSize <<< (p.lc + p.lp))
      have hmul : xzLitSize * (table + 1) ≤ xzLitSize * 2 ^ (p.lc + p.lp) := Nat.mul_le_mul_left _ htable
      rw [Nat.shiftLeft_eq]
      rw [mul_add, mul_one] at hmul
      have hsize : xzLitSize = 0x300 := rfl
      omega
    have htail : ∀ a ∈ [Access.out l.out.length outSize, Access.dict l.vs.dictionaryPos], a.Fits p := by
      simp only [List.forall_mem_cons]
      exact ⟨fits_out hlt h.size_le, h.toTracks.fits_dict hp, fun a ha => absurd ha List.not_mem_nil⟩
    rw [List.forall_mem_append]
    refine ⟨?_, htail⟩
    split_ifs
    · rw [List.forall_mem_cons]
      exact ⟨h.toTracks.fits_matched hr (h.lt_out hlt), fits_literalMatch read p hfits _ _ _ _⟩
    · exact fits_literal read p hfits _ _ _
  · have hbetween (r : UInt8 × Coder σ) := And.intro
      (InBlock.put hp (h.update r.2 hstate l.vs.rep0 l.vs.rep1 l.vs.rep2 l.vs.rep3 false) hlt r.1) (Reaches.put hr r.1)
    exact ⟨k + 1, hbetween _⟩

theorem InBlock.round (hp : p.Accepted) (h : InBlock p outSize start k l) (hr : Reaches k l) (hlt : l.out.length < outSize) :
    (∀ a ∈ xzRoundAccesses read l outSize, a.Fits p) ∧ (xzDecodeRound read l outSize).Keeps (Between p outSize start) := by
  have hps : (l.pos &&& UInt32.ofNat (1 <<< l.vs.pb - 1)).toNat < 16 := by
    rw [UInt32.toNat_and, UInt32.toNat_ofNat', h.pb, Nat.one_shiftLeft]
    have hpow : 2 ^ p.pb ≤ 2 ^ 4 := Nat.pow_le_pow_right (by decide) hp.pb_le
    have hand := (@Nat.and_le_right l.pos.toNat ((2 ^ p.pb - 1) % 2 ^ 32)).trans (Nat.mod_le _ _)
    omega
  have hmatch := h.fits_statePos (show isMatch + 192 ≤ literalProbs by decide) hps
  have hrep := h.fits_state (show isRep + 12 ≤ literalProbs by decide)
  have hin := h.update l.vs.coder h.state l.vs.rep0 l.vs.rep1 l.vs.rep2 l.vs.rep3 true
  unfold xzRoundAccesses xzDecodeRound
  dsimp only
  split_ifs
  · exact ⟨fun a ha => absurd ha List.not_mem_nil, keeps_fail _ _⟩
  · exact ⟨fun a ha => absurd ha List.not_mem_nil, keeps_fail _ _⟩
  · rw [List.forall_mem_cons]
    obtain ⟨hfits, hbetween⟩ := h.literal read hp hr hlt _
    exact ⟨⟨hmatch, hfits⟩, keeps_next hbetween⟩
  · rw [List.forall_mem_cons, List.forall_mem_cons]
    obtain ⟨hfits, hkeeps⟩ := hin.rep read hp hr hlt _ hps
    exact ⟨⟨hmatch, hrep, hfits⟩, hkeeps⟩
  · rw [List.forall_mem_cons, List.forall_mem_cons]
    obtain ⟨hfits, hkeeps⟩ := hin.newMatch read hp _ hps
    exact ⟨⟨hmatch, hrep, hfits⟩, hkeeps⟩

theorem Between.loop (hp : p.Accepted) (n : ℕ) (h : Between p outSize start l) :
    (∀ a ∈ xzLoopAccesses read outSize n l, a.Fits p) ∧
      ∀ l', xzDecodeLoop read outSize n l = .ok l' → Between p outSize start l' := by
  induction n generalizing l with
  | zero =>
    refine ⟨fun a ha => absurd ha List.not_mem_nil, ?_⟩
    rintro l' ⟨⟩
    exact h
  | succ n ih =>
    rw [xzLoopAccesses, xzDecodeLoop]
    split_ifs with hlt
    · obtain ⟨k, hin, hr⟩ := h
      obtain ⟨hfits, hkeeps⟩ := hin.round read hp hr hlt
      rw [List.forall_mem_append]
      generalize xzDecodeRound read l outSize = r at hkeeps
      cases r with
      | next l' =>
        obtain ⟨hrest, hend⟩ := ih (hkeeps.next l' rfl)
        exact ⟨⟨hfits, hrest⟩, hend⟩
      | stop l' =>
        refine ⟨⟨hfits, fun a ha => absurd ha List.not_mem_nil⟩, ?_⟩
        rintro l'' ⟨⟩
        exact hkeeps.stop l' rfl
      | fail e input => exact ⟨⟨hfits, fun a ha => absurd ha List.not_mem_nil⟩, nofun⟩
    · refine ⟨fun a ha => absurd ha List.not_mem_nil, ?_⟩
      rintro l' ⟨⟩
      exact h

/-! ### The blocks -/

/-- The decoder between two blocks. -/
structure AtBlock (p : XzProps) (k : ℕ) (vs : XzVarState σ) : Prop where
  tracks : Tracks p k (⟨vs, [], 0⟩ : XzLocals σ)
  reaches : Reaches k (⟨vs, [], 0⟩ : XzLocals σ)

variable {vs : XzVarState σ}

theorem AtBlock.decode (hp : p.Accepted) (h : AtBlock p start vs) (hs : outSize ≤ blockBufSize)
    (hroom : start + outSize ≤ p.outSize) :
    (∀ a ∈ xzDecodeAccesses read vs outSize, a.Fits p) ∧
      ∀ block vs', xzDecode read vs outSize = .ok (block, vs') → AtBlock p (start + block.length) vs' := by
  unfold xzDecodeAccesses xzDecode
  cases vs.remainLen with
  | none =>
    refine ⟨fun a ha => absurd ha List.not_mem_nil, ?_⟩
    rintro block vs' ⟨⟩
    exact h
  | some len =>
    have hin : InBlock p outSize start start (⟨vs, [], 0⟩ : XzLocals σ) := ⟨h.tracks, rfl, Nat.zero_le _, hs, hroom⟩
    obtain ⟨hcopy, k, hk, hr⟩ := hin.copyMatch hp h.reaches len
    dsimp only
    generalize XzLocals.copyMatch ⟨vs, [], 0⟩ len outSize = l at hk hr ⊢
    -- the byte before the position, or the last of the dictionary
    have hlast : (Access.dict (if l.vs.dictionaryPos = 0 then l.vs.dictionarySize - 1 else l.vs.dictionaryPos - 1)).Fits p := by
      have hd := hk.toTracks.fits_dict hp
      have hdict := hp.dict_pos
      have hsize : l.vs.dictionarySize.toNat = p.dictSize := by rw [hk.size, toNat_ofNat_word hp.word_dict]
      simp only [Access.Fits] at hd ⊢
      have hone : (1 : UInt32).toNat = 1 := rfl
      split_ifs with h0
      · rw [UInt32.toNat_sub_of_le _ _ (by rw [UInt32.le_iff_toNat_le]; omega), hsize]
        omega
      · have hpos : l.vs.dictionaryPos.toNat ≠ 0 := fun hz => h0 (UInt32.toNat_inj.mp hz)
        rw [UInt32.toNat_sub_of_le _ _ (by rw [UInt32.le_iff_toNat_le]; omega)]
        omega
    generalize (if l.vs.dictionaryPos = 0 then l.vs.dictionarySize - 1 else l.vs.dictionaryPos - 1) = last at hlast ⊢
    have hbetween : Between p outSize start { l with previousByte := l.vs.dictionary last } :=
      ⟨k, ⟨⟨hk.size, hk.lc, hk.lp, hk.pb, hk.pos, hk.dictionaryPos, hk.state⟩, hk.base, hk.out_le, hk.size_le, hk.room⟩, hr⟩
    obtain ⟨hloop, hend⟩ := hbetween.loop read hp outSize
    rw [List.forall_mem_append, List.forall_mem_cons]
    refine ⟨⟨hcopy, hlast, hloop⟩, ?_⟩
    intro block vs' hdec
    cases hres : xzDecodeLoop read outSize outSize { l with previousByte := l.vs.dictionary last } with
    | error e =>
      rw [hres] at hdec
      cases hdec
    | ok l' =>
      rw [hres] at hdec
      obtain ⟨k', hk', hr'⟩ := hend l' hres
      obtain rfl := hk'.base
      cases hdec
      refine ⟨⟨hk'.size, hk'.lc, hk'.lp, hk'.pb, ?_, hk'.dictionaryPos, hk'.state⟩, hr'⟩
      have hpos := hk'.pos
      unfold XzLocals.pos at hpos ⊢
      rw [← hpos, UInt32.add_comm (UInt32.ofNat l'.out.length)]
      exact UInt32.zero_add _

end Rounds

section Stream
variable {σ τ : Type} {p : XzProps} (read : τ → σ → ReadCall σ) (write : Bytes → τ → τ)

theorem fits_blocks (hp : p.Accepted) (n : ℕ) {nowPos : ℕ} {vs : XzVarState σ} (t : τ) (h : AtBlock p nowPos vs) :
    ∀ a ∈ xzBlockAccesses read write p.outSize n nowPos vs t, a.Fits p := by
  induction n generalizing nowPos vs t with
  | zero => exact fun a ha => absurd ha List.not_mem_nil
  | succ n ih =>
    rw [xzBlockAccesses]
    split_ifs with hlt
    · have hroom : nowPos + min (p.outSize - nowPos) blockBufSize ≤ p.outSize := by
        have hmin := min_le_left (p.outSize - nowPos) blockBufSize
        omega
      obtain ⟨hfits, hnext⟩ := h.decode (read t) hp (min_le_right _ _) hroom
      dsimp only
      rw [List.forall_mem_append]
      refine ⟨hfits, ?_⟩
      cases hdec : xzDecode (read t) vs (min (p.outSize - nowPos) blockBufSize) with
      | error e => exact fun a ha => absurd ha List.not_mem_nil
      | ok r =>
        obtain ⟨block, vs'⟩ := r
        dsimp only
        split_ifs
        · exact fun a ha => absurd ha List.not_mem_nil
        · exact ih _ (hnext block vs' hdec)
    · exact fun a ha => absurd ha List.not_mem_nil

/-- The start of a stream. -/
theorem atBlock_init (p : XzProps) (r : σ → ReadCall σ) (input : σ) : AtBlock p 0 (xzInit r p input) where
  tracks :=
    { size := rfl
      lc := rfl
      lp := rfl
      pb := rfl
      pos := rfl
      dictionaryPos := by rw [Nat.zero_mod]; rfl
      state := Nat.zero_lt_succ 11 }
  reaches := le_max_right _ _

/-- A header that is accepted and has a dictionary. -/
theorem xzProps_accepted {header : Bytes} (h : xzProps header = .ok p) (hd : 0 < p.dictSize) : p.Accepted := by
  unfold xzProps at h
  dsimp only at h
  split_ifs at h with h1 h2 h3 h4 h5
  cases h
  refine ⟨hd, Nat.le_of_not_gt h4, ?_, ?_, ?_⟩
  · exact le_lt (List.length_take_le 4 _)
  · show (header.getD 0 0).toNat % 9 ≤ 8
    omega
  · show (header.getD 0 0).toNat / 45 ≤ 4
    omega

/-- The probabilities fit into the internal buffer. -/
theorem xzProps_probs {header : Bytes} (h : xzProps header = .ok p) :
    xzVarStateSize + 2 * (literalProbs + (xzLitSize <<< (p.lc + p.lp))) < internalDataBufSize := by
  unfold xzProps at h
  dsimp only at h
  split_ifs at h with h1 h2 h3 h4 h5
  cases h
  have hbase : literalProbs = xzBaseSize := rfl
  rw [hbase]
  dsimp only
  omega

/-! ### Where the indices are right -/

/-- The code adds the size of the dictionary once: that is enough for a distance up to it, and for
a longer one as far as the position in the dictionary goes. -/
theorem backPos_lt_iff {d i distance : ℕ} (hd : d ≤ dictBufSize) (hi : i < d) (hdist : distance ≤ 2 * d) :
    (backPos (UInt32.ofNat d) (UInt32.ofNat i) (UInt32.ofNat distance)).toNat < d ↔ distance ≤ i + d := by
  unfold dictBufSize at hd
  have hdn : (UInt32.ofNat d).toNat = d := toNat_ofNat_word (by omega)
  have hsub : (UInt32.ofNat i - UInt32.ofNat distance).toNat = (2 ^ 32 - distance + i) % 2 ^ 32 := by
    rw [UInt32.toNat_sub, toNat_ofNat_word (show i < 2 ^ 32 by omega), toNat_ofNat_word (show distance < 2 ^ 32 by omega)]
  unfold backPos
  split_ifs with hge
  · rw [ge_iff_le, UInt32.le_iff_toNat_le, hdn, hsub] at hge
    rw [UInt32.toNat_add, hdn, hsub]
    omega
  · rw [ge_iff_le, UInt32.le_iff_toNat_le, hdn, hsub] at hge
    rw [hsub]
    omega

theorem Access.Fits.within {header : Bytes} (h : xzProps header = .ok p) (hd : 0 < p.dictSize) {a : Access} (ha : a.Fits p)
    (hdist : ∀ distance i, a = .matched distance i → i.toNat < p.dictSize) : a.Within p := by
  have hp := xzProps_accepted h hd
  have hprobs := xzProps_probs h
  cases a with
  | prob i =>
    have hi : i < literalProbs + (xzLitSize <<< (p.lc + p.lp)) := ha
    exact ⟨hi, by omega⟩
  | dict i => exact ⟨ha, hp.dict_le⟩
  | matched distance i => exact ⟨hdist distance i rfl, hp.dict_le⟩
  | out i size => exact ha

/-- While the stream is at most twice as long as the dictionary no distance is too long. -/
theorem within_of_short {header : Bytes} (h : xzProps header = .ok p) (hd : 0 < p.dictSize)
    (hout : p.outSize ≤ 2 * p.dictSize) (input : σ) (t : τ) : ∀ a ∈ xzAccesses read write header input t, a.Within p := by
  have hp := xzProps_accepted h hd
  intro a ha
  rw [xzAccesses, h] at ha
  have hfits := fits_blocks read write hp _ t (atBlock_init p (read t) input) a ha
  apply hfits.within h hd
  rintro distance i rfl
  obtain ⟨k, hk, hreach, rfl⟩ := hfits
  have hlt := Nat.mod_lt k hd
  have hmod : k ≤ k % p.dictSize + p.dictSize := by
    have hdiv := Nat.mod_add_div k p.dictSize
    have hq : k / p.dictSize ≤ 1 := by
      rw [← Nat.lt_succ_iff, Nat.div_lt_iff_lt_mul hd]
      omega
    have hmul : p.dictSize * (k / p.dictSize) ≤ p.dictSize * 1 := Nat.mul_le_mul_left _ hq
    omega
  have hback := backPos_lt_iff hp.dict_le hlt (show distance.toNat ≤ 2 * p.dictSize by omega)
  rw [UInt32.ofNat_toNat] at hback
  exact hback.mpr (by omega)

/-- Nor is one that is at most as long as the dictionary. -/
theorem within_of_distances {header : Bytes} (h : xzProps header = .ok p) (hd : 0 < p.dictSize) (input : σ) (t : τ)
    (hdist : ∀ distance i, Access.matched distance i ∈ xzAccesses read write header input t → distance.toNat ≤ p.dictSize) :
    ∀ a ∈ xzAccesses read write header input t, a.Within p := by
  have hp := xzProps_accepted h hd
  intro a ha
  have hmem := ha
  rw [xzAccesses, h] at ha
  have hfits := fits_blocks read write hp _ t (atBlock_init p (read t) input) a ha
  apply hfits.within h hd
  rintro distance i rfl
  have hle := hdist distance i hmem
  obtain ⟨k, -, -, rfl⟩ := hfits
  have hback := backPos_lt_iff hp.dict_le (Nat.mod_lt k hd) (show distance.toNat ≤ 2 * p.dictSize by omega)
  rw [UInt32.ofNat_toNat] at hback
  exact hback.mpr (by omega)

end Stream

end Ln882x.Ota
