import Ln882x.Nor.Flash

/-! The LZMA decoder of `components/fota/ota_agent/xz_decompress.c`. The range
decoder takes its bytes from a read callback with a state of its own; the buffer
that the callback hands out is kept as the list of its bytes that are still to
be read. Probabilities and dictionary are functions of the index. Positions and
distances are 32-bit numbers. -/

namespace Ln882x.Ota

open Nor

/-! ### The range decoder -/

/-- A call of `InCallback->Read`: whether it succeeds, the bytes, and the next state. -/
structure ReadCall (σ : Type) where
  ok : Bool
  bytes : Bytes
  next : σ

/-- `CRangeDecoder`, with the state of the callback. -/
structure RangeDecoder (σ : Type) where
  buffer : Bytes
  range : UInt32
  code : UInt32
  readCbRet : Bool
  extraBytes : Bool
  input : σ

/-- The probabilities `p`, with the range decoder that uses them. -/
structure Coder (σ : Type) where
  probs : ℕ → ℕ
  rd : RangeDecoder σ

section Decoder
variable {σ : Type} (read : σ → ReadCall σ)

def rangeDecoderReadByte (rd : RangeDecoder σ) : UInt8 × RangeDecoder σ :=
  match rd.buffer with
  | b :: rest => (b, { rd with buffer := rest })
  | [] =>
    let r := read rd.input
    match r.bytes with
    | b :: rest => (b, { rd with buffer := rest, readCbRet := r.ok, input := r.next })
    | [] => (0xFF, { rd with buffer := [], readCbRet := r.ok, extraBytes := true, input := r.next })

/-- One more byte of the input in the low bits of the code. -/
def shiftInByte (rd : RangeDecoder σ) : RangeDecoder σ :=
  let r := rangeDecoderReadByte read rd
  { r.2 with code := (rd.code <<< 8) ||| r.1.toUInt32 }

/-- The five bytes that start a stream. -/
def rangeDecoderInit (input : σ) : RangeDecoder σ :=
  (List.range 5).foldl (fun rd _ => shiftInByte read rd) ⟨[], 0xFFFFFFFF, 0, true, false, input⟩

def kTopValue : UInt32 := (1 : UInt32) <<< 24

def kBitModelTotal : ℕ := 1 <<< 11

/-- Another byte if the range got small. -/
def normalize (rd : RangeDecoder σ) : RangeDecoder σ :=
  if rd.range < kTopValue then { shiftInByte read rd with range := rd.range <<< 8 } else rd

def directBitsLoop : ℕ → UInt32 → RangeDecoder σ → UInt32 × RangeDecoder σ
  | 0, result, rd => (result, rd)
  | n + 1, result, rd =>
    let range := rd.range >>> 1
    let rd := if rd.code ≥ range then (result <<< 1 ||| 1, { rd with range := range, code := rd.code - range })
      else (result <<< 1, { rd with range := range })
    directBitsLoop n rd.1 (normalize read rd.2)

def rangeDecoderDecodeDirectBits (rd : RangeDecoder σ) (numTotalBits : ℕ) : UInt32 × RangeDecoder σ :=
  directBitsLoop read numTotalBits 0 rd

/-- A bit with the probability number `i`, which is adapted. -/
def rangeDecoderBitDecode (i : ℕ) (c : Coder σ) : ℕ × Coder σ :=
  let prob := c.probs i
  let bound := (c.rd.range >>> 11) * UInt32.ofNat prob
  if c.rd.code < bound then
    (0, ⟨Function.update c.probs i (prob + (kBitModelTotal - prob) / 32), normalize read { c.rd with range := bound }⟩)
  else
    (1, ⟨Function.update c.probs i (prob - prob / 32),
      normalize read { c.rd with range := c.rd.range - bound, code := c.rd.code - bound }⟩)

def bitTreeLoop (probs : ℕ) : ℕ → ℕ → Coder σ → ℕ × Coder σ
  | 0, mi, c => (mi, c)
  | n + 1, mi, c =>
    let r := rangeDecoderBitDecode read (probs + mi) c
    bitTreeLoop probs n (mi + mi + r.1) r.2

def rangeDecoderBitTreeDecode (probs numLevels : ℕ) (c : Coder σ) : ℕ × Coder σ :=
  let r := bitTreeLoop read probs numLevels 1 c
  (r.1 - 1 <<< numLevels, r.2)

def reverseBitTreeLoop (probs : ℕ) : ℕ → ℕ → ℕ → ℕ → Coder σ → ℕ × Coder σ
  | 0, _, _, symbol, c => (symbol, c)
  | n + 1, i, mi, symbol, c =>
    let r := rangeDecoderBitDecode read (probs + mi) c
    reverseBitTreeLoop probs n (i + 1) (mi + mi + r.1) (symbol ||| r.1 <<< i) r.2

def rangeDecoderReverseBitTreeDecode (probs numLevels : ℕ) (c : Coder σ) : ℕ × Coder σ :=
  reverseBitTreeLoop read probs numLevels 0 1 0 c

/-- The rounds of `xz_literal_decode` while the symbol is below `0x100`. -/
def literalLoop (probs : ℕ) : ℕ → ℕ → Coder σ → ℕ × Coder σ
  | 0, symbol, c => (symbol, c)
  | n + 1, symbol, c =>
    if symbol < 0x100 then
      let r := rangeDecoderBitDecode read (probs + symbol) c
      literalLoop probs n (symbol + symbol ||| r.1) r.2
    else (symbol, c)

/-- Eight rounds bring the symbol from 1 to `0x100`. -/
def xzLiteralDecode (probs : ℕ) (c : Coder σ) : UInt8 × Coder σ :=
  let r := literalLoop read probs 8 1 c
  (UInt8.ofNat r.1, r.2)

/-- The rounds of `xz_literal_decode_match`, which end when a bit differs from the match. -/
def literalMatchLoop (probs : ℕ) : ℕ → ℕ → UInt8 → Coder σ → ℕ × Coder σ
  | 0, symbol, _, c => (symbol, c)
  | n + 1, symbol, matchByte, c =>
    if symbol < 0x100 then
      let matchBit := ((matchByte >>> 7) &&& 1).toNat
      let r := rangeDecoderBitDecode read (probs + ((1 + matchBit) <<< 8) + symbol) c
      let symbol := symbol <<< 1 ||| r.1
      if matchBit ≠ r.1 then literalLoop read probs n symbol r.2
      else literalMatchLoop probs n symbol (matchByte <<< 1) r.2
    else (symbol, c)

def xzLiteralDecodeMatch (probs : ℕ) (matchByte : UInt8) (c : Coder σ) : UInt8 × Coder σ :=
  let r := literalMatchLoop read probs 8 1 matchByte c
  (UInt8.ofNat r.1, r.2)

/-! ### Lengths and distances -/

def lenChoice : ℕ := 0

def lenChoice2 : ℕ := 1

def lenLow : ℕ := 2

def lenMid : ℕ := lenLow + (16 <<< 3)

def lenHigh : ℕ := lenMid + (16 <<< 3)

def kNumLenProbs : ℕ := lenHigh + (1 <<< 8)

def xzLenDecode (p posState : ℕ) (c : Coder σ) : ℕ × Coder σ :=
  let r := rangeDecoderBitDecode read (p + lenChoice) c
  if r.1 = 0 then rangeDecoderBitTreeDecode read (p + lenLow + (posState <<< 3)) 3 r.2
  else
    let r := rangeDecoderBitDecode read (p + lenChoice2) r.2
    if r.1 = 0 then
      let r := rangeDecoderBitTreeDecode read (p + lenMid + (posState <<< 3)) 3 r.2
      (8 + r.1, r.2)
    else
      let r := rangeDecoderBitTreeDecode read (p + lenHigh) 8 r.2
      (8 + 8 + r.1, r.2)

def isMatch : ℕ := 0

def isRep : ℕ := isMatch + (12 <<< 4)

def isRepG0 : ℕ := isRep + 12

def isRepG1 : ℕ := isRepG0 + 12

def isRepG2 : ℕ := isRepG1 + 12

def isRep0Long : ℕ := isRepG2 + 12

def posSlotProbs : ℕ := isRep0Long + (12 <<< 4)

def specPos : ℕ := posSlotProbs + (4 <<< 6)

def alignProbs : ℕ := specPos + 128 - 14

def lenCoder : ℕ := alignProbs + 16

def repLenCoder : ℕ := lenCoder + kNumLenProbs

def literalProbs : ℕ := repLenCoder + kNumLenProbs

def xzBaseSize : ℕ := 1846

def xzLitSize : ℕ := 768

example : literalProbs = xzBaseSize := by decide

/-! ### The decoder -/

/-- `XzVarState`, with the probabilities that follow it in memory. -/
structure XzVarState (σ : Type) where
  coder : Coder σ
  dictionary : UInt32 → UInt8
  dictionarySize : UInt32
  dictionaryPos : UInt32
  globalPos : UInt32
  rep0 : UInt32
  rep1 : UInt32
  rep2 : UInt32
  rep3 : UInt32
  lc : ℕ
  lp : ℕ
  pb : ℕ
  state : ℕ
  previousIsMatch : Bool
  /-- `none` is -1, the end of a stream. -/
  remainLen : Option ℕ

/-- The local variables of `xz_decode`: the state, the bytes put out in this call, and the last
byte. -/
structure XzLocals (σ : Type) where
  vs : XzVarState σ
  out : Bytes
  previousByte : UInt8

variable {read}

/-- The position `rep0` bytes back in the dictionary. -/
def XzVarState.matchPos (vs : XzVarState σ) : UInt32 :=
  let pos := vs.dictionaryPos - vs.rep0
  if pos ≥ vs.dictionarySize then pos + vs.dictionarySize else pos

/-- A byte to the output and the dictionary. -/
def XzLocals.put (l : XzLocals σ) (b : UInt8) : XzLocals σ :=
  let next := l.vs.dictionaryPos + 1
  { vs :=
      { l.vs with
        dictionary := fun i => if i = l.vs.dictionaryPos then b else l.vs.dictionary i
        dictionaryPos := if next = l.vs.dictionarySize then 0 else next }
    out := l.out ++ [b]
    previousByte := b }

/-- The byte that the distance points to, once more. -/
def XzLocals.copyByte (l : XzLocals σ) : XzLocals σ := l.put (l.vs.dictionary l.vs.matchPos)

def XzLocals.copy : ℕ → XzLocals σ → XzLocals σ
  | 0, l => l
  | n + 1, l => XzLocals.copy n l.copyByte

/-- The end of a match: as much of it as has room, the rest for the next call. -/
def XzLocals.copyMatch (l : XzLocals σ) (len outSize : ℕ) : XzLocals σ :=
  let n := min len (outSize - l.out.length)
  let l := XzLocals.copy n l
  { l with vs := { l.vs with remainLen := some (len - n) } }

/-- Nothing is left over from the call before. -/
theorem copyMatch_zero_of_idle {l : XzLocals σ} (h : l.vs.remainLen = some 0) (outSize : ℕ) : l.copyMatch 0 outSize = l := by
  unfold XzLocals.copyMatch
  simp only [Nat.zero_min, Nat.sub_zero, XzLocals.copy]
  rw [← h]

def XzLocals.pos (l : XzLocals σ) : UInt32 := UInt32.ofNat l.out.length + l.vs.globalPos

def XzLocals.withCoder (l : XzLocals σ) (c : Coder σ) : XzLocals σ := { l with vs := { l.vs with coder := c } }

variable (read)

/-- A literal. -/
def xzDecodeLiteral (l : XzLocals σ) (c : Coder σ) : XzLocals σ :=
  let vs := l.vs
  let probs := literalProbs + xzLitSize *
    (((l.pos &&& UInt32.ofNat (1 <<< vs.lp - 1)).toNat <<< vs.lc) + (l.previousByte.toNat >>> (8 - vs.lc)))
  let state := if vs.state < 4 then 0 else if vs.state < 10 then vs.state - 3 else vs.state - 6
  let r := if vs.previousIsMatch then xzLiteralDecodeMatch read probs (vs.dictionary vs.matchPos) c
    else xzLiteralDecode read probs c
  { l with vs := { vs with coder := r.2, state := state, previousIsMatch := false } }.put r.1

/-- The distance of a new match. -/
def xzDecodeDistance (len : ℕ) (c : Coder σ) : UInt32 × Coder σ :=
  let r := rangeDecoderBitTreeDecode read (posSlotProbs + ((if len < 4 then len else 3) <<< 6)) 6 c
  let posSlot := r.1
  if posSlot ≥ 4 then
    let numDirectBits := posSlot >>> 1 - 1
    let rep0 : UInt32 := (2 ||| UInt32.ofNat (posSlot &&& 1)) <<< UInt32.ofNat numDirectBits
    if posSlot < 14 then
      let s := rangeDecoderReverseBitTreeDecode read (specPos + rep0.toNat - posSlot - 1) numDirectBits r.2
      (rep0 + UInt32.ofNat s.1 + 1, s.2)
    else
      let d := rangeDecoderDecodeDirectBits read r.2.rd (numDirectBits - 4)
      let s := rangeDecoderReverseBitTreeDecode read alignProbs 4 { r.2 with rd := d.2 }
      (rep0 + (d.1 <<< 4) + UInt32.ofNat s.1 + 1, s.2)
  else (UInt32.ofNat posSlot + 1, r.2)

inductive XzErr where
  | read | dataErr | notEnoughMem | streamVerNotSupp | fileTooLong | propertiesErr
  deriving DecidableEq

/-- How a round of the loop ends. A failure leaves the callback in some state. -/
inductive XzRound (σ : Type) where
  | next (l : XzLocals σ)
  | stop (l : XzLocals σ)
  | fail (e : XzErr) (input : σ)

/-- The end of a match: its length and distance are known. -/
def xzDecodeMatch (l : XzLocals σ) (len outSize : ℕ) : XzRound σ :=
  if l.vs.rep0 = 0 then .stop { l with vs := { l.vs with remainLen := none } }
  else if l.vs.rep0 > l.pos then .fail .dataErr l.vs.coder.rd.input
  else .next (l.copyMatch (len + 2) outSize)

/-- A match with the distance in `rep0`: its length, then the match. -/
def xzDecodeRepLen (l : XzLocals σ) (c : Coder σ) (posState outSize : ℕ) : XzRound σ :=
  let len := xzLenDecode read repLenCoder posState c
  xzDecodeMatch { l with vs := { l.vs with coder := len.2, state := if l.vs.state < 7 then 8 else 11 } } len.1 outSize

/-- A single byte with the distance in `rep0`. -/
def xzDecodeShortRep (l : XzLocals σ) (c : Coder σ) : XzRound σ :=
  if l.pos = 0 then .fail .dataErr c.rd.input
  else .next { l with vs := { l.vs with coder := c, state := if l.vs.state < 7 then 9 else 11 } }.copyByte

/-- A match with one of the last four distances. -/
def xzDecodeRep (l : XzLocals σ) (c : Coder σ) (posState outSize : ℕ) : XzRound σ :=
  let vs := l.vs
  let g0 := rangeDecoderBitDecode read (isRepG0 + vs.state) c
  if g0.1 = 0 then
    let long := rangeDecoderBitDecode read (isRep0Long + (vs.state <<< 4) + posState) g0.2
    if long.1 = 0 then xzDecodeShortRep l long.2 else xzDecodeRepLen read l long.2 posState outSize
  else
    let g1 := rangeDecoderBitDecode read (isRepG1 + vs.state) g0.2
    if g1.1 = 0 then
      xzDecodeRepLen read { l with vs := { vs with rep0 := vs.rep1, rep1 := vs.rep0 } } g1.2 posState outSize
    else
      let g2 := rangeDecoderBitDecode read (isRepG2 + vs.state) g1.2
      if g2.1 = 0 then
        xzDecodeRepLen read { l with vs := { vs with rep0 := vs.rep2, rep1 := vs.rep0, rep2 := vs.rep1 } } g2.2 posState
          outSize
      else
        xzDecodeRepLen read
          { l with vs := { vs with rep0 := vs.rep3, rep1 := vs.rep0, rep2 := vs.rep1, rep3 := vs.rep2 } } g2.2 posState
          outSize

/-- A match with a new distance. -/
def xzDecodeNewMatch (l : XzLocals σ) (c : Coder σ) (posState outSize : ℕ) : XzRound σ :=
  let vs := l.vs
  let len := xzLenDecode read lenCoder posState c
  let dist := xzDecodeDistance read len.1 len.2
  xzDecodeMatch
    { l with
      vs :=
        { vs with
          coder := dist.2
          state := if vs.state < 7 then 7 else 10
          rep0 := dist.1
          rep1 := vs.rep0
          rep2 := vs.rep1
          rep3 := vs.rep2 } } len.1 outSize

/-- A round of the loop of `xz_decode`. -/
def xzDecodeRound (l : XzLocals σ) (outSize : ℕ) : XzRound σ :=
  let posState := (l.pos &&& UInt32.ofNat (1 <<< l.vs.pb - 1)).toNat
  if !l.vs.coder.rd.readCbRet then .fail .read l.vs.coder.rd.input
  else if l.vs.coder.rd.extraBytes then .fail .dataErr l.vs.coder.rd.input
  else
    let m := rangeDecoderBitDecode read (isMatch + (l.vs.state <<< 4) + posState) l.vs.coder
    if m.1 = 0 then .next (xzDecodeLiteral read l m.2)
    else
      let l := { l with vs := { l.vs with previousIsMatch := true } }
      let rep := rangeDecoderBitDecode read (isRep + l.vs.state) m.2
      if rep.1 = 1 then xzDecodeRep read l rep.2 posState outSize
      else xzDecodeNewMatch read l rep.2 posState outSize

/-- The loop. Every round puts out at least one byte, so there are at most `outSize` of them. -/
def xzDecodeLoop (outSize : ℕ) : ℕ → XzLocals σ → Except (XzErr × σ) (XzLocals σ)
  | 0, l => .ok l
  | n + 1, l =>
    if l.out.length < outSize then
      match xzDecodeRound read l outSize with
      | .next l => xzDecodeLoop outSize n l
      | .stop l => .ok l
      | .fail e input => .error (e, input)
    else .ok l

/-- `xz_decode`: the bytes of the next block and the state after it. -/
def xzDecode (vs : XzVarState σ) (outSize : ℕ) : Except (XzErr × σ) (Bytes × XzVarState σ) :=
  match vs.remainLen with
  | none => .ok ([], vs)
  | some len => do
    -- the rest of the match that the last block cut off
    let l := XzLocals.copyMatch ⟨vs, [], 0⟩ len outSize
    let last := if l.vs.dictionaryPos = 0 then l.vs.dictionarySize - 1 else l.vs.dictionaryPos - 1
    let l ← xzDecodeLoop read outSize outSize { l with previousByte := l.vs.dictionary last }
    return (l.out, { l.vs with globalPos := l.vs.globalPos + UInt32.ofNat l.out.length })

end Decoder

/-! ### The stream -/

def xzHeaderSize : ℕ := 13

def dictBufSize : ℕ := 32 * 1024

def internalDataBufSize : ℕ := 16 * 1024

def blockBufSize : ℕ := 1 * 1024

/-- `sizeof(XzVarState)`. -/
def xzVarStateSize : ℕ := 84

/-- What the header of a stream says. -/
structure XzProps where
  outSize : ℕ
  dictSize : ℕ
  lc : ℕ
  lp : ℕ
  pb : ℕ

/-- The checks of `xz_decompress_buf_to_buf` before it decodes. -/
def xzProps (header : Bytes) : Except XzErr XzProps :=
  let outSize := le ((header.drop 5).take 4)
  let prop0 := (header.getD 0 0).toNat
  let dictSize := le ((header.drop 1).take 4)
  let lc := prop0 % 9
  let lp := prop0 / 9 % 5
  if outSize = 0xFFFFFFFF then .error .streamVerNotSupp
  else if le ((header.drop 9).take 4) ≠ 0 then .error .fileTooLong
  else if prop0 ≥ 9 * 5 * 5 then .error .propertiesErr
  else if dictSize > dictBufSize then .error .notEnoughMem
  else if (xzBaseSize + xzLitSize <<< (lc + lp)) * 2 + xzVarStateSize ≥ internalDataBufSize then .error .notEnoughMem
  else .ok ⟨outSize, dictSize, lc, lp, prop0 / 45⟩

/-- The state before the first block. -/
def xzInit {σ : Type} (read : σ → ReadCall σ) (p : XzProps) (input : σ) : XzVarState σ :=
  ⟨⟨fun _ => kBitModelTotal / 2, rangeDecoderInit read input⟩, fun _ => 0, UInt32.ofNat p.dictSize, 0, 0, 1, 1, 1, 1, p.lc, p.lp,
    p.pb, 0, false, some 0⟩

section Stream
variable {σ τ : Type}

/-- The loop of `xz_decompress_buf_to_buf`. The callbacks work on `τ`: a read takes bytes from
it, a write puts a block into it. A block is not empty, so there are at most `outSize` rounds. -/
def xzBlockLoop (read : τ → σ → ReadCall σ) (write : Bytes → τ → τ) (outSize : ℕ) :
    ℕ → ℕ → XzVarState σ → τ → Option XzErr × σ × τ
  | 0, _, vs, t => (none, vs.coder.rd.input, t)
  | n + 1, nowPos, vs, t =>
    if nowPos < outSize then
      match xzDecode (read t) vs (min (outSize - nowPos) blockBufSize) with
      | .error (e, input) => (some e, input, t)
      | .ok (block, vs) =>
        if block = [] then (none, vs.coder.rd.input, t)
        else xzBlockLoop read write outSize n (nowPos + block.length) vs (write block t)
    else (none, vs.coder.rd.input, t)

def xzDecompressBufToBuf (read : τ → σ → ReadCall σ) (write : Bytes → τ → τ) (header : Bytes) (input : σ) (t : τ) :
    Option XzErr × σ × τ :=
  match xzProps header with
  | .error e => (some e, input, t)
  | .ok p => xzBlockLoop read write p.outSize p.outSize 0 (xzInit (read t) p input) t

end Stream

end Ln882x.Ota
