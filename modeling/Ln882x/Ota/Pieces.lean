import Ln882x.Ota.Steering
import Ln882x.Ota.Blocks

/-! The input in pieces. A decoder takes its bytes one by one, from the buffer or from the
next piece, so two decoders with the same bytes in front of them go the same way
however a callback cuts them; behind the last byte each notes that there was none. With
the result on blocks this makes a stream decode alike for every cut of its input
and its output. -/

namespace Ln882x.Ota

open Nor

variable {σ τ : Type} {r₁ : σ → ReadCall σ} {r₂ : τ → ReadCall τ} {rest₁ : σ → Bytes} {rest₂ : τ → Bytes}

/-! ### Steps on related states -/

section Steps
variable {S T α β : Type} {R : S → T → Prop}

/-- Two steps with the same result that keep a relation of their states. -/
def Follows (R : S → T → Prop) (f : S → α × S) (g : T → α × T) : Prop :=
  ∀ s t, R s t → (f s).1 = (g t).1 ∧ R (f s).2 (g t).2

theorem follows_pure (a : α) : Follows R (fun s => (a, s)) fun t => (a, t) := fun _ _ h => ⟨rfl, h⟩

theorem Follows.bind {f : S → α × S} {g : T → α × T} {f' : α → S → β × S} {g' : α → T → β × T} (h : Follows R f g)
    (h' : ∀ a, Follows R (f' a) (g' a)) : Follows R (fun s => f' (f s).1 (f s).2) fun t => g' (g t).1 (g t).2 := by
  intro s t hst
  obtain ⟨heq, hnext⟩ := h s t hst
  dsimp only
  rw [← heq]
  exact h' _ _ _ hnext

theorem Follows.map {f : S → α × S} {g : T → α × T} (φ : α → β) (h : Follows R f g) :
    Follows R (fun s => (φ (f s).1, (f s).2)) fun t => (φ (g t).1, (g t).2) := h.bind fun a => follows_pure (φ a)

end Steps

/-! ### The bytes in front of a decoder -/

/-- The callback hands out the bytes of a stream, some at a time; at its end it may say anything. -/
structure Supplies (read : σ → ReadCall σ) (rest : σ → Bytes) : Prop where
  bytes : ∀ s, (read s).bytes ++ rest (read s).next = rest s
  ended : ∀ s, (read s).bytes = [] → rest s = []
  ok : ∀ s, (read s).bytes ≠ [] → (read s).ok = true

/-- The same bytes in front of two decoders. -/
structure SameInput (rest₁ : σ → Bytes) (rest₂ : τ → Bytes) (d : RangeDecoder σ) (e : RangeDecoder τ) : Prop where
  bytes : d.buffer ++ rest₁ d.input = e.buffer ++ rest₂ e.input
  range : d.range = e.range
  code : d.code = e.code
  extraBytes : d.extraBytes = e.extraBytes
  left_ok : d.extraBytes = false → d.readCbRet = true
  right_ok : e.extraBytes = false → e.readCbRet = true

def SameCoder (rest₁ : σ → Bytes) (rest₂ : τ → Bytes) (c : Coder σ) (d : Coder τ) : Prop :=
  c.probs = d.probs ∧ SameInput rest₁ rest₂ c.rd d.rd

/-- A decoder after a byte: what is in front of it, and that nothing else changed. -/
structure Took (rest : σ → Bytes) (d d' : RangeDecoder σ) (bytes : Bytes) (extra : Bool) : Prop where
  bytes : d'.buffer ++ rest d'.input = bytes
  range : d'.range = d.range
  extraBytes : d'.extraBytes = extra
  ok : (d.extraBytes = false → d.readCbRet = true) → d'.extraBytes = false → d'.readCbRet = true

theorem readByte_cons {read : σ → ReadCall σ} {rest : σ → Bytes} (h : Supplies read rest) {d : RangeDecoder σ} {b : UInt8}
    {bs : Bytes} (hb : d.buffer ++ rest d.input = b :: bs) :
    (rangeDecoderReadByte read d).1 = b ∧ Took rest d (rangeDecoderReadByte read d).2 bs d.extraBytes := by
  unfold rangeDecoderReadByte
  cases hbuf : d.buffer with
  | cons b' buffer =>
    rw [hbuf] at hb
    cases hb
    exact ⟨rfl, rfl, rfl, rfl, id⟩
  | nil =>
    rw [hbuf, List.nil_append, ← h.bytes d.input] at hb
    have hended := h.ended d.input
    have hok := h.ok d.input
    dsimp only
    cases hread : (read d.input).bytes with
    | cons b' piece =>
      rw [hread] at hb hok
      cases hb
      exact ⟨rfl, rfl, rfl, rfl, fun _ _ => hok (List.cons_ne_nil _ _)⟩
    | nil =>
      rw [h.bytes d.input, hended hread] at hb
      cases hb

theorem readByte_nil {read : σ → ReadCall σ} {rest : σ → Bytes} (h : Supplies read rest) {d : RangeDecoder σ}
    (hb : d.buffer ++ rest d.input = []) :
    (rangeDecoderReadByte read d).1 = 0xFF ∧ Took rest d (rangeDecoderReadByte read d).2 [] true := by
  obtain ⟨hbuf, hrest⟩ := List.append_eq_nil_iff.mp hb
  rw [← h.bytes d.input] at hrest
  obtain ⟨hread, hnext⟩ := List.append_eq_nil_iff.mp hrest
  unfold rangeDecoderReadByte
  rw [hbuf]
  dsimp only
  rw [hread]
  exact ⟨rfl, hnext, rfl, rfl, fun _ hfalse => (nomatch hfalse)⟩

section Decoders
variable (h₁ : Supplies r₁ rest₁) (h₂ : Supplies r₂ rest₂)
include h₁ h₂

theorem same_shiftInByte {d : RangeDecoder σ} {e : RangeDecoder τ} (h : SameInput rest₁ rest₂ d e) :
    SameInput rest₁ rest₂ (shiftInByte r₁ d) (shiftInByte r₂ e) := by
  have hbytes := h.bytes
  unfold shiftInByte
  cases hd : d.buffer ++ rest₁ d.input with
  | cons b bs =>
    obtain ⟨hb₁, ht₁⟩ := readByte_cons h₁ hd
    rw [hd] at hbytes
    obtain ⟨hb₂, ht₂⟩ := readByte_cons h₂ hbytes.symm
    refine ⟨ht₁.bytes.trans ht₂.bytes.symm, ?_, ?_, ?_, ht₁.ok h.left_ok, ht₂.ok h.right_ok⟩
    · exact ht₁.range.trans (h.range.trans ht₂.range.symm)
    · dsimp only
      rw [hb₁, hb₂, h.code]
    · exact ht₁.extraBytes.trans (h.extraBytes.trans ht₂.extraBytes.symm)
  | nil =>
    obtain ⟨hb₁, ht₁⟩ := readByte_nil h₁ hd
    rw [hd] at hbytes
    obtain ⟨hb₂, ht₂⟩ := readByte_nil h₂ hbytes.symm
    refine ⟨ht₁.bytes.trans ht₂.bytes.symm, ?_, ?_, ?_, ht₁.ok h.left_ok, ht₂.ok h.right_ok⟩
    · exact ht₁.range.trans (h.range.trans ht₂.range.symm)
    · dsimp only
      rw [hb₁, hb₂, h.code]
    · exact ht₁.extraBytes.trans ht₂.extraBytes.symm

theorem same_normalize {d : RangeDecoder σ} {e : RangeDecoder τ} (h : SameInput rest₁ rest₂ d e) :
    SameInput rest₁ rest₂ (normalize r₁ d) (normalize r₂ e) := by
  have hshift := same_shiftInByte h₁ h₂ h
  unfold normalize
  rw [← h.range]
  split_ifs
  · exact ⟨hshift.bytes, rfl, hshift.code, hshift.extraBytes, hshift.left_ok, hshift.right_ok⟩
  · exact h

theorem same_init {s : σ} {t : τ} (h : rest₁ s = rest₂ t) :
    SameInput rest₁ rest₂ (rangeDecoderInit r₁ s) (rangeDecoderInit r₂ t) := by
  have hfold (l : List ℕ) (d : RangeDecoder σ) (e : RangeDecoder τ) (hsame : SameInput rest₁ rest₂ d e) :
      SameInput rest₁ rest₂ (l.foldl (fun rd _ => shiftInByte r₁ rd) d) (l.foldl (fun rd _ => shiftInByte r₂ rd) e) := by
    induction l generalizing d e with
    | nil => exact hsame
    | cons _ l ih => exact ih _ _ (same_shiftInByte h₁ h₂ hsame)
  exact hfold _ _ _ ⟨h, rfl, rfl, rfl, fun _ => rfl, fun _ => rfl⟩

theorem follows_directBits (n : ℕ) (result : UInt32) :
    Follows (SameInput rest₁ rest₂) (directBitsLoop r₁ n result) (directBitsLoop r₂ n result) := by
  induction n generalizing result with
  | zero => exact follows_pure result
  | succ n ih =>
    intro d e h
    rw [directBitsLoop, directBitsLoop, ← h.range, ← h.code]
    split_ifs
    · exact ih _ _ _ (same_normalize h₁ h₂ ⟨h.bytes, rfl, rfl, h.extraBytes, h.left_ok, h.right_ok⟩)
    · exact ih _ _ _ (same_normalize h₁ h₂ ⟨h.bytes, rfl, rfl, h.extraBytes, h.left_ok, h.right_ok⟩)

theorem follows_bitDecode (i : ℕ) :
    Follows (SameCoder rest₁ rest₂) (rangeDecoderBitDecode r₁ i) (rangeDecoderBitDecode r₂ i) := by
  rintro c d ⟨hprobs, h⟩
  unfold rangeDecoderBitDecode
  rw [← hprobs, ← h.range, ← h.code]
  dsimp only
  split_ifs
  · exact ⟨rfl, rfl, same_normalize h₁ h₂ ⟨h.bytes, rfl, h.code, h.extraBytes, h.left_ok, h.right_ok⟩⟩
  · exact ⟨rfl, rfl, same_normalize h₁ h₂ ⟨h.bytes, rfl, rfl, h.extraBytes, h.left_ok, h.right_ok⟩⟩

theorem follows_bitTree (probs n mi : ℕ) :
    Follows (SameCoder rest₁ rest₂) (bitTreeLoop r₁ probs n mi) (bitTreeLoop r₂ probs n mi) := by
  induction n generalizing mi with
  | zero => exact follows_pure mi
  | succ n ih => exact (follows_bitDecode h₁ h₂ (probs + mi)).bind fun bit => ih (mi + mi + bit)

theorem follows_bitTreeDecode (probs n : ℕ) :
    Follows (SameCoder rest₁ rest₂) (rangeDecoderBitTreeDecode r₁ probs n) (rangeDecoderBitTreeDecode r₂ probs n) :=
  (follows_bitTree h₁ h₂ probs n 1).map fun mi => mi - 1 <<< n

theorem follows_reverseBitTree (probs n i mi symbol : ℕ) :
    Follows (SameCoder rest₁ rest₂) (reverseBitTreeLoop r₁ probs n i mi symbol) (reverseBitTreeLoop r₂ probs n i mi symbol) := by
  induction n generalizing i mi symbol with
  | zero => exact follows_pure symbol
  | succ n ih => exact (follows_bitDecode h₁ h₂ (probs + mi)).bind fun bit => ih (i + 1) (mi + mi + bit) (symbol ||| bit <<< i)

theorem follows_literal (probs n symbol : ℕ) :
    Follows (SameCoder rest₁ rest₂) (literalLoop r₁ probs n symbol) (literalLoop r₂ probs n symbol) := by
  induction n generalizing symbol with
  | zero => exact follows_pure symbol
  | succ n ih =>
    intro c d h
    rw [literalLoop, literalLoop]
    dsimp only
    split_ifs
    · obtain ⟨heq, hnext⟩ := follows_bitDecode h₁ h₂ (probs + symbol) c d h
      rw [← heq]
      exact ih _ _ _ hnext
    · exact ⟨rfl, h⟩

theorem follows_literalMatch (probs n symbol : ℕ) (matchByte : UInt8) :
    Follows (SameCoder rest₁ rest₂) (literalMatchLoop r₁ probs n symbol matchByte)
      (literalMatchLoop r₂ probs n symbol matchByte) := by
  induction n generalizing symbol matchByte with
  | zero => exact follows_pure symbol
  | succ n ih =>
    intro c d h
    rw [literalMatchLoop, literalMatchLoop]
    dsimp only
    obtain ⟨heq, hnext⟩ := follows_bitDecode h₁ h₂ (probs + ((1 + ((matchByte >>> 7) &&& 1).toNat) <<< 8) + symbol) c d h
    rw [← heq]
    split_ifs
    · exact follows_literal h₁ h₂ _ _ _ _ _ hnext
    · exact ih _ _ _ _ hnext
    · exact ⟨rfl, h⟩

theorem follows_xzLiteralDecode (probs : ℕ) :
    Follows (SameCoder rest₁ rest₂) (xzLiteralDecode r₁ probs) (xzLiteralDecode r₂ probs) :=
  (follows_literal h₁ h₂ probs 8 1).map UInt8.ofNat

theorem follows_xzLiteralDecodeMatch (probs : ℕ) (matchByte : UInt8) :
    Follows (SameCoder rest₁ rest₂) (xzLiteralDecodeMatch r₁ probs matchByte) (xzLiteralDecodeMatch r₂ probs matchByte) :=
  (follows_literalMatch h₁ h₂ probs 8 1 matchByte).map UInt8.ofNat

theorem follows_len (p posState : ℕ) :
    Follows (SameCoder rest₁ rest₂) (xzLenDecode r₁ p posState) (xzLenDecode r₂ p posState) := by
  intro c d h
  unfold xzLenDecode
  dsimp only
  obtain ⟨heq, hnext⟩ := follows_bitDecode h₁ h₂ (p + lenChoice) c d h
  obtain ⟨heq2, hnext2⟩ := follows_bitDecode h₁ h₂ (p + lenChoice2) _ _ hnext
  rw [← heq, ← heq2]
  split_ifs
  · exact follows_bitTreeDecode h₁ h₂ _ _ _ _ hnext
  · exact (follows_bitTreeDecode h₁ h₂ _ _).map (fun len => 8 + len) _ _ hnext2
  · exact (follows_bitTreeDecode h₁ h₂ _ _).map (fun len => 8 + 8 + len) _ _ hnext2

theorem follows_distance (len : ℕ) :
    Follows (SameCoder rest₁ rest₂) (xzDecodeDistance r₁ len) (xzDecodeDistance r₂ len) := by
  intro c d h
  unfold xzDecodeDistance
  dsimp only
  obtain ⟨heq, hslot⟩ := follows_bitTreeDecode h₁ h₂ (posSlotProbs + ((if len < 4 then len else 3) <<< 6)) 6 c d h
  rw [← heq]
  generalize rangeDecoderBitTreeDecode r₁ _ 6 c = slot at hslot ⊢
  generalize rangeDecoderBitTreeDecode r₂ _ 6 d = slot' at hslot ⊢
  split_ifs
  · obtain ⟨hsymbol, hnext⟩ := follows_reverseBitTree h₁ h₂
      (specPos + ((2 ||| UInt32.ofNat (slot.1 &&& 1)) <<< UInt32.ofNat (slot.1 >>> 1 - 1)).toNat - slot.1 - 1)
      (slot.1 >>> 1 - 1) 0 1 0 _ _ hslot
    unfold rangeDecoderReverseBitTreeDecode
    rw [← hsymbol]
    exact ⟨rfl, hnext⟩
  · obtain ⟨hprobs, hrd⟩ := hslot
    obtain ⟨hdirect, hrd'⟩ := follows_directBits h₁ h₂ (slot.1 >>> 1 - 1 - 4) 0 _ _ hrd
    unfold rangeDecoderDecodeDirectBits
    rw [← hdirect]
    generalize directBitsLoop r₁ (slot.1 >>> 1 - 1 - 4) 0 slot.2.rd = direct at hrd' ⊢
    generalize directBitsLoop r₂ (slot.1 >>> 1 - 1 - 4) 0 slot'.2.rd = direct' at hrd' ⊢
    have haligned : SameCoder rest₁ rest₂ { slot.2 with rd := direct.2 } { slot'.2 with rd := direct'.2 } := ⟨hprobs, hrd'⟩
    obtain ⟨hsymbol, hnext⟩ := follows_reverseBitTree h₁ h₂ alignProbs 4 0 1 0 _ _ haligned
    unfold rangeDecoderReverseBitTreeDecode
    rw [← hsymbol]
    exact ⟨rfl, hnext⟩
  · exact ⟨rfl, hslot⟩

end Decoders

/-! ### The local variables -/

/-- The same state with another decoder. -/
def XzVarState.recode (vs : XzVarState σ) (c : Coder τ) : XzVarState τ :=
  ⟨c, vs.dictionary, vs.dictionarySize, vs.dictionaryPos, vs.globalPos, vs.rep0, vs.rep1, vs.rep2, vs.rep3, vs.lc, vs.lp, vs.pb,
    vs.state, vs.previousIsMatch, vs.remainLen⟩

def XzLocals.recode (l : XzLocals σ) (c : Coder τ) : XzLocals τ := ⟨l.vs.recode c, l.out, l.previousByte⟩

/-- The same local variables but for what the callbacks still keep of the input. -/
def SameLocals (rest₁ : σ → Bytes) (rest₂ : τ → Bytes) (l : XzLocals σ) (l' : XzLocals τ) : Prop :=
  ∃ c, l' = l.recode c ∧ SameCoder rest₁ rest₂ l.vs.coder c

/-- Two rounds that go on alike, end alike or both fail. -/
inductive SameRound (rest₁ : σ → Bytes) (rest₂ : τ → Bytes) : XzRound σ → XzRound τ → Prop
  | next {l : XzLocals σ} {l' : XzLocals τ} : SameLocals rest₁ rest₂ l l' → SameRound rest₁ rest₂ (.next l) (.next l')
  | stop {l : XzLocals σ} {l' : XzLocals τ} : SameLocals rest₁ rest₂ l l' → SameRound rest₁ rest₂ (.stop l) (.stop l')
  | fail (e e' : XzErr) (input : σ) (input' : τ) : SameRound rest₁ rest₂ (.fail e input) (.fail e' input')

theorem copy_recode (n : ℕ) (l : XzLocals σ) (c : Coder τ) : XzLocals.copy n (l.recode c) = (XzLocals.copy n l).recode c := by
  induction n generalizing l with
  | zero => rfl
  | succ n ih => exact ih l.copyByte

theorem copyMatch_recode (l : XzLocals σ) (c : Coder τ) (len m : ℕ) :
    (l.recode c).copyMatch len m = (l.copyMatch len m).recode c := by
  have hout : (l.recode c).out = l.out := rfl
  unfold XzLocals.copyMatch
  dsimp only
  rw [hout, copy_recode]
  rfl

theorem same_match {l : XzLocals σ} {c : Coder τ} (h : SameCoder rest₁ rest₂ l.vs.coder c) (len m : ℕ) :
    SameRound rest₁ rest₂ (xzDecodeMatch l len m) (xzDecodeMatch (l.recode c) len m) := by
  have hrep : (l.recode c).vs.rep0 = l.vs.rep0 := rfl
  have hpos : (l.recode c).pos = l.pos := rfl
  unfold xzDecodeMatch
  rw [hrep, hpos, copyMatch_recode]
  split_ifs
  · exact .stop ⟨c, rfl, h⟩
  · exact .fail _ _ _ _
  · refine .next ⟨c, rfl, ?_⟩
    rw [input_copyMatch]
    exact h

theorem same_shortRep (l : XzLocals σ) (x : Coder τ) {c : Coder σ} {d : Coder τ} (h : SameCoder rest₁ rest₂ c d) :
    SameRound rest₁ rest₂ (xzDecodeShortRep l c) (xzDecodeShortRep (l.recode x) d) := by
  have hpos : (l.recode x).pos = l.pos := rfl
  unfold xzDecodeShortRep
  rw [hpos]
  by_cases h0 : l.pos = 0
  · rw [if_pos h0, if_pos h0]
    exact .fail _ _ _ _
  · rw [if_neg h0, if_neg h0]
    exact .next ⟨d, rfl, h⟩

section Rounds
variable (h₁ : Supplies r₁ rest₁) (h₂ : Supplies r₂ rest₂)
include h₁ h₂

theorem same_literal (l : XzLocals σ) (x : Coder τ) {c : Coder σ} {d : Coder τ} (h : SameCoder rest₁ rest₂ c d) :
    SameLocals rest₁ rest₂ (xzDecodeLiteral r₁ l c) (xzDecodeLiteral r₂ (l.recode x) d) := by
  have hpos : (l.recode x).pos = l.pos := rfl
  have hvs : (l.recode x).vs = l.vs.recode x := rfl
  have hlast : (l.recode x).previousByte = l.previousByte := rfl
  have hback : (l.vs.recode x).matchPos = l.vs.matchPos := rfl
  unfold xzDecodeLiteral
  rw [hpos, hvs, hlast]
  dsimp only
  rw [hback]
  unfold XzVarState.recode
  dsimp only
  generalize literalProbs + _ = probs
  generalize (if l.vs.state < 4 then 0 else if l.vs.state < 10 then l.vs.state - 3 else l.vs.state - 6) = state
  split_ifs
  · obtain ⟨heq, hnext⟩ := follows_xzLiteralDecodeMatch h₁ h₂ probs (l.vs.dictionary l.vs.matchPos) c d h
    rw [← heq]
    exact ⟨_, rfl, hnext⟩
  · obtain ⟨heq, hnext⟩ := follows_xzLiteralDecode h₁ h₂ probs c d h
    rw [← heq]
    exact ⟨_, rfl, hnext⟩

theorem same_repLen (l : XzLocals σ) (x : Coder τ) {c : Coder σ} {d : Coder τ} (h : SameCoder rest₁ rest₂ c d) (posState m : ℕ) :
    SameRound rest₁ rest₂ (xzDecodeRepLen r₁ l c posState m) (xzDecodeRepLen r₂ (l.recode x) d posState m) := by
  obtain ⟨heq, hnext⟩ := follows_len h₁ h₂ repLenCoder posState c d h
  unfold xzDecodeRepLen
  dsimp only
  rw [← heq]
  exact same_match (l := { l with vs := { l.vs with coder := _, state := _ } }) hnext _ _

theorem same_rep (l : XzLocals σ) (x : Coder τ) {c : Coder σ} {d : Coder τ} (h : SameCoder rest₁ rest₂ c d) (posState m : ℕ) :
    SameRound rest₁ rest₂ (xzDecodeRep r₁ l c posState m) (xzDecodeRep r₂ (l.recode x) d posState m) := by
  have hstate : (l.recode x).vs.state = l.vs.state := rfl
  unfold xzDecodeRep
  dsimp only
  rw [hstate]
  obtain ⟨heq, hnext⟩ := follows_bitDecode h₁ h₂ (isRepG0 + l.vs.state) c d h
  obtain ⟨heqLong, hnextLong⟩ := follows_bitDecode h₁ h₂ (isRep0Long + (l.vs.state <<< 4) + posState) _ _ hnext
  obtain ⟨heq1, hnext1⟩ := follows_bitDecode h₁ h₂ (isRepG1 + l.vs.state) _ _ hnext
  obtain ⟨heq2, hnext2⟩ := follows_bitDecode h₁ h₂ (isRepG2 + l.vs.state) _ _ hnext1
  rw [← heq, ← heqLong, ← heq1, ← heq2]
  split_ifs
  · exact same_shortRep l x hnextLong
  · exact same_repLen h₁ h₂ l x hnextLong _ _
  · exact same_repLen h₁ h₂ { l with vs := { l.vs with rep0 := l.vs.rep1, rep1 := l.vs.rep0 } } x hnext1 _ _
  · exact same_repLen h₁ h₂ { l with vs := { l.vs with rep0 := l.vs.rep2, rep1 := l.vs.rep0, rep2 := l.vs.rep1 } } x hnext2 _ _
  · exact same_repLen h₁ h₂
      { l with vs := { l.vs with rep0 := l.vs.rep3, rep1 := l.vs.rep0, rep2 := l.vs.rep1, rep3 := l.vs.rep2 } } x hnext2 _ _

theorem same_newMatch (l : XzLocals σ) (x : Coder τ) {c : Coder σ} {d : Coder τ} (h : SameCoder rest₁ rest₂ c d) (posState m : ℕ) :
    SameRound rest₁ rest₂ (xzDecodeNewMatch r₁ l c posState m) (xzDecodeNewMatch r₂ (l.recode x) d posState m) := by
  have hlen := follows_len h₁ h₂ lenCoder posState c d h
  unfold xzDecodeNewMatch
  dsimp only
  rw [← hlen.1]
  have hnext := hlen.2
  generalize xzLenDecode r₁ lenCoder posState c = len at hnext ⊢
  generalize xzLenDecode r₂ lenCoder posState d = len' at hnext ⊢
  have hdist := follows_distance h₁ h₂ len.1 _ _ hnext
  have hnext' := hdist.2
  rw [← hdist.1]
  generalize xzDecodeDistance r₁ len.1 len.2 = dist at hnext' ⊢
  generalize xzDecodeDistance r₂ len.1 len'.2 = dist' at hnext' ⊢
  exact same_match
    (l := { l with
      vs := { l.vs with coder := dist.2, state := _, rep0 := dist.1, rep1 := l.vs.rep0, rep2 := l.vs.rep1, rep3 := l.vs.rep2 } })
    hnext' _ _

/-- A round on the same bytes. A decoder that ran out of bytes fails, whatever its callback said. -/
theorem same_round {l : XzLocals σ} {c : Coder τ} (h : SameCoder rest₁ rest₂ l.vs.coder c) (m : ℕ) :
    SameRound rest₁ rest₂ (xzDecodeRound r₁ l m) (xzDecodeRound r₂ (l.recode c) m) := by
  have hpos : (l.recode c).pos = l.pos := rfl
  have hpb : (l.recode c).vs.pb = l.vs.pb := rfl
  have hstate : (l.recode c).vs.state = l.vs.state := rfl
  have hcoder : (l.recode c).vs.coder = c := rfl
  unfold xzDecodeRound
  dsimp only
  rw [hpos, hpb, hstate, hcoder]
  generalize (l.pos &&& UInt32.ofNat (1 <<< l.vs.pb - 1)).toNat = posState
  have hextra : l.vs.coder.rd.extraBytes = c.rd.extraBytes := h.2.extraBytes
  cases hend : c.rd.extraBytes with
  | true =>
    rw [hend] at hextra
    rw [hextra]
    cases l.vs.coder.rd.readCbRet with
    | true =>
      cases c.rd.readCbRet with
      | true => exact .fail _ _ _ _
      | false => exact .fail _ _ _ _
    | false =>
      cases c.rd.readCbRet with
      | true => exact .fail _ _ _ _
      | false => exact .fail _ _ _ _
  | false =>
    have hok₁ := h.2.left_ok (hextra.trans hend)
    have hok₂ := h.2.right_ok hend
    rw [hextra, hend, hok₁, hok₂]
    obtain ⟨heq, hnext⟩ := follows_bitDecode h₁ h₂ (isMatch + (l.vs.state <<< 4) + posState) _ _ h
    obtain ⟨heq2, hnext2⟩ := follows_bitDecode h₁ h₂ (isRep + l.vs.state) _ _ hnext
    rw [← heq, ← heq2]
    split_ifs
    · rename_i hfalse
      cases hfalse
    · rename_i hfalse
      cases hfalse
    · exact .next (same_literal h₁ h₂ l c hnext)
    · exact same_rep h₁ h₂ { l with vs := { l.vs with previousIsMatch := true } } c hnext2 _ _
    · exact same_newMatch h₁ h₂ { l with vs := { l.vs with previousIsMatch := true } } c hnext2 _ _

/-- The loop on the same bytes. -/
theorem same_loop (m n : ℕ) {l l₁ : XzLocals σ} {c : Coder τ} (h : SameCoder rest₁ rest₂ l.vs.coder c)
    (hrun : xzDecodeLoop r₁ m n l = .ok l₁) :
    ∃ l₂, xzDecodeLoop r₂ m n (l.recode c) = .ok l₂ ∧ SameLocals rest₁ rest₂ l₁ l₂ := by
  induction n generalizing l c with
  | zero =>
    cases hrun
    exact ⟨_, rfl, c, rfl, h⟩
  | succ n ih =>
    have hout : (l.recode c).out = l.out := rfl
    have hround := same_round h₁ h₂ h m
    rw [xzDecodeLoop] at hrun ⊢
    rw [hout]
    by_cases hlt : l.out.length < m
    · rw [if_pos hlt] at hrun ⊢
      generalize xzDecodeRound r₁ l m = round₁ at hround hrun
      generalize xzDecodeRound r₂ (l.recode c) m = round₂ at hround
      cases hround with
      | next hsame =>
        obtain ⟨d, rfl, hd⟩ := hsame
        exact ih hd hrun
      | @stop l' l'' hsame =>
        cases hrun
        exact ⟨l'', rfl, hsame⟩
      | fail => cases hrun
    · rw [if_neg hlt] at hrun ⊢
      cases hrun
      exact ⟨_, rfl, c, rfl, h⟩

/-- A call on the same bytes puts out the same. -/
theorem same_decode {vs : XzVarState σ} {c : Coder τ} (h : SameCoder rest₁ rest₂ vs.coder c) (m : ℕ) {out : Bytes}
    (hrun : (xzDecode r₁ vs m).map Prod.fst = .ok out) : (xzDecode r₂ (vs.recode c) m).map Prod.fst = .ok out := by
  have hrest : (vs.recode c).remainLen = vs.remainLen := rfl
  unfold xzDecode at hrun ⊢
  rw [hrest]
  cases hlen : vs.remainLen with
  | none =>
    rw [hlen] at hrun
    cases hrun
    rfl
  | some len =>
    rw [hlen] at hrun
    dsimp only at hrun ⊢
    have hcopy : XzLocals.copyMatch ⟨vs.recode c, [], 0⟩ len m = (XzLocals.copyMatch ⟨vs, [], 0⟩ len m).recode c :=
      copyMatch_recode ⟨vs, [], 0⟩ c len m
    have hcoder : (XzLocals.copyMatch ⟨vs, [], 0⟩ len m).vs.coder = vs.coder := input_copyMatch _ _ _
    rw [hcopy]
    generalize XzLocals.copyMatch ⟨vs, [], 0⟩ len m = l at hcoder hrun ⊢
    rw [← hcoder] at h
    generalize hlast : l.vs.dictionary (if l.vs.dictionaryPos = 0 then l.vs.dictionarySize - 1 else l.vs.dictionaryPos - 1) =
      last at hrun
    have hlast' : (l.recode c).vs.dictionary (if (l.recode c).vs.dictionaryPos = 0 then (l.recode c).vs.dictionarySize - 1
        else (l.recode c).vs.dictionaryPos - 1) = last := hlast
    rw [hlast']
    cases hloop : xzDecodeLoop r₁ m m { l with previousByte := last } with
    | error e =>
      rw [hloop] at hrun
      cases hrun
    | ok l₁ =>
      rw [hloop] at hrun
      obtain ⟨l₂, hloop₂, d, rfl, -⟩ := same_loop h₁ h₂ m m (l := { l with previousByte := last }) h hloop
      show Except.map Prod.fst (xzDecodeLoop r₂ m m ({ l with previousByte := last }.recode c) >>= _) = _
      rw [hloop₂]
      cases hrun
      rfl

theorem same_xzInit (p : XzProps) {s : σ} {t : τ} (h : rest₁ s = rest₂ t) :
    SameCoder rest₁ rest₂ (xzInit r₁ p s).coder (xzInit r₂ p t).coder := ⟨rfl, same_init h₁ h₂ h⟩

end Rounds

/-! ### Pieces -/

/-- A part of the input: it is not empty. -/
abbrev Piece := { bytes : Bytes // bytes ≠ [] }

/-- A read callback that hands out the input piece by piece; `atEnd` is what it returns behind the last one. -/
def readPieces (atEnd : Bool) : List Piece → ReadCall (List Piece)
  | [] => ⟨atEnd, [], []⟩
  | piece :: pieces => ⟨true, piece.1, pieces⟩

def piecesBytes (pieces : List Piece) : Bytes := pieces.flatMap Subtype.val

/-- The input in one piece. -/
def onePiece (bytes : Bytes) : List Piece := if h : bytes = [] then [] else [⟨bytes, h⟩]

theorem piecesBytes_onePiece (bytes : Bytes) : piecesBytes (onePiece bytes) = bytes := by
  unfold onePiece
  split_ifs with h
  · exact h.symm
  · exact List.flatMap_singleton _ _

theorem supplies_readPieces (atEnd : Bool) : Supplies (readPieces atEnd) piecesBytes where
  bytes := by
    intro pieces
    cases pieces with
    | nil => rfl
    | cons piece pieces => rfl
  ended := by
    intro pieces h
    cases pieces with
    | nil => rfl
    | cons piece pieces => exact absurd h piece.2
  ok := by
    intro pieces h
    cases pieces with
    | nil => exact absurd rfl h
    | cons piece pieces => rfl

/-- If a stream in one piece decodes in one call, it decodes to the same in any pieces and in blocks
of any sizes, and so it does in the blocks of the decoder. -/
theorem cuts_agree (header : Bytes) (p : XzProps) (pieces : List Piece) (atEnd : Bool) (sizes : ℕ → ℕ) (out : Bytes)
    (hheader : xzProps header = .ok p) (hdict : 0 < p.dictSize) (hsizes : ∀ j, 0 < sizes j)
    (hone : (xzDecode (readPieces atEnd) (xzInit (readPieces atEnd) p (onePiece (piecesBytes pieces))) p.outSize).map Prod.fst =
      .ok out) :
    xzBlocks (readPieces atEnd) p.outSize p.outSize sizes 0 (xzInit (readPieces atEnd) p pieces) = .ok out ∧
      (xzDecompressBufToBuf (fun _ => readPieces atEnd) (fun block t => t ++ block) header pieces []).1 = none ∧
      (xzDecompressBufToBuf (fun _ => readPieces atEnd) (fun block t => t ++ block) header pieces []).2.2 = out := by
  have hsupplies := supplies_readPieces atEnd
  have hcoder : SameCoder piecesBytes piecesBytes (xzInit (readPieces atEnd) p (onePiece (piecesBytes pieces))).coder
      (xzInit (readPieces atEnd) p pieces).coder := same_xzInit hsupplies hsupplies p (piecesBytes_onePiece _)
  have hpieces : (xzDecode (readPieces atEnd) (xzInit (readPieces atEnd) p pieces) p.outSize).map Prod.fst = .ok out :=
    same_decode hsupplies hsupplies hcoder p.outSize hone
  have hin : (xzInit (readPieces atEnd) p pieces).dictionaryPos < (xzInit (readPieces atEnd) p pieces).dictionarySize := by
    show 0 < UInt32.ofNat p.dictSize
    rw [UInt32.lt_iff_toNat_lt, toNat_ofNat_word (xzProps_accepted hheader hdict).word_dict]
    exact hdict
  cases hdecode : xzDecode (readPieces atEnd) (xzInit (readPieces atEnd) p pieces) p.outSize with
  | error e =>
    rw [hdecode] at hpieces
    cases hpieces
  | ok r =>
    obtain ⟨out', vs'⟩ := r
    rw [hdecode] at hpieces
    cases hpieces
    have hblocks := xzBlocks_of_xzDecode (fun _ => show 0 < blockBufSize by decide) hin hdecode
    have hloop := xzBlockLoop_eq 0 [] hblocks
    refine ⟨xzBlocks_of_xzDecode hsizes hin hdecode, ?_⟩
    unfold xzDecompressBufToBuf
    rw [hheader]
    exact hloop

/-- A stream in three pieces. -/
def farPieces : List Piece := [⟨[0, 32], nofun⟩, ⟨[144], nofun⟩, ⟨[156, 4, 0, 0, 0, 0, 0], nofun⟩]

/-- Two literals and a match of two bytes, which is cut in blocks of one, two and three bytes. -/
theorem cuts_agree_far :
    xzBlocks (readPieces true) 4 4 (fun j => j + 1) 0 (xzInit (readPieces true) ⟨4, 4096, 3, 0, 2⟩ farPieces) =
        .ok [65, 66, 65, 66] ∧
      (xzDecompressBufToBuf (fun _ => readPieces true) (fun block t => t ++ block) (headerOf 4096 4) farPieces []).1 = none ∧
      (xzDecompressBufToBuf (fun _ => readPieces true) (fun block t => t ++ block) (headerOf 4096 4) farPieces []).2.2 =
        [65, 66, 65, 66] := by
  have hone : (xzDecode (readPieces true) (xzInit (readPieces true) ⟨4, 4096, 3, 0, 2⟩ (onePiece (piecesBytes farPieces))) 4).map
      Prod.fst = .ok [65, 66, 65, 66] := by
    rfl
  exact cuts_agree (headerOf 4096 4) ⟨4, 4096, 3, 0, 2⟩ farPieces true (fun j => j + 1) [65, 66, 65, 66] rfl (by decide)
    (fun j => Nat.succ_pos j) hone

end Ln882x.Ota
