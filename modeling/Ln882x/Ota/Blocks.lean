import Ln882x.Ota.Callbacks

/-! Decoding in blocks. What a call of `xz_decode` leaves for the next one, the rest of a
match and the last byte in the dictionary, is all that a longer call would go on
with; so a call can be cut anywhere, and blocks of any sizes put out what one call
does. The input is the same on both sides. -/

namespace Ln882x.Ota

open Nor

variable {σ : Type} {read : σ → ReadCall σ} {l l' : XzLocals σ} {m n : ℕ}

/-! ### The dictionary as a ring -/

/-- The index in front of the position in the dictionary. -/
def XzVarState.lastPos (vs : XzVarState σ) : UInt32 :=
  if vs.dictionaryPos = 0 then vs.dictionarySize - 1 else vs.dictionaryPos - 1

def XzVarState.lastByte (vs : XzVarState σ) : UInt8 := vs.dictionary vs.lastPos

/-- The position is inside the dictionary, and the last byte put out is in front of it. -/
structure Ringed (l : XzLocals σ) : Prop where
  inside : l.vs.dictionaryPos < l.vs.dictionarySize
  last : l.previousByte = l.vs.lastByte

/-- A byte is put at the position, and the position moves behind it. -/
theorem ringed_put (h : l.vs.dictionaryPos < l.vs.dictionarySize) (b : UInt8) : Ringed (l.put b) := by
  have hsize : l.vs.dictionarySize.toNat < 2 ^ 32 := l.vs.dictionarySize.toNat_lt
  have hlt := UInt32.lt_iff_toNat_lt.mp h
  have hsucc : (l.vs.dictionaryPos + 1).toNat = l.vs.dictionaryPos.toNat + 1 := by
    rw [UInt32.toNat_add]
    exact Nat.mod_eq_of_lt (by show _ + 1 < _; omega)
  have hmoved : (l.put b).vs.dictionaryPos < l.vs.dictionarySize ∧ (l.put b).vs.lastPos = l.vs.dictionaryPos := by
    by_cases hend : l.vs.dictionaryPos + 1 = l.vs.dictionarySize
    · have hpos : (l.put b).vs.dictionaryPos = 0 := if_pos hend
      have hback : (l.put b).vs.dictionarySize - 1 = l.vs.dictionaryPos := by
        show l.vs.dictionarySize - 1 = _
        rw [← hend, UInt32.add_sub_cancel]
      rw [XzVarState.lastPos, hpos, if_pos rfl]
      refine ⟨?_, hback⟩
      rw [UInt32.lt_iff_toNat_lt]
      show 0 < _
      omega
    · have hpos : (l.put b).vs.dictionaryPos = l.vs.dictionaryPos + 1 := if_neg hend
      have hne : ¬l.vs.dictionaryPos + 1 = 0 := by
        intro h0
        have hnat := congrArg UInt32.toNat h0
        rw [hsucc] at hnat
        cases hnat
      have hend' : l.vs.dictionaryPos.toNat + 1 ≠ l.vs.dictionarySize.toNat := by
        rw [← hsucc]
        exact fun heq => hend (UInt32.toNat_inj.mp heq)
      rw [XzVarState.lastPos, hpos, if_neg hne, UInt32.add_sub_cancel]
      refine ⟨?_, rfl⟩
      rw [UInt32.lt_iff_toNat_lt, hsucc]
      omega
  constructor
  · exact hmoved.1
  · show b = if (l.put b).vs.lastPos = l.vs.dictionaryPos then b else _
    rw [if_pos hmoved.2]

theorem Ringed.put (h : Ringed l) (b : UInt8) : Ringed (l.put b) := ringed_put h.inside b

theorem Ringed.copy (h : Ringed l) (n : ℕ) : Ringed (XzLocals.copy n l) := by
  induction n generalizing l with
  | zero => exact h
  | succ n ih => exact ih (h.put _)

theorem Ringed.copyMatch (h : Ringed l) (len m : ℕ) : Ringed (l.copyMatch len m) :=
  ⟨(h.copy _).inside, (h.copy _).last⟩

/-! ### The copy of a match -/

theorem copy_add (a b : ℕ) (l : XzLocals σ) : XzLocals.copy (a + b) l = XzLocals.copy b (XzLocals.copy a l) := by
  induction a generalizing l with
  | zero => rw [Nat.zero_add, XzLocals.copy]
  | succ a ih => rw [Nat.add_right_comm, XzLocals.copy, XzLocals.copy, ih]

/-- The rest of a match plays no part in a copy. -/
theorem copy_remainLen (n : ℕ) (l : XzLocals σ) (r : Option ℕ) :
    XzLocals.copy n { l with vs := { l.vs with remainLen := r } } =
      { XzLocals.copy n l with vs := { (XzLocals.copy n l).vs with remainLen := r } } := by
  induction n generalizing l with
  | zero => rfl
  | succ n ih =>
    rw [XzLocals.copy, XzLocals.copy, ← ih]
    rfl

theorem remainLen_copyMatch (l : XzLocals σ) (len m : ℕ) :
    (l.copyMatch len m).vs.remainLen = some (len - min len (m - l.out.length)) := rfl

theorem length_copyMatch_eq (l : XzLocals σ) (len m : ℕ) :
    (l.copyMatch len m).out.length = l.out.length + min len (m - l.out.length) := length_copy _ l

/-- A copy that is cut off is finished by the next one. -/
theorem copyMatch_cut (len : ℕ) (hm : m ≤ n) :
    (l.copyMatch len m).copyMatch (len - min len (m - l.out.length)) n = l.copyMatch len n := by
  have hlen := length_copyMatch_eq l len m
  generalize ha : min len (m - l.out.length) = a at hlen
  generalize hb : min (len - a) (n - (l.copyMatch len m).out.length) = b
  have hsum : min len (n - l.out.length) = a + b := by omega
  have hcopy : XzLocals.copy b (l.copyMatch len m) =
      { XzLocals.copy (a + b) l with vs := { (XzLocals.copy (a + b) l).vs with remainLen := some (len - a) } } := by
    rw [copy_add, ← copy_remainLen, XzLocals.copyMatch, ha]
  rw [XzLocals.copyMatch, hb, hcopy, XzLocals.copyMatch, hsum, Nat.sub_add_eq]

/-! ### What a round can do -/

/-- A round of the loop, by the size of the output: it puts out a byte, starts a match, meets
the end of the stream or fails. Only the match depends on the size. -/
inductive Shape (l : XzLocals σ) : (ℕ → XzRound σ) → Prop
  | byte {l' : XzLocals σ} : l'.out.length = l.out.length + 1 → l'.vs.remainLen = l.vs.remainLen → (Ringed l → Ringed l') →
      Shape l fun _ => .next l'
  | copy {l' : XzLocals σ} (len : ℕ) : l'.out = l.out → (Ringed l → Ringed l') → Shape l fun m => .next (l'.copyMatch (len + 2) m)
  | stop {l' : XzLocals σ} : l'.out = l.out → l'.vs.remainLen = none → (Ringed l → Ringed l') → Shape l fun _ => .stop l'
  | fail (e : XzErr) (input : σ) : Shape l fun _ => .fail e input

theorem shape_match {l l' : XzLocals σ} (len : ℕ) (hout : l'.out = l.out) (hring : Ringed l → Ringed l') :
    Shape l fun m => xzDecodeMatch l' len m := by
  unfold xzDecodeMatch
  by_cases hend : l'.vs.rep0 = 0
  · simp only [if_pos hend]
    exact .stop hout rfl fun h => ⟨(hring h).inside, (hring h).last⟩
  · by_cases hfar : l'.vs.rep0 > l'.pos
    · simp only [if_neg hend, if_pos hfar]
      exact .fail _ _
    · simp only [if_neg hend, if_neg hfar]
      exact .copy len hout hring

/-- The distances and the state of the machine play no part. -/
theorem Ringed.congr {l l' : XzLocals σ} (h : Ringed l) (hpos : l'.vs.dictionaryPos = l.vs.dictionaryPos)
    (hsize : l'.vs.dictionarySize = l.vs.dictionarySize) (hdict : l'.vs.dictionary = l.vs.dictionary)
    (hlast : l'.previousByte = l.previousByte) : Ringed l' := by
  constructor
  · rw [hpos, hsize]
    exact h.inside
  · rw [hlast, h.last, XzVarState.lastByte, XzVarState.lastByte, XzVarState.lastPos, XzVarState.lastPos, hpos, hsize, hdict]

theorem shape_repLen (read : σ → ReadCall σ) {l l' : XzLocals σ} (c : Coder σ) (posState : ℕ) (hout : l'.out = l.out)
    (hring : Ringed l → Ringed l') : Shape l fun m => xzDecodeRepLen read l' c posState m :=
  shape_match _ hout fun h => (hring h).congr rfl rfl rfl rfl

theorem Ringed.copyByte (h : Ringed l) : Ringed l.copyByte := h.put _

theorem Ringed.literal (h : Ringed l) (read : σ → ReadCall σ) (c : Coder σ) : Ringed (xzDecodeLiteral read l c) := by
  unfold xzDecodeLiteral
  dsimp only
  apply Ringed.put
  exact h.congr rfl rfl rfl rfl

theorem shape_shortRep {l l' : XzLocals σ} (c : Coder σ) (hout : l'.out = l.out) (hlen : l'.vs.remainLen = l.vs.remainLen)
    (hring : Ringed l → Ringed l') : Shape l fun _ => xzDecodeShortRep l' c := by
  unfold xzDecodeShortRep
  generalize (if l'.vs.state < 7 then 9 else 11) = state
  split_ifs
  · exact .fail _ _
  · apply Shape.byte
    · rw [← hout]
      exact length_put _ _
    · exact hlen
    · intro h
      apply Ringed.copyByte
      exact (hring h).congr rfl rfl rfl rfl

theorem shape_rep (read : σ → ReadCall σ) {l l' : XzLocals σ} (c : Coder σ) (posState : ℕ) (hout : l'.out = l.out)
    (hlen : l'.vs.remainLen = l.vs.remainLen) (hring : Ringed l → Ringed l') :
    Shape l fun m => xzDecodeRep read l' c posState m := by
  unfold xzDecodeRep
  dsimp only
  generalize rangeDecoderBitDecode read (isRepG0 + l'.vs.state) c = g0
  generalize rangeDecoderBitDecode read (isRep0Long + (l'.vs.state <<< 4) + posState) g0.2 = long
  generalize rangeDecoderBitDecode read (isRepG1 + l'.vs.state) g0.2 = g1
  generalize rangeDecoderBitDecode read (isRepG2 + l'.vs.state) g1.2 = g2
  split_ifs
  · exact shape_shortRep _ hout hlen hring
  · exact shape_repLen read _ _ hout hring
  · exact shape_repLen read _ _ hout fun h => (hring h).congr rfl rfl rfl rfl
  · exact shape_repLen read _ _ hout fun h => (hring h).congr rfl rfl rfl rfl
  · exact shape_repLen read _ _ hout fun h => (hring h).congr rfl rfl rfl rfl

theorem shape_round (read : σ → ReadCall σ) (l : XzLocals σ) : Shape l fun m => xzDecodeRound read l m := by
  unfold xzDecodeRound
  dsimp only
  generalize (l.pos &&& UInt32.ofNat (1 <<< l.vs.pb - 1)).toNat = posState
  generalize rangeDecoderBitDecode read (isMatch + (l.vs.state <<< 4) + posState) l.vs.coder = mt
  generalize rangeDecoderBitDecode read (isRep + l.vs.state) mt.2 = rep
  split_ifs
  · exact .fail _ _
  · exact .fail _ _
  · exact .byte (length_put _ _) rfl fun h => h.literal read _
  · exact shape_rep read _ _ rfl rfl fun h => h.congr rfl rfl rfl rfl
  · exact shape_match _ rfl fun h => h.congr rfl rfl rfl rfl

/-! ### The loop without its bound -/

theorem Shape.next_lt {f : ℕ → XzRound σ} (h : Shape l f) (hlt : l.out.length < m) (hnext : f m = .next l') :
    l.out.length < l'.out.length := by
  cases h with
  | byte hlen =>
    cases hnext
    omega
  | copy len hout =>
    cases hnext
    rw [length_copyMatch_eq, hout]
    omega
  | stop => cases hnext
  | fail => cases hnext

/-- Every round puts out a byte, so more rounds than there is room for make no difference. -/
theorem xzDecodeLoop_eq {k : ℕ} (hn : m - l.out.length ≤ n) (hk : m - l.out.length ≤ k) :
    xzDecodeLoop read m n l = xzDecodeLoop read m k l := by
  induction n generalizing k l with
  | zero =>
    cases k with
    | zero => rfl
    | succ k => rw [xzDecodeLoop, xzDecodeLoop, if_neg (by omega)]
  | succ n ih =>
    cases k with
    | zero => rw [xzDecodeLoop, xzDecodeLoop, if_neg (by omega)]
    | succ k =>
      rw [xzDecodeLoop, xzDecodeLoop]
      by_cases hlt : l.out.length < m
      · rw [if_pos hlt, if_pos hlt]
        cases hround : xzDecodeRound read l m with
        | next l' =>
          have hlt' := (shape_round read l).next_lt hlt hround
          exact ih (by omega) (by omega)
        | stop l' => rfl
        | fail e input => rfl
      · rw [if_neg hlt, if_neg hlt]

/-- The loop up to `m` bytes of output. -/
def xzRun (read : σ → ReadCall σ) (m : ℕ) (l : XzLocals σ) : Except (XzErr × σ) (XzLocals σ) := xzDecodeLoop read m m l

theorem xzRun_full (h : m ≤ l.out.length) : xzRun read m l = .ok l := by
  have hloop : xzDecodeLoop read m m l = xzDecodeLoop read m 0 l := xzDecodeLoop_eq (by omega) (by omega)
  rw [xzRun, hloop, xzDecodeLoop]

theorem xzRun_round (h : l.out.length < m) : xzRun read m l =
    match xzDecodeRound read l m with
    | .next l' => xzRun read m l'
    | .stop l' => .ok l'
    | .fail e input => .error (e, input) := by
  have hloop : xzDecodeLoop read m m l = xzDecodeLoop read m (m + 1) l := xzDecodeLoop_eq (by omega) (by omega)
  rw [xzRun, hloop, xzDecodeLoop, if_pos h]
  rfl

/-- What a call does first: the rest of a match, then the loop. -/
def xzResume (read : σ → ReadCall σ) (m : ℕ) (l : XzLocals σ) : Except (XzErr × σ) (XzLocals σ) :=
  match l.vs.remainLen with
  | none => .ok l
  | some len => xzRun read m (l.copyMatch len m)

/-! ### Cutting a call -/

/-- A match across the cut. -/
theorem xzRun_copyMatch (len : ℕ) (hm : l.out.length ≤ m) (hmn : m ≤ n)
    (hrun : (l.copyMatch len m).vs.remainLen = some 0 →
      xzRun read n (l.copyMatch len m) = (xzRun read m (l.copyMatch len m)).bind (xzResume read n)) :
    xzRun read n (l.copyMatch len n) = (xzRun read m (l.copyMatch len m)).bind (xzResume read n) := by
  have hlen := length_copyMatch_eq l len m
  have hrest := remainLen_copyMatch l len m
  by_cases hfits : len ≤ m - l.out.length
  · have hmin : min len (m - l.out.length) = min len (n - l.out.length) := by omega
    have hsame : l.copyMatch len n = l.copyMatch len m := by rw [XzLocals.copyMatch, XzLocals.copyMatch, hmin]
    rw [hsame]
    apply hrun
    rw [hrest, min_eq_left hfits, Nat.sub_self]
  · have hfull : m ≤ (l.copyMatch len m).out.length := by omega
    rw [xzRun_full hfull, ← copyMatch_cut len hmn]
    show _ = xzResume read n (l.copyMatch len m)
    rw [xzResume, hrest]

/-- The loop can be cut at any size. -/
theorem xzRun_split (hm : l.out.length ≤ m) (hmn : m ≤ n) (hidle : l.vs.remainLen = some 0) :
    xzRun read n l = (xzRun read m l).bind (xzResume read n) := by
  induction hroom : m - l.out.length using Nat.strong_induction_on generalizing l with
  | _ room ih =>
    by_cases hlt : l.out.length < m
    · rw [xzRun_round hlt, xzRun_round (hlt.trans_le hmn)]
      have hshape := shape_round read l
      generalize hf : (fun m => xzDecodeRound read l m) = f at hshape
      have hfm : xzDecodeRound read l m = f m := congrFun hf m
      have hfn : xzDecodeRound read l n = f n := congrFun hf n
      rw [hfm, hfn]
      cases hshape with
      | byte hlen hkeep => exact ih _ (by omega) (by omega) (hkeep.trans hidle) rfl
      | @copy l' len hout =>
        have hlen := length_copyMatch_eq l' (len + 2) m
        rw [hout] at hlen
        refine xzRun_copyMatch (len + 2) (by rw [hout]; exact hm) hmn fun hrest => ?_
        exact ih _ (by omega) (by omega) hrest rfl
      | @stop l' hout hnone =>
        show _ = xzResume read n l'
        rw [xzResume, hnone]
      | fail e input => rfl
    · rw [xzRun_full (show m ≤ l.out.length by omega)]
      show _ = xzResume read n l
      rw [xzResume, hidle]
      dsimp only
      rw [copyMatch_zero_of_idle hidle]

/-- A call can be cut at any size. -/
theorem xzResume_split (hm : l.out.length ≤ m) (hmn : m ≤ n) :
    xzResume read n l = (xzResume read m l).bind (xzResume read n) := by
  cases hrest : l.vs.remainLen with
  | none =>
    have hend : ∀ k, xzResume read k l = .ok l := by
      intro k
      rw [xzResume, hrest]
    rw [hend m]
    rfl
  | some len =>
    have hlen := length_copyMatch_eq l len m
    have hresume : ∀ k, xzResume read k l = xzRun read k (l.copyMatch len k) := by
      intro k
      rw [xzResume, hrest]
    rw [hresume n, hresume m]
    exact xzRun_copyMatch len hm hmn fun hidle => xzRun_split (by omega) hmn hidle

/-! ### A call -/

/-- The local variables with which a call goes on. -/
def xzStart (vs : XzVarState σ) : XzLocals σ := ⟨vs, [], vs.lastByte⟩

/-- What a call puts out and leaves. -/
def XzLocals.finish (l : XzLocals σ) : Bytes × XzVarState σ :=
  (l.out, { l.vs with globalPos := l.vs.globalPos + UInt32.ofNat l.out.length })

theorem ringed_xzStart {vs : XzVarState σ} (h : vs.dictionaryPos < vs.dictionarySize) : Ringed (xzStart vs) := ⟨h, rfl⟩

/-- The last byte of the call before plays no part in a copy. -/
theorem copyMatch_previousByte (vs : XzVarState σ) (len m : ℕ) (b b' : UInt8) :
    (XzLocals.copyMatch ⟨vs, [], b⟩ len m).vs = (XzLocals.copyMatch ⟨vs, [], b'⟩ len m).vs ∧
      (XzLocals.copyMatch ⟨vs, [], b⟩ len m).out = (XzLocals.copyMatch ⟨vs, [], b'⟩ len m).out := by
  unfold XzLocals.copyMatch
  dsimp only
  cases min len (m - ([] : Bytes).length) with
  | zero => exact ⟨rfl, rfl⟩
  | succ n => exact ⟨rfl, rfl⟩

/-- The last byte is read back from the dictionary. -/
theorem Ringed.eq_of (h : Ringed l) (hvs : l'.vs = l.vs) (hout : l'.out = l.out) : { l' with previousByte := l'.vs.lastByte } = l := by
  rw [hvs, hout, ← h.last]

theorem xzDecode_eq {vs : XzVarState σ} (h : vs.dictionaryPos < vs.dictionarySize) (m : ℕ) :
    xzDecode read vs m = (xzResume read m (xzStart vs)).map XzLocals.finish := by
  unfold xzDecode xzResume xzStart
  cases hrest : vs.remainLen with
  | none =>
    show Except.ok ([], vs) = Except.ok ([], { vs with globalPos := vs.globalPos + UInt32.ofNat 0 })
    rw [show vs.globalPos + UInt32.ofNat 0 = vs.globalPos from UInt32.add_zero _]
  | some len =>
    have hsame := copyMatch_previousByte vs len m 0 vs.lastByte
    have hstart := ((ringed_xzStart h).copyMatch len m).eq_of hsame.1 hsame.2
    unfold xzStart XzVarState.lastByte XzVarState.lastPos at hstart
    dsimp only
    rw [xzRun, XzVarState.lastByte, XzVarState.lastPos, ← hstart]
    generalize xzDecodeLoop read m m _ = result
    cases result with
    | error e => rfl
    | ok l => rfl

/-- A call stops short of its size only at the end of the stream. -/
theorem xzRun_ended (hring : Ringed l) (hlen : l.out.length ≤ m) (hrun : xzRun read m l = .ok l') :
    Ringed l' ∧ (l'.out.length = m ∨ l'.vs.remainLen = none) := by
  induction hroom : m - l.out.length using Nat.strong_induction_on generalizing l with
  | _ room ih =>
    by_cases hlt : l.out.length < m
    · rw [xzRun_round hlt] at hrun
      have hshape := shape_round read l
      generalize hf : (fun m => xzDecodeRound read l m) = f at hshape
      have hfm : xzDecodeRound read l m = f m := congrFun hf m
      rw [hfm] at hrun
      cases hshape with
      | byte hout _ hkeep => exact ih _ (by omega) (hkeep hring) (by omega) hrun rfl
      | @copy l₀ len hout hkeep =>
        have hcopied := length_copyMatch_eq l₀ (len + 2) m
        rw [hout] at hcopied
        exact ih _ (by omega) ((hkeep hring).copyMatch _ _) (by omega) hrun rfl
      | stop _ hnone hkeep =>
        cases hrun
        exact ⟨hkeep hring, .inr hnone⟩
      | fail => cases hrun
    · rw [xzRun_full (by omega)] at hrun
      cases hrun
      exact ⟨hring, .inl (by omega)⟩

theorem xzResume_ended (hring : Ringed l) (hlen : l.out.length ≤ m) (hrun : xzResume read m l = .ok l') :
    Ringed l' ∧ (l'.out.length = m ∨ l'.vs.remainLen = none) := by
  unfold xzResume at hrun
  cases hrest : l.vs.remainLen with
  | none =>
    rw [hrest] at hrun
    cases hrun
    exact ⟨hring, .inr hrest⟩
  | some len =>
    rw [hrest] at hrun
    exact xzRun_ended (hring.copyMatch len m) (length_copyMatch len hlen) hrun

/-! ### The bytes in front of a block -/

/-- The local variables of a longer call that has put out these bytes before. -/
def XzLocals.after (pre : Bytes) (l : XzLocals σ) : XzLocals σ :=
  { vs := { l.vs with globalPos := l.vs.globalPos - UInt32.ofNat pre.length }
    out := pre ++ l.out
    previousByte := l.previousByte }

def XzRound.after (pre : Bytes) : XzRound σ → XzRound σ
  | .next l => .next (l.after pre)
  | .stop l => .stop (l.after pre)
  | .fail e input => .fail e input

section After
variable (pre : Bytes)

theorem pos_after (l : XzLocals σ) : (l.after pre).pos = l.pos := by
  show UInt32.ofNat (pre ++ l.out).length + (l.vs.globalPos - UInt32.ofNat pre.length) = UInt32.ofNat l.out.length + l.vs.globalPos
  rw [List.length_append, UInt32.ofNat_add]
  grind

theorem put_after (l : XzLocals σ) (b : UInt8) : (l.after pre).put b = (l.put b).after pre := by
  unfold XzLocals.put XzLocals.after
  dsimp only
  rw [List.append_assoc]

theorem copy_after (n : ℕ) (l : XzLocals σ) : XzLocals.copy n (l.after pre) = (XzLocals.copy n l).after pre := by
  induction n generalizing l with
  | zero => rfl
  | succ n ih =>
    rw [XzLocals.copy, XzLocals.copy, ← ih, XzLocals.copyByte, put_after]
    rfl

theorem copyMatch_after (l : XzLocals σ) (len m : ℕ) :
    (l.after pre).copyMatch len (pre.length + m) = (l.copyMatch len m).after pre := by
  have hroom : pre.length + m - (l.after pre).out.length = m - l.out.length := by
    show pre.length + m - (pre ++ l.out).length = _
    rw [List.length_append]
    omega
  unfold XzLocals.copyMatch
  dsimp only
  rw [hroom, copy_after]
  rfl

theorem match_after (l : XzLocals σ) (len m : ℕ) :
    xzDecodeMatch (l.after pre) len (pre.length + m) = (xzDecodeMatch l len m).after pre := by
  unfold xzDecodeMatch
  rw [pos_after, copyMatch_after]
  show (if l.vs.rep0 = 0 then _ else if l.vs.rep0 > l.pos then _ else _) = _
  split_ifs
  · rfl
  · rfl
  · rfl

theorem literal_after (read : σ → ReadCall σ) (l : XzLocals σ) (c : Coder σ) :
    xzDecodeLiteral read (l.after pre) c = (xzDecodeLiteral read l c).after pre := by
  unfold xzDecodeLiteral
  rw [pos_after]
  exact put_after pre { l with vs := { l.vs with coder := _, state := _, previousIsMatch := false } } _

theorem repLen_after (read : σ → ReadCall σ) (l : XzLocals σ) (c : Coder σ) (posState m : ℕ) :
    xzDecodeRepLen read (l.after pre) c posState (pre.length + m) = (xzDecodeRepLen read l c posState m).after pre := by
  unfold xzDecodeRepLen
  exact match_after pre { l with vs := { l.vs with coder := _, state := _ } } _ _

theorem shortRep_after (l : XzLocals σ) (c : Coder σ) : xzDecodeShortRep (l.after pre) c = (xzDecodeShortRep l c).after pre := by
  unfold xzDecodeShortRep
  rw [pos_after]
  by_cases hpos : l.pos = 0
  · rw [if_pos hpos, if_pos hpos]
    rfl
  · rw [if_neg hpos, if_neg hpos]
    exact congrArg XzRound.next (put_after pre { l with vs := { l.vs with coder := c, state := _ } } _)

theorem rep_after (read : σ → ReadCall σ) (l : XzLocals σ) (c : Coder σ) (posState m : ℕ) :
    xzDecodeRep read (l.after pre) c posState (pre.length + m) = (xzDecodeRep read l c posState m).after pre := by
  unfold xzDecodeRep
  have hstate : (l.after pre).vs.state = l.vs.state := rfl
  dsimp only
  rw [hstate]
  generalize rangeDecoderBitDecode read (isRepG0 + l.vs.state) c = g0
  generalize rangeDecoderBitDecode read (isRep0Long + (l.vs.state <<< 4) + posState) g0.2 = long
  generalize rangeDecoderBitDecode read (isRepG1 + l.vs.state) g0.2 = g1
  generalize rangeDecoderBitDecode read (isRepG2 + l.vs.state) g1.2 = g2
  split_ifs
  · exact shortRep_after pre l _
  · exact repLen_after pre read l _ _ _
  · exact repLen_after pre read { l with vs := { l.vs with rep0 := l.vs.rep1, rep1 := l.vs.rep0 } } _ _ _
  · exact repLen_after pre read { l with vs := { l.vs with rep0 := l.vs.rep2, rep1 := l.vs.rep0, rep2 := l.vs.rep1 } } _ _ _
  · exact repLen_after pre read
      { l with vs := { l.vs with rep0 := l.vs.rep3, rep1 := l.vs.rep0, rep2 := l.vs.rep1, rep3 := l.vs.rep2 } } _ _ _

theorem newMatch_after (read : σ → ReadCall σ) (l : XzLocals σ) (c : Coder σ) (posState m : ℕ) :
    xzDecodeNewMatch read (l.after pre) c posState (pre.length + m) = (xzDecodeNewMatch read l c posState m).after pre := by
  unfold xzDecodeNewMatch
  dsimp only
  generalize xzLenDecode read lenCoder posState c = len
  generalize xzDecodeDistance read len.1 len.2 = dist
  exact match_after pre
    { l with vs := { l.vs with coder := _, state := _, rep0 := _, rep1 := l.vs.rep0, rep2 := l.vs.rep1, rep3 := l.vs.rep2 } } _ _

theorem round_after (read : σ → ReadCall σ) (l : XzLocals σ) (m : ℕ) :
    xzDecodeRound read (l.after pre) (pre.length + m) = (xzDecodeRound read l m).after pre := by
  unfold xzDecodeRound
  have hstate : (l.after pre).vs.state = l.vs.state := rfl
  have hcoder : (l.after pre).vs.coder = l.vs.coder := rfl
  have hpb : (l.after pre).vs.pb = l.vs.pb := rfl
  dsimp only
  rw [pos_after, hstate, hcoder, hpb]
  generalize (l.pos &&& UInt32.ofNat (1 <<< l.vs.pb - 1)).toNat = posState
  generalize rangeDecoderBitDecode read (isMatch + (l.vs.state <<< 4) + posState) l.vs.coder = mt
  generalize rangeDecoderBitDecode read (isRep + l.vs.state) mt.2 = rep
  split_ifs
  · rfl
  · rfl
  · exact congrArg XzRound.next (literal_after pre read l _)
  · exact rep_after pre read { l with vs := { l.vs with previousIsMatch := true } } _ _ _
  · exact newMatch_after pre read { l with vs := { l.vs with previousIsMatch := true } } _ _ _

theorem run_after (read : σ → ReadCall σ) (l : XzLocals σ) (m : ℕ) :
    xzRun read (pre.length + m) (l.after pre) = (xzRun read m l).map (XzLocals.after pre) := by
  induction hroom : m - l.out.length using Nat.strong_induction_on generalizing l with
  | _ room ih =>
    have hout : (l.after pre).out.length = pre.length + l.out.length := List.length_append
    by_cases hlt : l.out.length < m
    · rw [xzRun_round hlt, xzRun_round (by omega), round_after]
      cases hround : xzDecodeRound read l m with
      | next l' =>
        have hlt' := (shape_round read l).next_lt hlt hround
        exact ih _ (by omega) l' rfl
      | stop l' => rfl
      | fail e input => rfl
    · rw [xzRun_full (show m ≤ l.out.length by omega), xzRun_full (by omega)]
      rfl

theorem resume_after (read : σ → ReadCall σ) (l : XzLocals σ) (m : ℕ) :
    xzResume read (pre.length + m) (l.after pre) = (xzResume read m l).map (XzLocals.after pre) := by
  unfold xzResume
  have hrest : (l.after pre).vs.remainLen = l.vs.remainLen := rfl
  rw [hrest]
  cases l.vs.remainLen with
  | none => rfl
  | some len =>
    dsimp only
    rw [copyMatch_after, run_after]

end After

/-! ### Blocks of any sizes -/

/-- The loop of `xz_decompress_buf_to_buf` with a list of block sizes that goes on for ever, and
what it puts out. -/
def xzBlocks (read : σ → ReadCall σ) (outSize : ℕ) : ℕ → (ℕ → ℕ) → ℕ → XzVarState σ → Except (XzErr × σ) Bytes
  | 0, _, _, _ => .ok []
  | n + 1, sizes, nowPos, vs =>
    if nowPos < outSize then
      match xzDecode read vs (min (outSize - nowPos) (sizes 0)) with
      | .error e => .error e
      | .ok (block, vs) =>
        if block = [] then .ok []
        else (xzBlocks read outSize n (fun j => sizes (j + 1)) (nowPos + block.length) vs).map (block ++ ·)
    else .ok []

theorem xzResume_full (h : m ≤ l.out.length) (hrun : xzResume read m l = .ok l') : l'.out = l.out := by
  unfold xzResume at hrun
  cases hrest : l.vs.remainLen with
  | none =>
    rw [hrest] at hrun
    cases hrun
    rfl
  | some len =>
    have hlen := length_copyMatch_eq l len m
    have hmin : min len (m - l.out.length) = 0 := by omega
    rw [hrest] at hrun
    dsimp only at hrun
    rw [xzRun_full (by omega)] at hrun
    cases hrun
    rw [XzLocals.copyMatch, hmin]
    rfl

/-- What a call leaves, with the bytes put out so far, is where a longer call would be. -/
theorem after_finish (h : Ringed l) (pre : Bytes) : (xzStart l.finish.2).after (pre ++ l.out) = l.after pre := by
  have hpos : l.vs.globalPos + UInt32.ofNat l.out.length - UInt32.ofNat (pre ++ l.out).length =
      l.vs.globalPos - UInt32.ofNat pre.length := by
    rw [List.length_append, UInt32.ofNat_add]
    grind
  have hlast : (xzStart l.finish.2).previousByte = l.previousByte := h.last.symm
  unfold XzLocals.after
  rw [hlast]
  show XzLocals.mk { l.vs with globalPos := l.vs.globalPos + UInt32.ofNat l.out.length - UInt32.ofNat (pre ++ l.out).length }
    (pre ++ l.out ++ []) l.previousByte = _
  rw [hpos, List.append_nil]

section Blocks
variable {outSize : ℕ} {vs : XzVarState σ} {pre : Bytes}

theorem out_xzStart_after : ((xzStart vs).after pre).out = pre := List.append_nil pre

theorem out_of_full (h : outSize ≤ pre.length) (hrun : xzResume read outSize ((xzStart vs).after pre) = .ok l) : l.out = pre := by
  have hout : ((xzStart vs).after pre).out = pre := out_xzStart_after
  rw [← hout]
  exact xzResume_full (by rwa [hout]) hrun

/-- If a long call succeeds, so does the first block of it, and the rest of the call goes on from what it leaves. -/
theorem block_of_resume (hin : vs.dictionaryPos < vs.dictionarySize) (hm : 0 < m) (hroom : pre.length + m ≤ outSize)
    (hrun : xzResume read outSize ((xzStart vs).after pre) = .ok l) :
    ∃ l₁, xzDecode read vs m = .ok l₁.finish ∧ Ringed l₁ ∧ l₁.out.length ≤ m ∧ (l₁.out = [] → l.out = pre) ∧
      xzResume read outSize ((xzStart l₁.finish.2).after (pre ++ l₁.out)) = .ok l := by
  have hout : ((xzStart vs).after pre).out = pre := out_xzStart_after
  have hcut : xzResume read outSize ((xzStart vs).after pre) =
      (xzResume read (pre.length + m) ((xzStart vs).after pre)).bind (xzResume read outSize) :=
    xzResume_split (by rw [hout]; omega) hroom
  have hdecode : xzDecode read vs m = (xzResume read m (xzStart vs)).map XzLocals.finish := xzDecode_eq hin m
  rw [hcut, resume_after] at hrun
  cases hblock : xzResume read m (xzStart vs) with
  | error e =>
    rw [hblock] at hrun
    cases hrun
  | ok l₁ =>
    rw [hblock] at hrun hdecode
    have hrest : xzResume read outSize (l₁.after pre) = .ok l := hrun
    obtain ⟨hring, hended⟩ := xzResume_ended (ringed_xzStart hin) (Nat.zero_le m) hblock
    refine ⟨l₁, hdecode, hring, length_xzDecode read hdecode, fun hnil => ?_, by rwa [after_finish hring]⟩
    have hnone : l₁.vs.remainLen = none := by
      refine hended.resolve_left fun hfull => ?_
      rw [hnil] at hfull
      exact absurd hfull (Nat.ne_of_lt hm)
    have hstay : xzResume read outSize (l₁.after pre) = .ok (l₁.after pre) := by
      rw [xzResume]
      show (match l₁.vs.remainLen with | none => _ | some len => _) = _
      rw [hnone]
    rw [hstay] at hrest
    cases hrest
    show pre ++ l₁.out = pre
    rw [hnil, List.append_nil]

/-- The blocks put out what is left of a call that succeeds. -/
theorem xzBlocks_of_resume {sizes : ℕ → ℕ} (hsizes : ∀ j, 0 < sizes j) (hin : vs.dictionaryPos < vs.dictionarySize)
    (hn : outSize - pre.length ≤ n) (hpre : pre.length ≤ outSize)
    (hrun : xzResume read outSize ((xzStart vs).after pre) = .ok l) :
    ∃ rest, xzBlocks read outSize n sizes pre.length vs = .ok rest ∧ l.out = pre ++ rest := by
  induction n generalizing sizes pre vs with
  | zero => exact ⟨[], rfl, by rw [out_of_full (by omega) hrun, List.append_nil]⟩
  | succ n ih =>
    rw [xzBlocks]
    by_cases hlt : pre.length < outSize
    · have hsize := hsizes 0
      obtain ⟨l₁, hdecode, hring, hle, hnil, hrest⟩ :=
        block_of_resume hin (show 0 < min (outSize - pre.length) (sizes 0) by omega) (by omega) hrun
      rw [if_pos hlt, hdecode]
      show ∃ rest, (if l₁.out = [] then _ else _) = _ ∧ _
      by_cases hout : l₁.out = []
      · exact ⟨[], if_pos hout, by rw [hnil hout, List.append_nil]⟩
      · have hpos : 0 < l₁.out.length := List.length_pos_iff.mpr hout
        have hlen : (pre ++ l₁.out).length = pre.length + l₁.out.length := List.length_append
        have hin' : l₁.finish.2.dictionaryPos < l₁.finish.2.dictionarySize := hring.inside
        have hn' : outSize - (pre ++ l₁.out).length ≤ n := by omega
        have hpre' : (pre ++ l₁.out).length ≤ outSize := by omega
        obtain ⟨rest, hblocks, heq⟩ := ih (fun j => hsizes (j + 1)) hin' hn' hpre' hrest
        rw [hlen] at hblocks
        refine ⟨l₁.out ++ rest, ?_, by rw [heq, List.append_assoc]⟩
        rw [if_neg hout]
        show (xzBlocks read outSize n (fun j => sizes (j + 1)) (pre.length + l₁.out.length) l₁.finish.2).map (l₁.out ++ ·) = _
        rw [hblocks]
        rfl
    · rw [if_neg hlt]
      exact ⟨[], rfl, by rw [out_of_full (by omega) hrun, List.append_nil]⟩

/-- One call and blocks of any sizes put out the same. -/
theorem xzBlocks_of_xzDecode {sizes : ℕ → ℕ} {out : Bytes} {vs' : XzVarState σ} (hsizes : ∀ j, 0 < sizes j)
    (hin : vs.dictionaryPos < vs.dictionarySize) (h : xzDecode read vs outSize = .ok (out, vs')) :
    xzBlocks read outSize outSize sizes 0 vs = .ok out := by
  have hdecode : xzDecode read vs outSize = (xzResume read outSize (xzStart vs)).map XzLocals.finish := xzDecode_eq hin outSize
  have hafter : (xzStart vs).after [] = xzStart vs := by
    unfold XzLocals.after xzStart
    show XzLocals.mk { vs with globalPos := vs.globalPos - 0 } [] _ = _
    rw [UInt32.sub_zero]
  cases hrun : xzResume read outSize (xzStart vs) with
  | error e =>
    rw [h, hrun] at hdecode
    cases hdecode
  | ok l =>
    rw [h, hrun] at hdecode
    cases hdecode
    rw [← hafter] at hrun
    have hn : outSize - ([] : Bytes).length ≤ outSize := Nat.sub_le outSize _
    obtain ⟨rest, hblocks, heq⟩ := xzBlocks_of_resume hsizes hin hn (Nat.zero_le outSize) hrun
    rw [List.nil_append] at heq
    rw [heq]
    exact hblocks

/-- With blocks of `blockBufSize` bytes this is the loop of the decoder. -/
theorem xzBlockLoop_eq (nowPos : ℕ) (t : Bytes) {out : Bytes}
    (h : xzBlocks read outSize n (fun _ => blockBufSize) nowPos vs = .ok out) :
    (xzBlockLoop (fun _ => read) (fun block t => t ++ block) outSize n nowPos vs t).1 = none ∧
      (xzBlockLoop (fun _ => read) (fun block t => t ++ block) outSize n nowPos vs t).2.2 = t ++ out := by
  induction n generalizing nowPos vs t out with
  | zero =>
    cases h
    exact ⟨rfl, (List.append_nil t).symm⟩
  | succ n ih =>
    rw [xzBlocks] at h
    rw [xzBlockLoop]
    by_cases hlt : nowPos < outSize
    · rw [if_pos hlt] at h ⊢
      cases hdecode : xzDecode read vs (min (outSize - nowPos) blockBufSize) with
      | error e =>
        rw [hdecode] at h
        cases h
      | ok r =>
        obtain ⟨block, vs'⟩ := r
        rw [hdecode] at h
        dsimp only at h ⊢
        by_cases hnil : block = []
        · rw [if_pos hnil] at h ⊢
          cases h
          exact ⟨rfl, (List.append_nil t).symm⟩
        · rw [if_neg hnil] at h ⊢
          cases hblocks : xzBlocks read outSize n (fun _ => blockBufSize) (nowPos + block.length) vs' with
          | error e =>
            rw [hblocks] at h
            cases h
          | ok rest =>
            rw [hblocks] at h
            cases h
            rw [← List.append_assoc]
            exact ih (nowPos + block.length) (t ++ block) hblocks
    · rw [if_neg hlt] at h ⊢
      cases h
      exact ⟨rfl, (List.append_nil t).symm⟩

end Blocks

end Ln882x.Ota
