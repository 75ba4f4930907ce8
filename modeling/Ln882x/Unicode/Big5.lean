import Ln882x.Unicode.Utf8

/-! UTF-8 to Big5. The loop looks at up to three bytes. It copies an ASCII byte, and any
byte with less than two bytes behind it; it turns a three-byte character into the Big5
character of a table, or into nothing. In front of any other byte it neither writes nor
moves. So it comes to the end of a string made of the first kinds and stays for ever
in front of the first character of another. Reads beyond the end do not happen. -/

namespace Ln882x.Unicode

open Nor (Bytes le)

/-- The index into the string and the bytes written. -/
structure Conversion where
  i : ℕ
  big5 : Bytes
  deriving DecidableEq

/-- What one turn of the loop leads to. -/
inductive Turn
  | next (st : Conversion)
  | done (st : Conversion)
  | outside
  | asserted
  deriving DecidableEq

/-- A byte of the string or its terminator; nothing behind that. -/
def byteAt (str : Bytes) (i : ℕ) : Option UInt8 := (str ++ [0])[i]?

section Table

-- `table_BIG5_to_UCS2`: pairs of a Big5 code and a code point
variable (table : List (ℕ × ℕ))

/-- The bytes written for the first entry of the code point; a zero code point ends in the
assertion. -/
def encodeUnicodeOneToBig5 (unicode : ℕ) : Option Bytes :=
  if unicode ≠ 0 then
    match table.find? fun entry => entry.2 = unicode with
    | some entry => some [.ofNat ((entry.1 &&& 0xFF00) >>> 8), .ofNat (entry.1 &&& 0xFF)]
    | none => some []
  else none

def isChinese (chr chr2 chr3 : UInt8) : Bool :=
  (chr ≥ 0xE0 && chr ≤ 0xEF) && (chr2 ≥ 0x80 && chr2 ≤ 0xBF) && (chr3 ≥ 0x80 && chr3 ≤ 0xBF)

/-- `unicode`, both bytes of which the decoder writes for three bytes of UTF-8. -/
def decodeThree (chr chr2 chr3 : UInt8) : ℕ := le (encUtf8ToUnicodeOne [chr, chr2, chr3, 0] [0, 0]).2

def lnEncodeUtf8ToBig5Turn (utf8Str : Bytes) (st : Conversion) : Turn :=
  match byteAt utf8Str st.i with
  | none => .outside
  | some chr =>
    if chr = 0 then .done st
    else
      let copy := Turn.next ⟨st.i + 1, st.big5 ++ [chr]⟩
      if chr ≥ 0x80 then
        match byteAt utf8Str (st.i + 1) with
        | none => .outside
        | some chr2 =>
          if chr2 = 0 then copy
          else
            match byteAt utf8Str (st.i + 2) with
            | none => .outside
            | some chr3 =>
              if chr3 = 0 then copy
              else if isChinese chr chr2 chr3 then
                match encodeUnicodeOneToBig5 table (decodeThree chr chr2 chr3) with
                | some bytes => .next ⟨st.i + 3, st.big5 ++ bytes⟩
                | none => .asserted
              else .next st
      else copy

/-- The loop of `ln_encode_utf8_to_big5` for a number of turns. -/
def turns (utf8Str : Bytes) : ℕ → Conversion → Turn
  | 0, st => .next st
  | n + 1, st =>
    match lnEncodeUtf8ToBig5Turn table utf8Str st with
    | .next st => turns utf8Str n st
    | t => t

end Table

/-- ASCII bytes and three-byte characters other than the long form of zero, with at the end up to
two bytes of any kind. -/
inductive Convertible : Bytes → Prop
  | nil : Convertible []
  | ascii {c : UInt8} {str : Bytes} (hc : c < 0x80) (h : Convertible str) : Convertible (c :: str)
  | three {a b c : UInt8} {str : Bytes} (habc : isChinese a b c = true)
    (hne : ¬ (a = 0xE0 ∧ b = 0x80 ∧ c = 0x80)) (h : Convertible str) : Convertible (a :: b :: c :: str)
  | last {c : UInt8} {str : Bytes} (hstr : str.length < 2) (h : Convertible str) : Convertible (c :: str)

/-! ### One turn -/

variable {table : List (ℕ × ℕ)}

theorem byteAt_append (pre suf : Bytes) (k : ℕ) : byteAt (pre ++ suf) (pre.length + k) = byteAt suf k := by
  rw [byteAt, byteAt, List.append_assoc, List.getElem?_append_right (by omega), Nat.add_sub_cancel_left]

/-- The bytes written for a character are no more than two. -/
theorem encodeUnicodeOneToBig5_length {u : ℕ} {bytes : Bytes} (h : encodeUnicodeOneToBig5 table u = some bytes) :
    bytes.length ≤ 2 := by
  rw [encodeUnicodeOneToBig5] at h
  split at h
  · split at h
    · cases h
      exact Nat.le_refl 2
    · cases h
      exact Nat.zero_le 2
  · cases h

theorem encodeUnicodeOneToBig5_eq_none {u : ℕ} : encodeUnicodeOneToBig5 table u = none ↔ u = 0 := by
  rw [encodeUnicodeOneToBig5]
  split
  · rename_i hu
    refine iff_of_false ?_ hu
    split <;> simp
  · rename_i hu
    exact iff_of_true rfl (not_not.mp hu)

theorem isChinese_iff (a b c : UInt8) : isChinese a b c = true ↔
    (0xE0 ≤ a.toNat ∧ a.toNat < 0xF0) ∧ (0x80 ≤ b.toNat ∧ b.toNat < 0xC0) ∧ (0x80 ≤ c.toNat ∧ c.toNat < 0xC0) := by
  have hge : ∀ x m : UInt8, x ≥ m ↔ m.toNat ≤ x.toNat := fun x m => UInt8.le_iff_toNat_le
  simp only [isChinese, Bool.and_eq_true, decide_eq_true_eq, hge]
  show ((0xE0 ≤ a.toNat ∧ a.toNat ≤ 0xEF) ∧ (0x80 ≤ b.toNat ∧ b.toNat ≤ 0xBF)) ∧
    (0x80 ≤ c.toNat ∧ c.toNat ≤ 0xBF) ↔ _
  omega

/-- Of the three-byte characters only the long form of zero decodes to zero. -/
theorem decodeThree_eq_zero {a b c : UInt8} (h : isChinese a b c = true) :
    decodeThree a b c = 0 ↔ a = 0xE0 ∧ b = 0x80 ∧ c = 0x80 := by
  have hr := (isChinese_iff a b c).mp h
  have hsize : encGetUtf8Size a = 3 := by
    rw [encGetUtf8Size_eq, if_neg (by omega), if_neg (by omega), if_neg (by omega), if_pos (by omega)]
  have ht2 : isTail b = true := (isTail_iff b).mpr hr.2.1
  have ht3 : isTail c = true := (isTail_iff c).mpr hr.2.2
  have hdec : (encUtf8ToUnicodeOne [a, b, c, 0] [0, 0]).2 =
      [(b <<< 6) + (c &&& 0x3F), (a <<< 4) + ((b >>> 2) &&& 0x0F)] := by
    simp [encUtf8ToUnicodeOne, hsize, ht2, ht3]
  have hval : decodeThree a b c = ((b <<< 6) + (c &&& 0x3F)).toNat + 256 * ((a <<< 4) + ((b >>> 2) &&& 0x0F)).toNat := by
    rw [decodeThree, hdec]
    simp [le, Nat.ofDigits]
  have heq : ∀ x m : UInt8, x = m ↔ x.toNat = m.toNat := fun x m => UInt8.toNat_inj.symm
  rw [hval, toNat_join6, toNat_join4, heq a, heq b, heq c]
  show _ ↔ a.toNat = 0xE0 ∧ b.toNat = 0x80 ∧ c.toNat = 0x80
  omega

/-- What a turn in front of the rest of a string does. -/
inductive TurnOn (table : List (ℕ × ℕ)) : Bytes → Conversion → Turn → Prop
  | done (st : Conversion) : TurnOn table [] st (.done st)
  | copy {c : UInt8} {suf : Bytes} (st : Conversion) (h : c < 0x80 ∨ suf.length < 2) :
    TurnOn table (c :: suf) st (.next ⟨st.i + 1, st.big5 ++ [c]⟩)
  | three {a b c : UInt8} {suf bytes : Bytes} (st : Conversion) (habc : isChinese a b c = true)
    (hne : ¬ (a = 0xE0 ∧ b = 0x80 ∧ c = 0x80)) (hb : bytes.length ≤ 2) :
    TurnOn table (a :: b :: c :: suf) st (.next ⟨st.i + 3, st.big5 ++ bytes⟩)
  | asserted {suf : Bytes} (st : Conversion) : TurnOn table (0xE0 :: 0x80 :: 0x80 :: suf) st .asserted
  | stuck {a b c : UInt8} {suf : Bytes} (st : Conversion) (ha : ¬ a < 0x80) (habc : isChinese a b c = false) :
    TurnOn table (a :: b :: c :: suf) st (.next st)

variable (table) in
theorem turn_on (pre : Bytes) {suf : Bytes} (hsuf : ∀ c ∈ suf, c ≠ 0) (big5 : Bytes) :
    TurnOn table suf ⟨pre.length, big5⟩ (lnEncodeUtf8ToBig5Turn table (pre ++ suf) ⟨pre.length, big5⟩) := by
  have h0 : byteAt (pre ++ suf) pre.length = byteAt suf 0 := byteAt_append pre suf 0
  rw [lnEncodeUtf8ToBig5Turn, h0, byteAt_append, byteAt_append]
  match suf, hsuf with
  | [], _ => exact .done _
  | [a], hsuf =>
    have ha : a ≠ 0 := hsuf a (by simp)
    simp only [byteAt, List.cons_append, List.nil_append, List.getElem?_cons_zero, List.getElem?_cons_succ,
      if_neg ha, if_true, ite_self]
    exact .copy _ (.inr (by decide))
  | [a, b], hsuf =>
    have ha : a ≠ 0 := hsuf a (by simp)
    have hb : b ≠ 0 := hsuf b (by simp)
    simp only [byteAt, List.cons_append, List.nil_append, List.getElem?_cons_zero, List.getElem?_cons_succ,
      if_neg ha, if_neg hb, if_true, ite_self]
    exact .copy _ (.inr (Nat.lt_succ_self 1))
  | a :: b :: c :: suf, hsuf =>
    have ha : a ≠ 0 := hsuf a (by simp)
    have hb : b ≠ 0 := hsuf b (by simp)
    have hc : c ≠ 0 := hsuf c (by simp)
    simp only [byteAt, List.cons_append, List.getElem?_cons_zero, List.getElem?_cons_succ, if_neg ha,
      if_neg hb, if_neg hc]
    by_cases hascii : a < 0x80
    · rw [if_neg (fun h => absurd hascii (UInt8.not_lt.mpr h))]
      exact .copy _ (.inl hascii)
    · rw [if_pos (UInt8.not_lt.mp hascii)]
      by_cases hch : isChinese a b c = true
      · rw [if_pos hch]
        cases hbytes : encodeUnicodeOneToBig5 table (decodeThree a b c) with
        | none =>
          obtain ⟨rfl, rfl, rfl⟩ := (decodeThree_eq_zero hch).mp (encodeUnicodeOneToBig5_eq_none.mp hbytes)
          exact .asserted _
        | some bytes =>
          refine .three _ hch ?_ (encodeUnicodeOneToBig5_length hbytes)
          have hsome : encodeUnicodeOneToBig5 table (decodeThree a b c) ≠ none := by simp [hbytes]
          exact fun h0 => hsome (encodeUnicodeOneToBig5_eq_none.mpr ((decodeThree_eq_zero hch).mpr h0))
      · rw [if_neg hch]
        exact .stuck _ hascii (Bool.not_eq_true _ ▸ hch)

/-! ### The loop -/

theorem turns_succ (str : Bytes) (n : ℕ) (st : Conversion) :
    turns table str (n + 1) st =
      match lnEncodeUtf8ToBig5Turn table str st with
      | .next st => turns table str n st
      | t => t := rfl

/-- From the end of `pre` the loop comes to the end of the string, and writes no more than it reads. -/
def EndsFrom (table : List (ℕ × ℕ)) (pre suf big5 : Bytes) : Prop :=
  ∃ n st, turns table (pre ++ suf) n ⟨pre.length, big5⟩ = .done st ∧ st.i = (pre ++ suf).length ∧
    st.big5.length ≤ big5.length + suf.length

/-- A turn that takes `l`, and the turns behind it. -/
theorem EndsFrom.turn {pre l suf big5 out : Bytes}
    (hturn : lnEncodeUtf8ToBig5Turn table (pre ++ (l ++ suf)) ⟨pre.length, big5⟩ =
      .next ⟨pre.length + l.length, out⟩)
    (hout : out.length ≤ big5.length + l.length) (h : EndsFrom table (pre ++ l) suf out) :
    EndsFrom table pre (l ++ suf) big5 := by
  obtain ⟨n, st, hrun, hi, hb⟩ := h
  rw [List.append_assoc, List.length_append] at hrun
  rw [List.append_assoc] at hi
  refine ⟨n + 1, st, ?_, hi, ?_⟩
  · rw [turns_succ, hturn]
    exact hrun
  · rw [List.length_append]
    omega

theorem not_isChinese_of_ascii {a : UInt8} (ha : a < 0x80) (b c : UInt8) : isChinese a b c = false := by
  rw [← Bool.not_eq_true, isChinese_iff]
  have hlt : a.toNat < 0x80 := UInt8.lt_iff_toNat_lt.mp ha
  omega

theorem turn_copy (pre : Bytes) {c : UInt8} {suf : Bytes} (hsuf : ∀ x ∈ c :: suf, x ≠ 0)
    (h : c < 0x80 ∨ suf.length < 2) (big5 : Bytes) :
    lnEncodeUtf8ToBig5Turn table (pre ++ c :: suf) ⟨pre.length, big5⟩ = .next ⟨pre.length + 1, big5 ++ [c]⟩ := by
  have ht := turn_on table pre hsuf big5
  generalize lnEncodeUtf8ToBig5Turn table (pre ++ c :: suf) ⟨pre.length, big5⟩ = t at ht ⊢
  cases ht with
  | copy => rfl
  | @three a b c suf bytes _ habc =>
    rcases h with ha | hl
    · rw [not_isChinese_of_ascii ha] at habc
      cases habc
    · simp only [List.length_cons] at hl
      omega
  | asserted =>
    rcases h with ha | hl
    · exact absurd ha (by decide)
    · simp only [List.length_cons] at hl
      omega
  | stuck _ ha =>
    rcases h with ha' | hl
    · exact absurd ha' ha
    · simp only [List.length_cons] at hl
      omega

variable (table) in
theorem turn_three (pre : Bytes) {a b c : UInt8} {suf : Bytes} (hsuf : ∀ x ∈ a :: b :: c :: suf, x ≠ 0)
    (habc : isChinese a b c = true) (hne : ¬ (a = 0xE0 ∧ b = 0x80 ∧ c = 0x80)) (big5 : Bytes) :
    ∃ bytes : Bytes, bytes.length ≤ 2 ∧
      lnEncodeUtf8ToBig5Turn table (pre ++ a :: b :: c :: suf) ⟨pre.length, big5⟩ =
        .next ⟨pre.length + 3, big5 ++ bytes⟩ := by
  have ht := turn_on table pre hsuf big5
  generalize lnEncodeUtf8ToBig5Turn table (pre ++ a :: b :: c :: suf) ⟨pre.length, big5⟩ = t at ht ⊢
  cases ht with
  | copy _ h =>
    rcases h with ha | hl
    · rw [not_isChinese_of_ascii ha] at habc
      cases habc
    · simp only [List.length_cons] at hl
      omega
  | three _ _ _ hb => exact ⟨_, hb, rfl⟩
  | asserted => exact absurd ⟨rfl, rfl, rfl⟩ hne
  | stuck _ _ habc' =>
    rw [habc] at habc'
    cases habc'

variable (table) in
/-- In front of a convertible rest the loop comes to the end. -/
theorem endsFrom_of_convertible {suf : Bytes} (h : Convertible suf) (hsuf : ∀ c ∈ suf, c ≠ 0) (pre big5 : Bytes) :
    EndsFrom table pre suf big5 := by
  induction h generalizing pre big5 with
  | nil =>
    have hend : lnEncodeUtf8ToBig5Turn table (pre ++ []) ⟨pre.length, big5⟩ = .done ⟨pre.length, big5⟩ := by
      have ht := turn_on table pre hsuf big5
      generalize lnEncodeUtf8ToBig5Turn table (pre ++ []) ⟨pre.length, big5⟩ = t at ht ⊢
      cases ht
      rfl
    exact ⟨1, ⟨pre.length, big5⟩, by rw [turns_succ, hend], by simp, by simp⟩
  | @ascii c str hc _ ih =>
    have hrest := ih (fun x hx => hsuf x (List.mem_cons_of_mem _ hx)) (pre ++ [c]) (big5 ++ [c])
    exact hrest.turn (l := [c]) (turn_copy pre hsuf (.inl hc) big5) (by simp)
  | @three a b c str habc hne _ ih =>
    obtain ⟨bytes, hb, hturn⟩ := turn_three table pre hsuf habc hne big5
    have hrest := ih (fun x hx => hsuf x (by simp [hx])) (pre ++ [a, b, c]) (big5 ++ bytes)
    exact hrest.turn (l := [a, b, c]) hturn (by simp; omega)
  | @last c str hstr _ ih =>
    have hrest := ih (fun x hx => hsuf x (List.mem_cons_of_mem _ hx)) (pre ++ [c]) (big5 ++ [c])
    exact hrest.turn (l := [c]) (turn_copy pre hsuf (.inr hstr) big5) (by simp)

/-- A loop that comes to an end had a convertible rest in front of it. -/
theorem convertible_of_turns (n : ℕ) {suf : Bytes} (hsuf : ∀ c ∈ suf, c ≠ 0) (pre big5 : Bytes) {st : Conversion}
    (h : turns table (pre ++ suf) n ⟨pre.length, big5⟩ = .done st) : Convertible suf := by
  induction n generalizing suf pre big5 with
  | zero => cases h
  | succ n ih =>
    have ht := turn_on table pre hsuf big5
    rw [turns_succ] at h
    generalize lnEncodeUtf8ToBig5Turn table (pre ++ suf) ⟨pre.length, big5⟩ = t at ht h
    cases ht with
    | done => exact .nil
    | @copy c suf _ hc =>
      have hrest : Convertible suf := by
        refine ih (fun x hx => hsuf x (List.mem_cons_of_mem _ hx)) (pre ++ [c]) (big5 ++ [c]) ?_
        simpa using h
      exact hc.elim (fun hc => .ascii hc hrest) fun hl => .last hl hrest
    | @three a b c suf bytes _ habc hne _ =>
      refine .three habc hne (ih (fun x hx => hsuf x (by simp [hx])) (pre ++ [a, b, c]) (big5 ++ bytes) ?_)
      simpa using h
    | asserted => cases h
    | stuck => exact ih hsuf pre big5 h

/-- The loop never reads behind the terminator. -/
theorem turns_ne_outside (n : ℕ) {suf : Bytes} (hsuf : ∀ c ∈ suf, c ≠ 0) (pre big5 : Bytes) :
    turns table (pre ++ suf) n ⟨pre.length, big5⟩ ≠ .outside := by
  induction n generalizing suf pre big5 with
  | zero => simp [turns]
  | succ n ih =>
    have ht := turn_on table pre hsuf big5
    rw [turns_succ]
    generalize lnEncodeUtf8ToBig5Turn table (pre ++ suf) ⟨pre.length, big5⟩ = t at ht
    cases ht with
    | done => simp
    | @copy c suf _ _ =>
      have hrest := ih (fun x hx => hsuf x (List.mem_cons_of_mem _ hx)) (pre ++ [c]) (big5 ++ [c])
      simpa using hrest
    | @three a b c suf bytes _ _ _ _ =>
      have hsuf' : ∀ x ∈ suf, x ≠ 0 := fun x hx => hsuf x (by simp [hx])
      have hrest := ih hsuf' (pre ++ [a, b, c]) (big5 ++ bytes)
      simpa using hrest
    | asserted => simp
    | stuck => exact ih hsuf pre big5

/-- The conversion comes to the end of the string, without a read behind it and with no more bytes
written than read, exactly on the convertible strings. -/
theorem lnEncodeUtf8ToBig5_ends_iff (table : List (ℕ × ℕ)) {utf8Str : Bytes} (hstr : ∀ c ∈ utf8Str, c ≠ 0) :
    ((∃ n st, turns table utf8Str n ⟨0, []⟩ = .done st ∧ st.i = utf8Str.length ∧
          st.big5.length ≤ utf8Str.length) ∧
        ∀ n, turns table utf8Str n ⟨0, []⟩ ≠ .outside) ↔
      Convertible utf8Str := by
  constructor
  · rintro ⟨⟨n, st, hrun, -, -⟩, -⟩
    exact convertible_of_turns n hstr [] [] hrun
  · intro h
    obtain ⟨n, st, hrun, hi, hb⟩ := endsFrom_of_convertible table h hstr [] []
    exact ⟨⟨n, st, hrun, hi, by simpa using hb⟩, fun n => turns_ne_outside n hstr [] []⟩

/-- An ASCII letter and U+6768 in a table of one entry. -/
theorem lnEncodeUtf8ToBig5_ends_iff_two :
    ((∃ n st, turns [(0xB7A8, 0x6768)] [0x41, 0xE6, 0x9D, 0xA8] n ⟨0, []⟩ = .done st ∧
          st.i = [0x41, 0xE6, 0x9D, 0xA8].length ∧ st.big5.length ≤ [0x41, 0xE6, 0x9D, 0xA8].length) ∧
        ∀ n, turns [(0xB7A8, 0x6768)] [0x41, 0xE6, 0x9D, 0xA8] n ⟨0, []⟩ ≠ .outside) ↔
      Convertible [0x41, 0xE6, 0x9D, 0xA8] :=
  lnEncodeUtf8ToBig5_ends_iff [(0xB7A8, 0x6768)] (by decide +kernel)

/-- The loop stays in front of a two-byte character. -/
theorem turns_stuck (n : ℕ) :
    turns [] [0xC3, 0xA9, 0x78] n ⟨0, []⟩ = .next ⟨0, []⟩ := by
  induction n with
  | zero => rfl
  | succ n ih => exact ih

theorem lnEncodeUtf8ToBig5_stays :
    ¬ ∀ (table : List (ℕ × ℕ)) (utf8Str : Bytes), (∀ c ∈ utf8Str, c ≠ 0) →
      (∃ n st, turns table utf8Str n ⟨0, []⟩ = .done st ∧ st.i = utf8Str.length ∧
          st.big5.length ≤ utf8Str.length) ∧
        ∀ n, turns table utf8Str n ⟨0, []⟩ ≠ .outside := by
  intro h
  obtain ⟨⟨n, st, hrun, -⟩, -⟩ := h [] [0xC3, 0xA9, 0x78] (by decide +kernel)
  rw [turns_stuck] at hrun
  cases hrun

end Ln882x.Unicode
