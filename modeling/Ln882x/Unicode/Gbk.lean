import Ln882x.Unicode.Big5

/-! GBK to UTF-8 and to Big5. A lead byte takes the next byte with it, even the zero at the end of
the string, and the loop goes on behind it; a character that the table does not have is
converted by the value left in the local variable; and only the UTF-8 encoder asks for room,
by an assertion. So both loops are safe on strings of whole characters that the table has, if
there is room before each of them. -/

namespace Ln882x.Unicode.Gbk

open Nor (Bytes)

/-! ### The loop -/

/-- The index into the string, the bytes written and the local `unicode`; `emitted` notes the
two-byte characters for which something was written, with the value that was converted. -/
structure State where
  i : ℕ
  out : Bytes
  unicode : UInt16
  emitted : List (UInt16 × UInt16)

/-- What one turn of a loop leads to; `beyond` is a write at or behind the maximal length. -/
inductive Turn
  | next (st : State)
  | done (st : State)
  | outside
  | beyond
  | asserted

/-- A number of turns. -/
def turns (turn : State → Turn) : ℕ → State → Turn
  | 0, st => .next st
  | n + 1, st =>
    match turn st with
    | .next st => turns turn n st
    | t => t

/-- What the conditions on the first byte say. -/
def isLead (chr : UInt8) : Bool := (chr &&& 0x80) ≠ 0 && chr ≥ 0x81 && chr ≤ 0xFE

def gbkOf (chr chr2 : UInt8) : UInt16 := (chr.toUInt16 <<< 8) ||| chr2.toUInt16

section Tables

-- `table_GBK_to_UCS2` and `table_BIG5_to_UCS2`
variable (table : List (UInt16 × UInt16)) (tableBig5 : List (ℕ × ℕ))

/-- The value returned, and what it leaves in `*ucs`. -/
def encodeGbkToUnicodeOne (gbk ucs : UInt16) : ℕ × UInt16 :=
  let hibyte := (gbk >>> 8).toUInt8
  if hibyte < 0x80 then (1, hibyte.toUInt16)
  else
    match table.find? fun entry => gbk = entry.1 with
    | some entry => (2, entry.2)
    | none => (0, ucs)

/-- One turn of either loop, with its encoder: the bytes for a value and the room left. -/
def gbkTurn (encode : UInt16 → ℤ → Option Bytes) (lenMax : ℕ) (gbkStr : Bytes) (st : State) : Turn :=
  match byteAt gbkStr st.i with
  | none => .outside
  | some chr =>
    if chr = 0 then .done st
    else if isLead chr then
      match byteAt gbkStr (st.i + 1) with
      | none => .outside
      | some chr2 =>
        -- the first byte once more
        if chr ≥ 0x40 ∧ chr ≤ 0xFE then
          let gbk := gbkOf chr chr2
          let unicode := (encodeGbkToUnicodeOne table gbk st.unicode).2
          match encode unicode ((lenMax : ℤ) - st.out.length) with
          | none => .asserted
          | some bytes =>
            if lenMax < st.out.length + bytes.length then .beyond
            else .next ⟨st.i + 2, st.out ++ bytes, unicode, st.emitted ++ if bytes = [] then [] else [(gbk, unicode)]⟩
        else .next st
    else if lenMax ≤ st.out.length then .beyond
    else .next { st with i := st.i + 1, out := st.out ++ [chr] }

/-- `encode_unicode_to_utf8_one` with its assertion on the room. -/
def utf8Encode (unicode : UInt16) (outSize : ℤ) : Option Bytes :=
  if outSize ≥ 6 then some (encodeUnicodeToUtf8One unicode.toNat) else none

-- a number of turns, with any value in the local `unicode` at the start

def lnEncodeGbkToUtf8 (gbkStr : Bytes) (utf8LenMax : ℕ) (unicode : UInt16) (n : ℕ) : Turn :=
  if utf8LenMax ≥ 6 then turns (gbkTurn table utf8Encode utf8LenMax gbkStr) n ⟨0, [], unicode, []⟩ else .asserted

def lnEncodeGbkToBig5 (gbkStr : Bytes) (big5LenMax : ℕ) (unicode : UInt16) (n : ℕ) : Turn :=
  if big5LenMax ≥ 6 then
    turns (gbkTurn table (fun unicode _ => encodeUnicodeOneToBig5 tableBig5 unicode.toNat) big5LenMax gbkStr) n
      ⟨0, [], unicode, []⟩
  else .asserted

/-- A run ends at the zero, within the maximal length, and what it wrote for a two-byte character is
from an entry of that character. -/
def Contained (run : ℕ → Turn) (lenMax : ℕ) (gbkStr : Bytes) : Prop :=
  ∃ n st, run n = .done st ∧ st.i = gbkStr.length ∧ st.out.length ≤ lenMax ∧ ∀ entry ∈ st.emitted, entry ∈ table

/-! ### Strings that fit -/

def lookup (gbk : UInt16) : Option UInt16 := (table.find? fun entry => gbk = entry.1).map (·.2)

/-- Whole characters: room for a byte before each single one, and before each two-byte character
what `fits` asks of the value held, the bytes written and its value in the table. -/
inductive Characters (lenMax : ℕ) (fits : UInt16 → ℕ → Option UInt16 → Prop) (size : UInt16 → ℕ) :
    UInt16 → ℕ → Bytes → Prop
  | nil {held : UInt16} {n : ℕ} : Characters lenMax fits size held n []
  | single {held : UInt16} {n : ℕ} {chr : UInt8} {str : Bytes} (hchr : isLead chr = false) (hroom : n < lenMax)
    (h : Characters lenMax fits size held (n + 1) str) : Characters lenMax fits size held n (chr :: str)
  | double {held : UInt16} {n : ℕ} {chr chr2 : UInt8} {str : Bytes} (hchr : isLead chr = true)
    (hfits : fits held n (lookup table (gbkOf chr chr2)))
    (h : Characters lenMax fits size ((lookup table (gbkOf chr chr2)).getD held)
      (n + size ((lookup table (gbkOf chr chr2)).getD held)) str) :
    Characters lenMax fits size held n (chr :: chr2 :: str)

/-- Six bytes are left, and the table has the character. -/
def Utf8Fits (utf8LenMax : ℕ) (_ : UInt16) (n : ℕ) (value : Option UInt16) : Prop := n + 6 ≤ utf8LenMax ∧ value.isSome

def utf8Size (unicode : UInt16) : ℕ := (encodeUnicodeToUtf8One unicode.toNat).length

def big5Size (unicode : UInt16) : ℕ := if (tableBig5.find? fun entry => entry.2 = unicode.toNat).isSome then 2 else 0

/-- The value is not zero and there is room for its Big5 code; or the table does not have the
character, and the value held is not zero and has no Big5 code. -/
def Big5Fits (big5LenMax : ℕ) (held : UInt16) (n : ℕ) : Option UInt16 → Prop
  | some unicode => unicode ≠ 0 ∧ n + big5Size tableBig5 unicode ≤ big5LenMax
  | none => held ≠ 0 ∧ big5Size tableBig5 held = 0

end Tables

/-- Single bytes only. -/
theorem Characters.length_le {table : List (UInt16 × UInt16)} {lenMax n : ℕ} {fits : UInt16 → ℕ → Option UInt16 → Prop}
    {size : UInt16 → ℕ} {held : UInt16} {str : Bytes} (h : Characters table lenMax fits size held n str)
    (hplain : ∀ c ∈ str, isLead c = false) (hn : n ≤ lenMax) : n + str.length ≤ lenMax := by
  induction h with
  | nil => exact hn
  | single _ hroom _ ih =>
    have hrest := ih (List.forall_mem_cons.mp hplain).2 hroom
    rw [List.length_cons]
    omega
  | double hchr _ _ _ =>
    rw [(List.forall_mem_cons.mp hplain).1] at hchr
    cases hchr

/-! ### One turn -/

variable {table : List (UInt16 × UInt16)} {encode : UInt16 → ℤ → Option Bytes} {lenMax : ℕ}

theorem isLead_ge {chr : UInt8} (h : isLead chr = true) : 0x81 ≤ chr.toNat ∧ chr.toNat ≤ 0xFE := by
  simp only [isLead, Bool.and_eq_true, decide_eq_true_eq] at h
  exact ⟨UInt8.le_iff_toNat_le.mp h.1.2, UInt8.le_iff_toNat_le.mp h.2⟩

theorem hibyte_gbkOf (chr chr2 : UInt8) : (gbkOf chr chr2 >>> 8).toUInt8 = chr := by
  have hchr := chr.toNat_lt
  have hchr2 : chr2.toNat < 2 ^ 8 := chr2.toNat_lt
  rw [← UInt8.toNat_inj, gbkOf, UInt16.toNat_toUInt8, UInt16.toNat_shiftRight, UInt16.toNat_or, UInt16.toNat_shiftLeft,
    UInt8.toNat_toUInt16, UInt8.toNat_toUInt16]
  change ((chr.toNat <<< 8 % 2 ^ 16) ||| chr2.toNat) >>> 8 % 2 ^ 8 = chr.toNat
  rw [Nat.shiftLeft_eq, Nat.mod_eq_of_lt (show chr.toNat * 2 ^ 8 < 2 ^ 16 by omega), Nat.mul_comm,
    ← Nat.two_pow_add_eq_or_of_lt hchr2, Nat.shiftRight_eq_div_pow]
  omega

/-- Of a character with a lead byte, the table decides. -/
theorem encodeGbkToUnicodeOne_eq {chr : UInt8} (hchr : isLead chr = true) (chr2 : UInt8) (ucs : UInt16) :
    (encodeGbkToUnicodeOne table (gbkOf chr chr2) ucs).2 = (lookup table (gbkOf chr chr2)).getD ucs := by
  have hge : ¬chr < 0x80 := by
    rw [UInt8.lt_iff_toNat_lt]
    exact Nat.not_lt.mpr (Nat.le_trans (by decide) (isLead_ge hchr).1)
  rw [encodeGbkToUnicodeOne, hibyte_gbkOf, lookup]
  simp only [hge, if_false]
  cases table.find? fun entry => gbkOf chr chr2 = entry.1 <;> rfl

theorem mem_of_lookup {gbk unicode : UInt16} (h : lookup table gbk = some unicode) : (gbk, unicode) ∈ table := by
  obtain ⟨entry, hfind, rfl⟩ := Option.map_eq_some_iff.mp h
  have hmem := List.mem_of_find?_eq_some hfind
  have hgbk := List.find?_some hfind
  rw [of_decide_eq_true hgbk]
  exact hmem

theorem lookup_isSome_of_mem {gbk unicode : UInt16} (h : (gbk, unicode) ∈ table) : (lookup table gbk).isSome := by
  rw [lookup, Option.isSome_map, List.find?_isSome]
  exact ⟨_, h, decide_eq_true rfl⟩

theorem turn_end (str : Bytes) {st : State} (hi : st.i = str.length) :
    gbkTurn table encode lenMax str st = .done st := by
  have hbyte : byteAt str st.i = some 0 := by rw [byteAt, hi, List.getElem?_concat_length]
  rw [gbkTurn, hbyte]
  exact if_pos rfl

theorem turn_outside (str : Bytes) {st : State} (hi : str.length < st.i) :
    gbkTurn table encode lenMax str st = .outside := by
  have hbyte : byteAt str st.i = none := by
    rw [byteAt, List.getElem?_eq_none_iff, List.length_append, List.length_singleton]
    exact hi
  rw [gbkTurn, hbyte]

theorem turn_single (pre suf : Bytes) {chr : UInt8} (hne : chr ≠ 0) (hchr : isLead chr = false) {st : State}
    (hi : st.i = pre.length) :
    gbkTurn table encode lenMax (pre ++ chr :: suf) st =
      if lenMax ≤ st.out.length then .beyond else .next { st with i := st.i + 1, out := st.out ++ [chr] } := by
  have hbyte : byteAt (pre ++ chr :: suf) st.i = some chr := by rw [hi]; exact byteAt_append pre (chr :: suf) 0
  rw [gbkTurn, hbyte]
  simp only [if_neg hne, hchr, Bool.false_eq_true, if_false]

/-- A lead byte takes the next byte, or the zero at the end. -/
theorem turn_double (pre suf : Bytes) {chr : UInt8} (hchr : isLead chr = true) {st : State} (hi : st.i = pre.length) :
    gbkTurn table encode lenMax (pre ++ chr :: suf) st =
      match encode ((lookup table (gbkOf chr (suf.headD 0))).getD st.unicode) ((lenMax : ℤ) - st.out.length) with
      | none => .asserted
      | some bytes =>
        if lenMax < st.out.length + bytes.length then .beyond
        else .next ⟨st.i + 2, st.out ++ bytes, (lookup table (gbkOf chr (suf.headD 0))).getD st.unicode,
          st.emitted ++ if bytes = [] then [] else
            [(gbkOf chr (suf.headD 0), (lookup table (gbkOf chr (suf.headD 0))).getD st.unicode)]⟩ := by
  have hrange := isLead_ge hchr
  have hbyte : byteAt (pre ++ chr :: suf) st.i = some chr := by rw [hi]; exact byteAt_append pre (chr :: suf) 0
  have hbyte2 : byteAt (pre ++ chr :: suf) (st.i + 1) = some (suf.headD 0) := by
    rw [hi, byteAt_append]
    cases suf <;> rfl
  have hne : chr ≠ 0 := by
    rintro rfl
    exact absurd hrange.1 (by decide)
  have hfirst : chr ≥ 0x40 ∧ chr ≤ 0xFE :=
    ⟨UInt8.le_iff_toNat_le.mpr (Nat.le_trans (by decide) hrange.1), UInt8.le_iff_toNat_le.mpr hrange.2⟩
  rw [gbkTurn, hbyte]
  simp only [if_neg hne, hchr, if_true, hbyte2, if_pos hfirst, encodeGbkToUnicodeOne_eq hchr]

/-! ### Runs -/

theorem turns_succ (turn : State → Turn) (n : ℕ) (st : State) :
    turns turn (n + 1) st =
      match turn st with
      | .next st => turns turn n st
      | t => t := rfl

/-- What the encoder asks for, and what it writes. -/
structure Encodes (table : List (UInt16 × UInt16)) (encode : UInt16 → ℤ → Option Bytes) (lenMax : ℕ)
    (fits : UInt16 → ℕ → Option UInt16 → Prop) (size : UInt16 → ℕ) : Prop where
  fits_iff : ∀ held n gbk, n ≤ lenMax → (fits held n (lookup table gbk) ↔
    ∃ bytes, encode ((lookup table gbk).getD held) ((lenMax : ℤ) - n) = some bytes ∧ n + bytes.length ≤ lenMax ∧
      (bytes = [] ∨ (lookup table gbk).isSome))
  length : ∀ unicode room bytes, encode unicode room = some bytes → bytes.length = size unicode

section Runs

variable {fits : UInt16 → ℕ → Option UInt16 → Prop} {size : UInt16 → ℕ} (henc : Encodes table encode lenMax fits size)
include henc

/-- A run that ends well had whole characters that fit in front of it, and nothing noted is lost. -/
theorem characters_of_turns (n : ℕ) {suf : Bytes} (hsuf : ∀ c ∈ suf, c ≠ 0) (pre : Bytes) (st : State)
    {st' : State} (hi : st.i = pre.length) (hrun : turns (gbkTurn table encode lenMax (pre ++ suf)) n st = .done st')
    (hin : ∀ entry ∈ st'.emitted, entry ∈ table) :
    st.emitted ⊆ st'.emitted ∧ Characters table lenMax fits size st.unicode st.out.length suf := by
  induction n generalizing suf pre st with
  | zero => cases hrun
  | succ n ih =>
    cases suf with
    | nil =>
      rw [turns_succ, turn_end _ (by rw [hi, List.append_nil])] at hrun
      cases hrun
      exact ⟨List.Subset.refl _, .nil⟩
    | cons chr suf =>
      obtain ⟨hne, hsuf⟩ := List.forall_mem_cons.mp hsuf
      rw [turns_succ] at hrun
      cases hchr : isLead chr with
      | false =>
        rw [turn_single pre suf hne hchr hi] at hrun
        by_cases hroom : lenMax ≤ st.out.length
        · rw [if_pos hroom] at hrun
          cases hrun
        · rw [if_neg hroom, List.append_cons pre chr suf] at hrun
          obtain ⟨hemitted, hrest⟩ := ih hsuf (pre ++ [chr]) _ (by simp [hi]) hrun
          rw [List.length_append] at hrest
          exact ⟨hemitted, .single hchr (Nat.lt_of_not_le hroom) hrest⟩
      | true =>
        rw [turn_double pre suf hchr hi] at hrun
        cases hencode : encode ((lookup table (gbkOf chr (suf.headD 0))).getD st.unicode) ((lenMax : ℤ) - st.out.length) with
        | none => rw [hencode] at hrun; cases hrun
        | some bytes =>
          rw [hencode] at hrun
          by_cases hroom : lenMax < st.out.length + bytes.length
          · simp only [if_pos hroom] at hrun
            cases hrun
          · simp only [if_neg hroom] at hrun
            cases suf with
            | nil =>
              -- behind the zero at the end
              cases n with
              | zero => cases hrun
              | succ n =>
                rw [turns_succ, turn_outside _ (by simp [hi])] at hrun
                cases hrun
            | cons chr2 suf =>
              obtain ⟨-, hsuf⟩ := List.forall_mem_cons.mp hsuf
              rw [List.append_cons pre, List.append_cons _ chr2] at hrun
              obtain ⟨hemitted, hrest⟩ := ih hsuf (pre ++ [chr] ++ [chr2]) _ (by simp [hi]) hrun
              rw [List.length_append, henc.length _ _ _ hencode] at hrest
              refine ⟨fun entry hentry => hemitted (List.mem_append_left _ hentry), .double hchr ?_ hrest⟩
              refine (henc.fits_iff _ _ _ (by omega)).mpr ⟨bytes, hencode, Nat.le_of_not_lt hroom, ?_⟩
              by_cases hnil : bytes = []
              · exact .inl hnil
              · have hentry :=
                  hemitted (List.mem_append_right st.emitted (by rw [if_neg hnil]; exact List.mem_singleton_self _))
                exact .inr (lookup_isSome_of_mem (hin _ hentry))

/-- In front of whole characters that fit, the run ends well. -/
theorem turns_of_characters {held : UInt16} {n : ℕ} {suf : Bytes} (h : Characters table lenMax fits size held n suf)
    (hsuf : ∀ c ∈ suf, c ≠ 0) (pre : Bytes) (st : State) (hi : st.i = pre.length) (hheld : st.unicode = held)
    (hn : st.out.length = n) (hmax : n ≤ lenMax) (hin : ∀ entry ∈ st.emitted, entry ∈ table) :
    ∃ k st', turns (gbkTurn table encode lenMax (pre ++ suf)) k st = .done st' ∧ st'.i = (pre ++ suf).length ∧
      st'.out.length ≤ lenMax ∧ ∀ entry ∈ st'.emitted, entry ∈ table := by
  induction h generalizing pre st with
  | nil =>
    have hend : st.i = (pre ++ []).length := by rw [hi, List.append_nil]
    exact ⟨1, st, by rw [turns_succ, turn_end _ hend], hend, hn ▸ hmax, hin⟩
  | @single held n chr str hchr hroom _ ih =>
    obtain ⟨hne, hsuf⟩ := List.forall_mem_cons.mp hsuf
    obtain ⟨k, st', hrun, hend, hlength, hemitted⟩ := ih hsuf (pre ++ [chr])
      { st with i := st.i + 1, out := st.out ++ [chr] } (by simp [hi]) hheld (by simp [hn]) hroom hin
    rw [List.append_assoc, List.singleton_append] at hrun hend
    refine ⟨k + 1, st', ?_, hend, hlength, hemitted⟩
    rw [turns_succ, turn_single pre str hne hchr hi, if_neg (by omega)]
    exact hrun
  | @double held n chr chr2 str hchr hfits _ ih =>
    obtain ⟨-, hsuf⟩ := List.forall_mem_cons.mp hsuf
    obtain ⟨-, hsuf⟩ := List.forall_mem_cons.mp hsuf
    obtain ⟨bytes, hencode, hroom, hmapped⟩ := (henc.fits_iff _ _ _ hmax).mp hfits
    have hsize := henc.length _ _ _ hencode
    have hnew : ∀ entry ∈ st.emitted ++ (if bytes = [] then [] else
        [(gbkOf chr chr2, (lookup table (gbkOf chr chr2)).getD held)]), entry ∈ table := by
      intro entry hentry
      rcases List.mem_append.mp hentry with hentry | hentry
      · exact hin entry hentry
      · by_cases hnil : bytes = []
        · rw [if_pos hnil] at hentry
          cases hentry
        · rw [if_neg hnil] at hentry
          obtain ⟨unicode, hunicode⟩ := Option.isSome_iff_exists.mp (hmapped.resolve_left hnil)
          rw [List.mem_singleton.mp hentry, hunicode]
          exact mem_of_lookup hunicode
    obtain ⟨k, st', hrun, hend, hlength, hemitted⟩ := ih hsuf (pre ++ [chr, chr2])
      ⟨st.i + 2, st.out ++ bytes, (lookup table (gbkOf chr chr2)).getD held, _⟩ (by simp [hi]) rfl
      (by rw [List.length_append, hn, hsize]) (by omega) hnew
    rw [List.append_assoc] at hrun hend
    refine ⟨k + 1, st', ?_, hend, hlength, hemitted⟩
    rw [turns_succ, turn_double pre (chr2 :: str) hchr hi, List.headD_cons, hheld, hn, hencode]
    simp only [if_neg (Nat.not_lt.mpr hroom)]
    exact hrun

/-- A loop is safe exactly on whole characters that fit. -/
theorem contained_iff {gbkStr : Bytes} (hstr : ∀ c ∈ gbkStr, c ≠ 0) (unicode : UInt16) :
    Contained table (fun n => turns (gbkTurn table encode lenMax gbkStr) n ⟨0, [], unicode, []⟩) lenMax gbkStr ↔
      Characters table lenMax fits size unicode 0 gbkStr := by
  constructor
  · rintro ⟨n, st, hrun, -, -, hin⟩
    exact (characters_of_turns henc n hstr [] ⟨0, [], unicode, []⟩ rfl hrun hin).2
  · intro h
    exact turns_of_characters henc h hstr [] ⟨0, [], unicode, []⟩ rfl rfl rfl (Nat.zero_le _)
      fun _ hentry => absurd hentry List.not_mem_nil

end Runs

/-! ### The two encoders -/

/-- A value of 16 bits takes one to three bytes. -/
theorem utf8Size_range (unicode : UInt16) : 1 ≤ utf8Size unicode ∧ utf8Size unicode ≤ 3 := by
  have hlt : unicode.toNat < 65536 := unicode.toNat_lt
  unfold utf8Size encodeUnicodeToUtf8One
  split_ifs <;> simp only [List.length_cons, List.length_nil] <;> omega

theorem utf8_encodes (table : List (UInt16 × UInt16)) (lenMax : ℕ) :
    Encodes table utf8Encode lenMax (Utf8Fits lenMax) utf8Size := by
  constructor
  · intro held n gbk _
    obtain ⟨hpos, hle⟩ := utf8Size_range ((lookup table gbk).getD held)
    rw [utf8Size] at hpos hle
    constructor
    · rintro ⟨hroom, hsome⟩
      exact ⟨_, if_pos (by omega), by omega, .inr hsome⟩
    · rintro ⟨bytes, hencode, -, hmapped⟩
      rw [utf8Encode] at hencode
      by_cases hroom : (lenMax : ℤ) - n ≥ 6
      · rw [if_pos hroom] at hencode
        cases hencode
        refine ⟨by omega, hmapped.resolve_left fun hnil => ?_⟩
        rw [hnil] at hpos
        exact absurd hpos (by decide)
      · rw [if_neg hroom] at hencode
        cases hencode
  · intro unicode room bytes hencode
    rw [utf8Encode] at hencode
    split_ifs at hencode
    cases hencode
    rfl

theorem length_of_big5 {tableBig5 : List (ℕ × ℕ)} {unicode : UInt16} {bytes : Bytes}
    (h : encodeUnicodeOneToBig5 tableBig5 unicode.toNat = some bytes) : bytes.length = big5Size tableBig5 unicode := by
  rw [encodeUnicodeOneToBig5] at h
  split_ifs at h
  unfold big5Size
  cases hfind : tableBig5.find? fun entry => entry.2 = unicode.toNat with
  | none =>
    rw [hfind] at h
    cases h
    rfl
  | some entry =>
    rw [hfind] at h
    cases h
    rfl

theorem big5_encodes (table : List (UInt16 × UInt16)) (tableBig5 : List (ℕ × ℕ)) (lenMax : ℕ) :
    Encodes table (fun unicode _ => encodeUnicodeOneToBig5 tableBig5 unicode.toNat) lenMax (Big5Fits tableBig5 lenMax)
      (big5Size tableBig5) := by
  refine ⟨fun held n gbk hn => ?_, fun unicode _ bytes h => length_of_big5 h⟩
  have hzero : ∀ unicode : UInt16, encodeUnicodeOneToBig5 tableBig5 unicode.toNat = none ↔ unicode = 0 := by
    intro unicode
    rw [encodeUnicodeOneToBig5_eq_none, ← UInt16.toNat_inj]
    rfl
  cases lookup table gbk with
  | some unicode =>
    rw [Option.getD_some]
    constructor
    · rintro ⟨hne, hroom⟩
      obtain ⟨bytes, hbytes⟩ := Option.ne_none_iff_exists'.mp fun hnone => hne ((hzero unicode).mp hnone)
      exact ⟨bytes, hbytes, by rw [length_of_big5 hbytes]; exact hroom, .inr rfl⟩
    · rintro ⟨bytes, hbytes, hroom, -⟩
      refine ⟨fun heq => ?_, by rw [← length_of_big5 hbytes]; exact hroom⟩
      rw [(hzero unicode).mpr heq] at hbytes
      cases hbytes
  | none =>
    rw [Option.getD_none]
    constructor
    · rintro ⟨hne, hsize⟩
      obtain ⟨bytes, hbytes⟩ := Option.ne_none_iff_exists'.mp fun hnone => hne ((hzero held).mp hnone)
      have hlength := length_of_big5 hbytes
      rw [hsize] at hlength
      exact ⟨bytes, hbytes, by omega, .inl (List.eq_nil_of_length_eq_zero hlength)⟩
    · rintro ⟨bytes, hbytes, -, hnil⟩
      obtain rfl : bytes = [] := hnil.resolve_right (by simp)
      refine ⟨fun heq => ?_, (length_of_big5 hbytes).symm⟩
      rw [(hzero held).mpr heq] at hbytes
      cases hbytes

/-- With any tables and any value in `unicode` at the start: both conversions are safe exactly on the
strings of whole characters that fit. -/
theorem gbk_contained_iff (table : List (UInt16 × UInt16)) (tableBig5 : List (ℕ × ℕ)) (lenMax : ℕ) (gbkStr : Bytes)
    (unicode : UInt16) (hmax : 6 ≤ lenMax) (hstr : ∀ c ∈ gbkStr, c ≠ 0) :
    (Contained table (lnEncodeGbkToUtf8 table gbkStr lenMax unicode) lenMax gbkStr ↔
        Characters table lenMax (Utf8Fits lenMax) utf8Size unicode 0 gbkStr) ∧
      (Contained table (lnEncodeGbkToBig5 table tableBig5 gbkStr lenMax unicode) lenMax gbkStr ↔
        Characters table lenMax (Big5Fits tableBig5 lenMax) (big5Size tableBig5) unicode 0 gbkStr) := by
  unfold lnEncodeGbkToUtf8 lnEncodeGbkToBig5
  simp only [ge_iff_le, if_pos hmax]
  exact ⟨contained_iff (utf8_encodes table lenMax) hstr unicode,
    contained_iff (big5_encodes table tableBig5 lenMax) hstr unicode⟩

/-- A letter and one character that both tables have. -/
theorem gbk_contained_iff_two :
    Contained [(0xD2BB, 0x4E00)] (lnEncodeGbkToUtf8 [(0xD2BB, 0x4E00)] [0x41, 0xD2, 0xBB] 7 0) 7 [0x41, 0xD2, 0xBB] ∧
      Contained [(0xD2BB, 0x4E00)] (lnEncodeGbkToBig5 [(0xD2BB, 0x4E00)] [(0xA440, 0x4E00)] [0x41, 0xD2, 0xBB] 7 0) 7
        [0x41, 0xD2, 0xBB] := by
  have h := gbk_contained_iff [(0xD2BB, 0x4E00)] [(0xA440, 0x4E00)] 7 [0x41, 0xD2, 0xBB] 0 (by decide) (by decide +kernel)
  refine ⟨h.1.mpr ?_, h.2.mpr ?_⟩
  · exact .single rfl (by decide) (.double rfl ⟨by decide, rfl⟩ .nil)
  · exact .single rfl (by decide) (.double rfl ⟨by decide, by decide⟩ .nil)

/-- A lead byte at the end, and seven letters where six fit, with any tables; and a character that
the table does not have. -/
theorem gbk_not_contained :
    (∀ table unicode, ¬Contained table (lnEncodeGbkToUtf8 table [0x81] 6 unicode) 6 [0x81]) ∧
      (∀ table unicode,
        ¬Contained table (lnEncodeGbkToUtf8 table (List.replicate 7 0x41) 6 unicode) 6 (List.replicate 7 0x41)) ∧
      ∀ unicode,
        ¬Contained [(0xD2BB, 0x4E00)] (lnEncodeGbkToUtf8 [(0xD2BB, 0x4E00)] [0x81, 0x40] 6 unicode) 6
          [0x81, 0x40] := by
  refine ⟨fun table unicode h => ?_, fun table unicode h => ?_, fun unicode h => ?_⟩
  · have hchars := (contained_iff (utf8_encodes table 6) (by decide +kernel) unicode).mp h
    cases hchars with
    | single hchr => exact absurd hchr (by decide)
  · have hchars := (contained_iff (utf8_encodes table 6) (by decide +kernel) unicode).mp h
    exact absurd (hchars.length_le (by decide +kernel) (Nat.zero_le _)) (by decide)
  · have hchars := (contained_iff (utf8_encodes _ 6) (by decide +kernel) unicode).mp h
    cases hchars with
    | single hchr => exact absurd hchr (by decide)
    | double _ hfits => exact absurd hfits.2 (by decide)

end Ln882x.Unicode.Gbk
