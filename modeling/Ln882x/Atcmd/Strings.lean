import Mathlib.Data.List.GetD
import Ln882x.Atcmd.Parser

/-! The string helpers under the AT parser. The search does not try the last position the
needle could have, so it is right unless the needle is found there for the first time. The
parser hands on the text between `AT+` and the first `?` or `=`; the buffer for it has
room for 48 bytes and two zeros. -/

namespace Ln882x.Atcmd

open Nor

/-! ### Searching -/

/-- The answer of a search: the first position, or that there is none. -/
def Finds (needle haystack : Bytes) : Option ℕ → Prop
  | some i => needle <+: haystack.drop i ∧ ∀ j < i, ¬needle <+: haystack.drop j
  | none => ∀ i, ¬needle <+: haystack.drop i

/-- If the haystack ends in the needle, then the needle occurs before that too. -/
def FoundBeforeEnd (needle haystack : Bytes) : Prop :=
  ∀ pre, haystack = pre ++ needle → ∃ j < pre.length, needle <+: haystack.drop j

section Search

variable {needle haystack : Bytes}

theorem atStrEqual_iff (h : needle.length ≤ haystack.length) :
    atStrEqual haystack needle.length needle needle.length = true ↔ needle <+: haystack := by
  simp only [atStrEqual, List.all_eq_true, List.mem_range, Nat.sub_self, Nat.zero_add, decide_eq_true_eq]
  rw [List.prefix_iff_getElem]
  constructor
  · intro hall
    refine ⟨h, fun i hi => ?_⟩
    have hbyte := hall i hi
    rw [List.getD_eq_getElem _ _ hi, List.getD_eq_getElem _ _ (Nat.lt_of_lt_of_le hi h)] at hbyte
    exact hbyte.symm
  · rintro ⟨_, hall⟩ i hi
    rw [List.getD_eq_getElem _ _ hi, List.getD_eq_getElem _ _ (Nat.lt_of_lt_of_le hi h)]
    exact (hall i hi).symm

/-- The loop finds the first of the positions it tries. -/
theorem atStrFindLoop_eq (hn : needle.length < 2 ^ 16) (n i : ℕ) {haystack : Bytes}
    (h : n + needle.length ≤ haystack.length) :
    atStrFindLoop needle n i haystack =
      ((List.range n).find? fun j => decide (needle <+: haystack.drop j)).map (i + ·) := by
  have hlen : atStrlen needle = needle.length := Nat.mod_eq_of_lt hn
  induction n generalizing i haystack with
  | zero => rfl
  | succ n ih =>
    have hdrop : n + needle.length ≤ (haystack.drop 1).length := by
      rw [List.length_drop]
      omega
    have hequal : atStrEqual haystack needle.length needle needle.length = decide (needle <+: haystack) := by
      rw [Bool.eq_iff_iff, atStrEqual_iff (by omega), decide_eq_true_eq]
    rw [atStrFindLoop, hlen, hequal, ih (i + 1) hdrop, List.range_succ_eq_map, List.find?_cons, List.drop_zero]
    by_cases hp : needle <+: haystack
    · rw [if_pos (by simpa using hp)]
      simp [hp]
    · rw [if_neg (by simpa using hp)]
      simp only [hp, decide_false, List.find?_map, Option.map_map]
      congr 1
      · funext j
        simp only [Function.comp_apply]
        omega
      · congr 1
        funext j
        simp [Function.comp_apply]

variable (hn : needle.length < 2 ^ 16) (hh : haystack.length < 2 ^ 16)
include hn hh

theorem atStrFind_eq_some_iff (i : ℕ) : atStrFind haystack needle = some i ↔
    i + needle.length < haystack.length ∧ needle <+: haystack.drop i ∧ ∀ j < i, ¬needle <+: haystack.drop j := by
  have hln : atStrlen needle = needle.length := Nat.mod_eq_of_lt hn
  have hlh : atStrlen haystack = haystack.length := Nat.mod_eq_of_lt hh
  rw [atStrFind, hln, hlh]
  split
  · rename_i hlt
    simp only [reduceCtorEq, false_iff]
    omega
  · rename_i hle
    rw [atStrFindLoop_eq hn _ _ (by omega)]
    simp only [Nat.zero_add, Option.map_id', List.find?_range_eq_some, List.mem_range, decide_eq_true_eq,
      Bool.not_eq_true', decide_eq_false_iff_not]
    constructor
    · rintro ⟨hp, hi, hmin⟩
      exact ⟨by omega, hp, hmin⟩
    · rintro ⟨hi, hp, hmin⟩
      exact ⟨hp, by omega, hmin⟩

theorem atStrFind_eq_none_iff : atStrFind haystack needle = none ↔
    ∀ i, i + needle.length < haystack.length → ¬needle <+: haystack.drop i := by
  constructor
  · intro hnone i hi hp
    have hex : ∃ j, needle <+: haystack.drop j := ⟨i, hp⟩
    have hfind := Nat.find_min' hex hp
    have hsome := (atStrFind_eq_some_iff hn hh (Nat.find hex)).mpr
      ⟨by omega, Nat.find_spec hex, fun j hj => Nat.find_min hex hj⟩
    rw [hnone] at hsome
    cases hsome
  · intro hall
    cases hfind : atStrFind haystack needle with
    | none => rfl
    | some i =>
      obtain ⟨hi, hp, -⟩ := (atStrFind_eq_some_iff hn hh i).mp hfind
      exact absurd hp (hall i hi)

omit hn hh in
theorem prefix_drop_le (hne : needle ≠ []) {i : ℕ} (hp : needle <+: haystack.drop i) :
    i + needle.length ≤ haystack.length := by
  have hlen := hp.length_le
  have hpos := List.length_pos_iff.mpr hne
  rw [List.length_drop] at hlen
  omega

/-- The search is right exactly if the needle is not at the end for the first time. -/
theorem finds_atStrFind_iff (hne : needle ≠ []) :
    Finds needle haystack (atStrFind haystack needle) ↔ FoundBeforeEnd needle haystack := by
  constructor
  · rintro h pre rfl
    have hend : needle <+: (pre ++ needle).drop pre.length := by
      rw [List.drop_left]
    cases hfind : atStrFind (pre ++ needle) needle with
    | none =>
      rw [hfind] at h
      exact absurd hend (h pre.length)
    | some i =>
      obtain ⟨hi, hp, -⟩ := (atStrFind_eq_some_iff hn hh i).mp hfind
      rw [List.length_append] at hi
      exact ⟨i, by omega, hp⟩
  · intro h
    cases hfind : atStrFind haystack needle with
    | some i => exact ((atStrFind_eq_some_iff hn hh i).mp hfind).2
    | none =>
      have hall := (atStrFind_eq_none_iff hn hh).mp hfind
      intro i hp
      have hle := prefix_drop_le hne hp
      by_cases hi : i + needle.length < haystack.length
      · exact hall i hi hp
      · -- the only position left is the last one
        have hend : haystack.drop i = needle := by
          refine (hp.eq_of_length ?_).symm
          rw [List.length_drop]
          omega
        have hsplit : haystack = haystack.take i ++ needle := by rw [← hend, List.take_append_drop]
        obtain ⟨j, hj, hpj⟩ := h _ hsplit
        rw [List.length_take] at hj
        exact hall j (by omega) hpj

end Search

/-! ### The name in a line -/

/-- The bounds of the text that `at_parse_plus_cmd` copies, the end exclusive, if it copies any. -/
def nameSlice (line : Bytes) : Option (ℕ × ℕ) :=
  match atStrFind line atCommandMarker with
  | none => none
  | some start =>
    let start := start + atStrlen atCommandMarker
    match scanLine start ((line.take (atStrlen line)).drop start) with
    | .command => some (start, atStrlen line)
    | .read i => some (start, i)
    | .test i => some (start, i)
    | .write i => some (start, i)
    | .error => none

theorem atArraySliceToString_eq_none_iff (array : Bytes) (start stop : ℕ) :
    atArraySliceToString array start stop = none ↔ atMaxTempString < stop - start + 2 := by
  rw [atArraySliceToString]
  by_cases hfit : stop - start + 2 ≤ atMaxTempString
  · rw [if_pos hfit]
    exact iff_of_false (Option.some_ne_none _) (Nat.not_lt.mpr hfit)
  · rw [if_neg hfit]
    exact iff_of_true rfl (Nat.lt_of_not_le hfit)

/-- The parser writes past its buffer exactly if the slice and two zeros do not fit. -/
theorem atParsePlusCmd_eq_overrun_iff (table : List AtCommand) (line : Bytes) :
    atParsePlusCmd table line = .overrun ↔
      ∃ start stop, nameSlice line = some (start, stop) ∧ atMaxTempString < stop - start + 2 := by
  rw [atParsePlusCmd, nameSlice]
  cases atStrFind line atCommandMarker with
  | none => simp
  | some i =>
    simp only
    generalize i + atStrlen atCommandMarker = start
    cases scanLine start ((line.take (atStrlen line)).drop start) with
    | error => simp
    | command =>
      have hnone := atArraySliceToString_eq_none_iff line start (atStrlen line)
      cases hs : atArraySliceToString line start (atStrlen line) <;> simpa [hs] using hnone
    | read stop | test stop | write stop =>
      have hnone := atArraySliceToString_eq_none_iff line start stop
      cases hs : atArraySliceToString line start stop <;> simpa [hs] using hnone

/-- The slice is well formed, lies in the line, and fits `temp` with its two zeros. -/
def NameInside (line : Bytes) : Prop :=
  ∀ start stop, nameSlice line = some (start, stop) →
    start ≤ stop ∧ stop ≤ line.length ∧ stop - start + 2 ≤ atMaxTempString

/-- Behind the first `AT+` there is nothing, or a request that is turned away, or a name of at most
48 bytes. -/
def ShortName (line : Bytes) : Prop :=
  ∀ pre text, line = pre ++ atCommandMarker ++ text → (∀ j < pre.length, ¬atCommandMarker <+: line.drop j) →
    text = [] ∨ codeRequest text = none ∨ (nameOf text).length ≤ 48

section Line

variable {pre text : Bytes}

/-- The slice of a line with its first `AT+` behind `pre`. -/
theorem nameSlice_eq (pre text : Bytes) (hl : (pre ++ atCommandMarker ++ text).length < 2 ^ 16)
    (hfirst : ∀ j < pre.length, ¬atCommandMarker <+: (pre ++ atCommandMarker ++ text).drop j) (ht : text ≠ []) :
    nameSlice (pre ++ atCommandMarker ++ text) =
      (codeRequest text).map fun _ => (pre.length + 3, pre.length + 3 + (nameOf text).length) := by
  have hm3 : atCommandMarker.length = 3 := rfl
  have hlen : atStrlen (pre ++ atCommandMarker ++ text) = pre.length + 3 + text.length := by
    rw [atStrlen, Nat.mod_eq_of_lt hl]
    simp only [List.length_append, hm3]
  have hpos := List.length_pos_iff.mpr ht
  have hat : atCommandMarker <+: (pre ++ atCommandMarker ++ text).drop pre.length := by
    rw [List.append_assoc, List.drop_left]
    exact List.prefix_append _ _
  have hfind : atStrFind (pre ++ atCommandMarker ++ text) atCommandMarker = some pre.length := by
    rw [atStrFind_eq_some_iff (by decide) hl]
    refine ⟨?_, hat, hfirst⟩
    simp only [List.length_append, hm3]
    omega
  have htext :
      ((pre ++ atCommandMarker ++ text).take (pre.length + 3 + text.length)).drop (pre.length + 3) = text := by
    rw [List.take_of_length_le (by simp [hm3, Nat.add_assoc]), List.drop_left' (by simp [hm3])]
  have hsplit := congrArg List.length (name_append_marks text)
  rw [List.length_append] at hsplit
  rw [nameSlice, hfind, hlen]
  simp only [show atStrlen atCommandMarker = 3 from rfl, htext, scanLine_eq, codeRequest]
  cases hmarks : marksOf text with
  | nil =>
    rw [hmarks, List.length_nil, Nat.add_zero] at hsplit
    simp [hsplit]
  | cons c v =>
    by_cases hq : c = questionMark
    · simp [hq]
    · cases v with
      | nil => simp [hq]
      | cons d v => by_cases hd : d = questionMark <;> simp [hq, hd]

end Line

/-- The slice of a line lies inside `temp` exactly if the name is short. -/
theorem nameInside_iff {line : Bytes} (hl : line.length < 2 ^ 16) : NameInside line ↔ ShortName line := by
  constructor
  · rintro h pre text rfl hfirst
    by_cases ht : text = []
    · exact .inl ht
    · refine .inr ?_
      by_cases hc : codeRequest text = none
      · exact .inl hc
      · obtain ⟨request, hrequest⟩ := Option.ne_none_iff_exists'.mp hc
        have hslice := nameSlice_eq _ _ hl hfirst ht
        rw [hrequest, Option.map_some] at hslice
        obtain ⟨-, -, hfit⟩ := h _ _ hslice
        simp only [atMaxTempString] at hfit
        exact .inr (by omega)
  · intro h start stop hslice
    cases hfind : atStrFind line atCommandMarker with
    | none =>
      rw [nameSlice, hfind] at hslice
      cases hslice
    | some i =>
      obtain ⟨hi, ⟨text, htext⟩, hfirst⟩ := (atStrFind_eq_some_iff (by decide) hl i).mp hfind
      have hm3 : atCommandMarker.length = 3 := rfl
      have hpre : (line.take i).length = i := by
        rw [List.length_take]
        omega
      have hline : line = line.take i ++ atCommandMarker ++ text := by
        rw [List.append_assoc, htext, List.take_append_drop]
      have hlen := congrArg List.length hline
      simp only [List.length_append, hpre, hm3] at hlen
      have ht : text ≠ [] := by
        rintro rfl
        simp only [List.length_nil] at hlen
        omega
      have hshort := (h _ text hline (by rwa [hpre])).resolve_left ht
      have hsplit := congrArg List.length (name_append_marks text)
      rw [List.length_append] at hsplit
      have heq := nameSlice_eq (line.take i) text (by rwa [← hline]) (by rwa [hpre, ← hline]) ht
      rw [← hline, hslice, hpre] at heq
      cases hc : codeRequest text with
      | none =>
        rw [hc, Option.map_none] at heq
        cases heq
      | some request =>
        rw [hc, Option.map_some] at heq
        obtain ⟨rfl, rfl⟩ := Prod.mk.inj (Option.some.inj heq)
        have h48 := hshort.resolve_left (by simp [hc])
        simp only [atMaxTempString]
        omega

/-- Both helpers: the search for a needle of at most 32767 bytes, and the name in a line of at most
255. -/
theorem atStrings_iff {needle haystack line : Bytes} (hne : needle ≠ []) (hn : needle.length ≤ 32767)
    (hh : haystack.length ≤ 32767) (hl : line.length ≤ 255) :
    (Finds needle haystack (atStrFind haystack needle) ↔ FoundBeforeEnd needle haystack) ∧
      (NameInside line ↔ ShortName line) :=
  ⟨finds_atStrFind_iff (by omega) (by omega) hne, nameInside_iff (by omega)⟩

/-- `BC` in `ABCD`, and the line `AT+X?`. -/
theorem atStrings_iff_short :
    (Finds [0x42, 0x43] [0x41, 0x42, 0x43, 0x44] (atStrFind [0x41, 0x42, 0x43, 0x44] [0x42, 0x43]) ↔
        FoundBeforeEnd [0x42, 0x43] [0x41, 0x42, 0x43, 0x44]) ∧
      (NameInside [0x41, 0x54, 0x2B, 0x58, 0x3F] ↔ ShortName [0x41, 0x54, 0x2B, 0x58, 0x3F]) :=
  atStrings_iff (by decide) (by decide) (by decide) (by decide)

/-- `A` is not found in `A`; a name of 49 bytes goes past `temp`. -/
theorem atStrings_wrong :
    ¬Finds [0x41] [0x41] (atStrFind [0x41] [0x41]) ∧ ¬NameInside (atCommandMarker ++ List.replicate 49 0x58) := by
  constructor
  · have hnone : atStrFind [0x41] [0x41] = none := by decide
    rw [hnone]
    exact fun h => h 0 (List.prefix_refl _)
  · intro h
    have hslice : nameSlice (atCommandMarker ++ List.replicate 49 0x58) = some (3, 52) := by decide +kernel
    exact absurd (h 3 52 hslice).2.2 (by decide)

end Ln882x.Atcmd
