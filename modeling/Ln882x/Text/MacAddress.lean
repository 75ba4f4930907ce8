import Mathlib.Data.List.GetD
import Mathlib.Data.Nat.Init
import Mathlib.Data.Int.Notation
import Mathlib.Order.Basic
import Mathlib.Tactic.SplitIfs

/-! MAC addresses as text, from `art_string.c`. The check counts the digits and, at a separator,
divides that number by two; anything else in the text sets the number of separators to −1. So
an odd digit in a group is not seen, a text of twelve digits may go on after a separator, and
one that starts with a digit and other characters counts its separators from the wrong place.
These are all the texts that are accepted wrongly; none is refused wrongly. -/

namespace Ln882x.Mac

/-! ### The parser -/

def isxdigit (c : UInt8) : Bool := (0x30 ≤ c && c ≤ 0x39) || (0x41 ≤ c && c ≤ 0x46) || (0x61 ≤ c && c ≤ 0x66)

/-- A colon or a minus sign. -/
def isSeparator (c : UInt8) : Bool := c = 0x3A || c = 0x2D

/-- The comparisons are of type `int`. -/
def lnChar2hex (c : UInt8) : UInt8 :=
  if (c.toNat : ℤ) - 0x30 ≤ 9 then c - 0x30
  else if (0x66 : ℤ) - c.toNat ≤ 6 then c - 0x61 + 10
  else c - 0x41 + 10

/-- The loop over the text, up to the zero at its end. -/
def validLoop : List UInt8 → ℕ → ℤ → ℕ × ℤ
  | [], i, s => (i, s)
  | c :: macStr, i, s =>
    if isxdigit c then validLoop macStr (i + 1) s
    else if isSeparator c then
      if i = 0 ∨ ((i / 2 : ℕ) : ℤ) - 1 ≠ s then (i, s) else validLoop macStr i (s + 1)
    else validLoop macStr i (-1)

def lnIsValidMacStr (macStr : List UInt8) : Bool :=
  if macStr.length ≠ 17 then false
  else
    let r := validLoop macStr 0 0
    r.1 = 12 && (r.2 = 5 || r.2 = 0)

/-- The six bytes, or `LN_FALSE`. -/
def lnMacStr2hex (str : List UInt8) : Option (List UInt8) :=
  if !lnIsValidMacStr str then none
  else some ((List.range 6).map fun i => lnChar2hex (str.getD (3 * i) 0) * 16 + lnChar2hex (str.getD (3 * i + 1) 0))

/-! ### The grammar -/

/-- Six groups of two digits with separators between them. -/
def IsMac (str : List UInt8) : Prop :=
  str.length = 17 ∧ ∀ i (_ : i < str.length), if i % 3 = 2 then isSeparator str[i] = true else isxdigit str[i] = true

def hexValue (c : UInt8) : ℕ :=
  if c ≤ 0x39 then c.toNat - 0x30 else if c ≤ 0x46 then c.toNat - 0x37 else c.toNat - 0x57

/-- The values of the groups. -/
def macValue (str : List UInt8) : List UInt8 :=
  (List.range 6).map fun i => UInt8.ofNat (16 * hexValue (str.getD (3 * i) 0) + hexValue (str.getD (3 * i + 1) 0))

/-! ### What is accepted -/

def digitsIn (str : List UInt8) : ℕ := str.countP isxdigit

def separatorsIn (str : List UInt8) : ℕ := str.countP isSeparator

/-- Neither digit nor separator. -/
def isOther (c : UInt8) : Bool := !isxdigit c && !isSeparator c

/-- Digits and separators only, twelve of the former, and at each separator the number of digits
before it is as `P` allows for the number of separators before it. -/
structure Paced (P : ℕ → ℕ → Prop) (str : List UInt8) : Prop where
  length : str.length = 17
  plain : ∀ c ∈ str, isxdigit c = true ∨ isSeparator c = true
  digits : digitsIn str = 12
  paced : ∀ before c after, str = before ++ c :: after → isSeparator c = true →
    P (digitsIn before) (separatorsIn before)

/-- Before the `k`-th separator are `2 k` or `2 k + 1` digits, and not always `2 k`. -/
def Ragged (str : List UInt8) : Prop :=
  Paced (fun digits separators => digits / 2 = separators + 1) str ∧
    ¬Paced (fun digits separators => digits = 2 * (separators + 1)) str

/-- Some digits, and then nothing or a separator and anything. -/
def Closing : ℕ → List UInt8 → Prop
  | 0, str => ∀ c ∈ str.head?, isSeparator c = true
  | _ + 1, [] => False
  | n + 1, c :: str => isxdigit c = true ∧ Closing n str

/-- The rest of a text in which one digit was counted before a separator: eleven digits, or other
characters and a separator first. -/
inductive AfterOne : List UInt8 → Prop
  | closing (str) : Closing 11 str → AfterOne str
  | again (other c rest) : other ≠ [] → (∀ o ∈ other, isOther o = true) → isSeparator c = true → AfterOne rest →
      AfterOne (other ++ c :: rest)

/-- A first group of one digit and other characters. -/
def Strayed (str : List UInt8) : Prop :=
  ∃ lead digit trail c rest, str = lead ++ digit :: (trail ++ c :: rest) ∧ (lead ≠ [] ∨ trail ≠ []) ∧
    (∀ o ∈ lead, isOther o = true) ∧ (∀ o ∈ trail, isOther o = true) ∧
    isxdigit digit = true ∧ isSeparator c = true ∧ AfterOne rest

/-- Accepted without being an address. -/
def Slips (str : List UInt8) : Prop := str.length = 17 ∧ (Ragged str ∨ Closing 12 str ∨ Strayed str)

/-! ### The loop -/

theorem digit_not_separator {c : UInt8} (h : isxdigit c = true) : isSeparator c = false := by
  have hall : ∀ n < 256, isxdigit (UInt8.ofNat n) = true → isSeparator (UInt8.ofNat n) = false := by decide +kernel
  have hc := hall c.toNat c.toNat_lt
  rw [UInt8.ofNat_toNat] at hc
  exact hc h

theorem separator_not_digit {c : UInt8} (h : isSeparator c = true) : isxdigit c = false := by
  cases hd : isxdigit c with
  | false => rfl
  | true => rw [digit_not_separator hd] at h; cases h

theorem isOther_iff {c : UInt8} : isOther c = true ↔ isxdigit c = false ∧ isSeparator c = false := by
  rw [isOther, Bool.and_eq_true, Bool.not_eq_true', Bool.not_eq_true']

/-- A character is one of three kinds. -/
theorem kinds (c : UInt8) : isxdigit c = true ∨ isSeparator c = true ∨ isOther c = true := by
  cases hd : isxdigit c with
  | true => exact .inl rfl
  | false =>
    cases hs : isSeparator c with
    | true => exact .inr (.inl rfl)
    | false => exact .inr (.inr (isOther_iff.mpr ⟨hd, hs⟩))

section Loop

variable {c : UInt8} {str : List UInt8} {i : ℕ} {s : ℤ}

theorem loop_digit (h : isxdigit c = true) : validLoop (c :: str) i s = validLoop str (i + 1) s := by
  rw [validLoop, if_pos h]

theorem loop_break (h : isSeparator c = true) (hbreak : i = 0 ∨ ((i / 2 : ℕ) : ℤ) - 1 ≠ s) :
    validLoop (c :: str) i s = (i, s) := by
  rw [validLoop, separator_not_digit h, if_neg Bool.false_ne_true, if_pos h, if_pos hbreak]

theorem loop_separator (h : isSeparator c = true) (hi : i ≠ 0) (hs : ((i / 2 : ℕ) : ℤ) - 1 = s) :
    validLoop (c :: str) i s = validLoop str i (s + 1) := by
  rw [validLoop, separator_not_digit h, if_neg Bool.false_ne_true, if_pos h, if_neg (by omega)]

theorem loop_other (h : isOther c = true) : validLoop (c :: str) i s = validLoop str i (-1) := by
  obtain ⟨hd, hs⟩ := isOther_iff.mp h
  rw [validLoop, hd, hs, if_neg Bool.false_ne_true, if_neg Bool.false_ne_true]

/-- Digits are only added. -/
theorem le_loop (str : List UInt8) (i : ℕ) (s : ℤ) : i ≤ (validLoop str i s).1 := by
  induction str generalizing i s with
  | nil => exact Nat.le_refl i
  | cons c str ih =>
    rcases kinds c with h | h | h
    · rw [loop_digit h]
      exact Nat.le_trans (Nat.le_succ i) (ih _ _)
    · by_cases hbreak : i = 0 ∨ ((i / 2 : ℕ) : ℤ) - 1 ≠ s
      · have hstop : validLoop (c :: str) i s = (i, s) := loop_break h hbreak
        exact Nat.le_of_eq (congrArg Prod.fst hstop).symm
      · rw [loop_separator h (by omega) (by omega)]
        exact ih _ _
    · rw [loop_other h]
      exact ih _ _

/-- To come to five separators takes a character for each digit and each separator. -/
theorem length_of_five (str : List UInt8) (i : ℕ) (s : ℤ) (hs : -1 ≤ s) (h : validLoop str i s = (12, 5)) :
    17 ≤ i + s + str.length := by
  induction str generalizing i s with
  | nil =>
    obtain ⟨rfl, rfl⟩ := Prod.mk.inj h
    exact Int.le_refl _
  | cons c str ih =>
    rw [List.length_cons]
    rcases kinds c with hc | hc | hc
    · rw [loop_digit hc] at h
      have hlength := ih _ _ hs h
      omega
    · by_cases hbreak : i = 0 ∨ ((i / 2 : ℕ) : ℤ) - 1 ≠ s
      · rw [loop_break hc hbreak] at h
        obtain ⟨rfl, rfl⟩ := Prod.mk.inj h
        omega
      · rw [loop_separator hc (by omega) (by omega)] at h
        have hlength := ih _ _ (by omega) h
        omega
    · rw [loop_other hc] at h
      have hlength := ih _ _ (Int.le_refl _) h
      omega

/-- Behind two digits the number of separators never is zero again. -/
theorem separators_ne_zero (str : List UInt8) (i : ℕ) (s : ℤ) (hi : 2 ≤ i) (hs : -1 ≤ s) (hne : s ≠ 0) :
    (validLoop str i s).2 ≠ 0 := by
  induction str generalizing i s with
  | nil => exact hne
  | cons c str ih =>
    rcases kinds c with hc | hc | hc
    · rw [loop_digit hc]
      exact ih _ _ (by omega) hs hne
    · by_cases hbreak : i = 0 ∨ ((i / 2 : ℕ) : ℤ) - 1 ≠ s
      · rw [loop_break hc hbreak]
        exact hne
      · rw [loop_separator hc (by omega) (by omega)]
        exact ih _ _ hi (by omega) (by omega)
    · rw [loop_other hc]
      exact ih _ _ hi (Int.le_refl _) (by omega)

/-! ### Five separators -/

theorem digitsIn_cons_digit (hc : isxdigit c = true) : digitsIn (c :: str) = digitsIn str + 1 :=
  List.countP_cons_of_pos hc

theorem digitsIn_cons_separator (hc : isSeparator c = true) : digitsIn (c :: str) = digitsIn str :=
  List.countP_cons_of_neg (by rw [separator_not_digit hc]; exact Bool.false_ne_true)

theorem separatorsIn_cons_digit (hc : isxdigit c = true) : separatorsIn (c :: str) = separatorsIn str :=
  List.countP_cons_of_neg (by rw [digit_not_separator hc]; exact Bool.false_ne_true)

theorem separatorsIn_cons_separator (hc : isSeparator c = true) : separatorsIn (c :: str) = separatorsIn str + 1 :=
  List.countP_cons_of_pos hc

/-- Every place in a text: the first one, and those behind it. -/
theorem forall_split_cons {α : Type*} {c : α} {l : List α} {P : List α → α → List α → Prop} :
    (∀ before o after, c :: l = before ++ o :: after → P before o after) ↔
      P [] c l ∧ ∀ before o after, l = before ++ o :: after → P (c :: before) o after := by
  constructor
  · exact fun h => ⟨h [] c l rfl, fun before o after heq => h (c :: before) o after (by rw [heq, List.cons_append])⟩
  · rintro ⟨hfirst, hrest⟩ before o after heq
    cases before with
    | nil =>
      obtain ⟨rfl, rfl⟩ := List.cons.inj heq
      exact hfirst
    | cons b before =>
      rw [List.cons_append] at heq
      obtain ⟨rfl, rfl⟩ := List.cons.inj heq
      exact hrest before o after rfl

/-- The rest of a text, behind `i` digits and `s` separators. -/
def PacedFrom (i s : ℕ) (str : List UInt8) : Prop :=
  (∀ c ∈ str, isxdigit c = true ∨ isSeparator c = true) ∧
    ∀ before c after, str = before ++ c :: after → isSeparator c = true →
      (i + digitsIn before) / 2 = s + separatorsIn before + 1

theorem pacedFrom_digit {i s : ℕ} (hc : isxdigit c = true) : PacedFrom i s (c :: str) ↔ PacedFrom (i + 1) s str := by
  have hs := digit_not_separator hc
  have hfirst : isSeparator c = true → (i + digitsIn []) / 2 = s + separatorsIn [] + 1 := by
    rw [hs]
    exact fun h => absurd h Bool.false_ne_true
  rw [PacedFrom, forall_split_cons, List.forall_mem_cons, and_iff_right (Or.inl hc), and_iff_right hfirst]
  refine and_congr Iff.rfl (forall₃_congr fun before o after => imp_congr Iff.rfl (imp_congr Iff.rfl ?_))
  rw [digitsIn_cons_digit hc, separatorsIn_cons_digit hc]
  omega

theorem pacedFrom_separator {i s : ℕ} (hc : isSeparator c = true) :
    PacedFrom i s (c :: str) ↔ i / 2 = s + 1 ∧ PacedFrom i (s + 1) str := by
  rw [PacedFrom, forall_split_cons, List.forall_mem_cons, and_iff_right (Or.inr hc), and_left_comm]
  refine and_congr ⟨fun h => h hc, fun h _ => h⟩ (and_congr Iff.rfl ?_)
  refine forall₃_congr fun before o after => imp_congr Iff.rfl (imp_congr Iff.rfl ?_)
  rw [digitsIn_cons_separator hc, separatorsIn_cons_separator hc]
  omega

/-- The loop counts to the end. -/
theorem loop_of_pacedFrom {i s : ℕ} (h : PacedFrom i s str) :
    validLoop str i s = (i + digitsIn str, ((s + separatorsIn str : ℕ) : ℤ)) := by
  induction str generalizing i s with
  | nil => rfl
  | cons c str ih =>
    rcases h.1 c List.mem_cons_self with hc | hc
    · rw [loop_digit hc, ih ((pacedFrom_digit hc).mp h), digitsIn_cons_digit hc, separatorsIn_cons_digit hc,
        Nat.add_right_comm, Nat.add_assoc]
    · obtain ⟨hfirst, hrest⟩ := (pacedFrom_separator hc).mp h
      have hnext := ih hrest
      rw [Int.natCast_add] at hnext
      rw [loop_separator hc (by omega) (by omega)]
      refine hnext.trans ?_
      rw [digitsIn_cons_separator hc, separatorsIn_cons_separator hc, Nat.add_right_comm, Nat.add_assoc]

/-- Without a character to spare, the loop only comes to five in this way. -/
theorem pacedFrom_of_loop {i s : ℕ} (h : validLoop str i s = (12, 5)) (hlength : i + s + str.length = 17) :
    PacedFrom i s str := by
  induction str generalizing i s with
  | nil => exact ⟨fun _ hc => absurd hc List.not_mem_nil, fun before _ _ heq => absurd heq.symm (by simp)⟩
  | cons c str ih =>
    rw [List.length_cons] at hlength
    rcases kinds c with hc | hc | hc
    · rw [loop_digit hc] at h
      exact (pacedFrom_digit hc).mpr (ih h (by omega))
    · by_cases hbreak : i = 0 ∨ ((i / 2 : ℕ) : ℤ) - 1 ≠ s
      · rw [loop_break hc hbreak] at h
        obtain ⟨rfl, hs⟩ := Prod.mk.inj h
        omega
      · rw [loop_separator hc (by omega) (by omega)] at h
        exact (pacedFrom_separator hc).mpr ⟨by omega, ih (by rwa [Int.natCast_add]) (by omega)⟩
    · rw [loop_other hc] at h
      have hlong := length_of_five str i (-1) (Int.le_refl _) h
      omega

/-- Digits and separators are all there is. -/
theorem digits_add_separators (h : ∀ c ∈ str, isxdigit c = true ∨ isSeparator c = true) :
    digitsIn str + separatorsIn str = str.length := by
  induction str with
  | nil => rfl
  | cons c str ih =>
    have hrest := ih fun o ho => h o (List.mem_cons_of_mem _ ho)
    rw [List.length_cons]
    rcases h c List.mem_cons_self with hc | hc
    · rw [digitsIn_cons_digit hc, separatorsIn_cons_digit hc]
      omega
    · rw [digitsIn_cons_separator hc, separatorsIn_cons_separator hc]
      omega

theorem loop_five_iff (hlength : str.length = 17) :
    validLoop str 0 0 = (12, 5) ↔ Paced (fun digits separators => digits / 2 = separators + 1) str := by
  constructor
  · intro h
    have hfrom := pacedFrom_of_loop (i := 0) (s := 0) h (by omega)
    have hloop := loop_of_pacedFrom hfrom
    rw [Int.natCast_zero, h] at hloop
    refine ⟨hlength, hfrom.1, ?_, fun before c after heq hc => ?_⟩
    · have hdigits := (Prod.mk.inj hloop).1
      omega
    · have hone := hfrom.2 before c after heq hc
      omega
  · intro h
    have hfrom : PacedFrom 0 0 str := by
      refine ⟨h.plain, fun before c after heq hc => ?_⟩
      have hone := h.paced before c after heq hc
      omega
    have hloop := loop_of_pacedFrom hfrom
    have hsum := digits_add_separators h.plain
    have hdigits := h.digits
    rw [Int.natCast_zero] at hloop
    rw [hloop, hdigits, show separatorsIn str = 5 by omega]
    rfl

/-! ### No separator -/

theorem loop_closing {i n : ℕ} (hi : 2 ≤ i) (hn : i + n = 12) : validLoop str i 0 = (12, 0) ↔ Closing n str := by
  induction str generalizing i n with
  | nil =>
    cases n with
    | zero => exact iff_of_true (Prod.ext hn rfl) (by simp [Closing])
    | succ n => exact iff_of_false (fun h => absurd (Prod.mk.inj h).1 (by omega)) id
  | cons c str ih =>
    rcases kinds c with hc | hc | hc
    · rw [loop_digit hc]
      cases n with
      | zero =>
        have hle := le_loop str (i + 1) 0
        refine iff_of_false (fun h => ?_) (by simp [Closing, digit_not_separator hc])
        rw [h] at hle
        omega
      | succ n =>
        rw [Closing, and_iff_right hc]
        exact ih (by omega) (by omega)
    · by_cases hbreak : i = 0 ∨ ((i / 2 : ℕ) : ℤ) - 1 ≠ 0
      · rw [loop_break hc hbreak]
        cases n with
        | zero => exact iff_of_true (Prod.ext hn rfl) (by simp [Closing, hc])
        | succ n =>
          refine iff_of_false (fun h => absurd (Prod.mk.inj h).1 (by omega)) ?_
          rw [Closing, separator_not_digit hc]
          exact fun h => absurd h.1 Bool.false_ne_true
      · rw [loop_separator hc (by omega) (by omega)]
        refine iff_of_false (fun h => separators_ne_zero str i _ hi (by omega) (by omega) (congrArg Prod.snd h)) ?_
        cases n with
        | zero => omega
        | succ n =>
          rw [Closing, separator_not_digit hc]
          exact fun h => absurd h.1 Bool.false_ne_true
    · obtain ⟨hd, hs⟩ := isOther_iff.mp hc
      rw [loop_other hc]
      refine iff_of_false (fun h => separators_ne_zero str i _ hi (Int.le_refl _) (by decide) (congrArg Prod.snd h)) ?_
      cases n with
      | zero => simp [Closing, hs]
      | succ n => simp [Closing, hd]

/-- Other characters, a separator, and then a text as `Q` says. -/
def Behind (Q : List UInt8 → Prop) (str : List UInt8) : Prop :=
  ∃ other c rest, str = other ++ c :: rest ∧ (∀ o ∈ other, isOther o = true) ∧ isSeparator c = true ∧ Q rest

theorem behind_cons {Q : List UInt8 → Prop} :
    Behind Q (c :: str) ↔ (isSeparator c = true ∧ Q str) ∨ (isOther c = true ∧ Behind Q str) := by
  constructor
  · rintro ⟨other, o, rest, heq, hother, ho, h⟩
    cases other with
    | nil =>
      obtain ⟨rfl, rfl⟩ := List.cons.inj heq
      exact .inl ⟨ho, h⟩
    | cons b other =>
      obtain ⟨rfl, rfl⟩ := List.cons.inj heq
      obtain ⟨hb, hother⟩ := List.forall_mem_cons.mp hother
      exact .inr ⟨hb, other, o, rest, rfl, hother, ho, h⟩
  · rintro (⟨hc, h⟩ | ⟨hc, other, o, rest, rfl, hother, ho, h⟩)
    · exact ⟨[], c, str, rfl, fun _ ho => absurd ho List.not_mem_nil, hc, h⟩
    · exact ⟨c :: other, o, rest, rfl, List.forall_mem_cons.mpr ⟨hc, hother⟩, ho, h⟩

theorem not_behind_nil {Q : List UInt8 → Prop} : ¬Behind Q [] := by
  rintro ⟨other, o, rest, heq, -⟩
  exact absurd heq.symm (by simp)

/-- One digit was counted, and other characters came after the last separator. -/
theorem loop_one_other : validLoop str 1 (-1) = (12, 0) ↔ Behind (fun rest => validLoop rest 1 0 = (12, 0)) str := by
  induction str with
  | nil => exact iff_of_false (fun h => absurd (Prod.mk.inj h).1 (by decide)) not_behind_nil
  | cons c str ih =>
    rw [behind_cons]
    rcases kinds c with hc | hc | hc
    · have hother : ¬isOther c = true := by rw [isOther, hc]; exact Bool.false_ne_true
      rw [loop_digit hc, digit_not_separator hc]
      refine iff_of_false (fun h => ?_) (by simp [hother])
      exact separators_ne_zero str 2 (-1) (by decide) (by decide) (by decide) (congrArg Prod.snd h)
    · have hother : ¬isOther c = true := by rw [isOther, hc, Bool.not_true, Bool.and_false]; exact Bool.false_ne_true
      rw [loop_separator hc (by decide) (by decide), and_iff_right hc]
      exact (or_iff_left fun h => hother h.1).symm
    · rw [loop_other hc, ih, and_iff_right hc]
      refine (or_iff_right fun h => ?_).symm
      rw [(isOther_iff.mp hc).2] at h
      exact Bool.false_ne_true h.1

/-- One digit was counted, and a separator came last. -/
theorem loop_one_iff (str : List UInt8) : validLoop str 1 0 = (12, 0) ↔ AfterOne str := by
  constructor
  · induction hlength : str.length using Nat.strongRecOn generalizing str with
    | ind n ih =>
      intro h
      cases str with
      | nil => exact absurd (Prod.mk.inj h).1 (by decide)
      | cons c str =>
        rcases kinds c with hc | hc | hc
        · rw [loop_digit hc] at h
          exact .closing _ ⟨hc, (loop_closing (by decide) (by decide)).mp h⟩
        · rw [loop_break hc (.inr (by decide))] at h
          exact absurd (Prod.mk.inj h).1 (by decide)
        · rw [loop_other hc, loop_one_other] at h
          obtain ⟨other, o, rest, rfl, hother, ho, h⟩ := h
          refine .again (c :: other) o rest (List.cons_ne_nil _ _) (List.forall_mem_cons.mpr ⟨hc, hother⟩) ho ?_
          refine ih rest.length ?_ rest rfl h
          rw [← hlength, List.length_cons, List.length_append, List.length_cons]
          omega
  · intro h
    induction h with
    | closing str h =>
      cases str with
      | nil => exact h.elim
      | cons c str =>
        rw [loop_digit h.1]
        exact (loop_closing (by decide) (by decide)).mpr h.2
    | again other c rest hne hother hc _ ih =>
      cases other with
      | nil => exact absurd rfl hne
      | cons o other =>
        obtain ⟨ho, hother⟩ := List.forall_mem_cons.mp hother
        rw [List.cons_append, loop_other ho, loop_one_other]
        exact ⟨other, c, rest, rfl, hother, hc, ih⟩

/-- Other characters came first. -/
theorem loop_none_other :
    validLoop str 0 (-1) = (12, 0) ↔
      ∃ lead digit rest, str = lead ++ digit :: rest ∧ (∀ o ∈ lead, isOther o = true) ∧ isxdigit digit = true ∧
        Behind AfterOne rest := by
  have hone : (fun rest => validLoop rest 1 0 = (12, 0)) = AfterOne := funext fun rest => propext (loop_one_iff rest)
  induction str with
  | nil => exact iff_of_false (fun h => absurd (Prod.mk.inj h).1 (by decide)) (by simp)
  | cons c str ih =>
    constructor
    · intro h
      rcases kinds c with hc | hc | hc
      · rw [loop_digit hc, loop_one_other, hone] at h
        exact ⟨[], c, str, rfl, fun _ ho => absurd ho List.not_mem_nil, hc, h⟩
      · rw [loop_break hc (.inl rfl)] at h
        exact absurd (Prod.mk.inj h).1 (by decide)
      · rw [loop_other hc] at h
        obtain ⟨lead, digit, rest, rfl, hlead, h⟩ := ih.mp h
        exact ⟨c :: lead, digit, rest, rfl, List.forall_mem_cons.mpr ⟨hc, hlead⟩, h⟩
    · rintro ⟨lead, digit, rest, heq, hlead, hdigit, h⟩
      cases lead with
      | nil =>
        obtain ⟨rfl, rfl⟩ := List.cons.inj heq
        rw [loop_digit hdigit, loop_one_other, hone]
        exact h
      | cons o lead =>
        obtain ⟨rfl, rfl⟩ := List.cons.inj heq
        obtain ⟨ho, hlead⟩ := List.forall_mem_cons.mp hlead
        rw [loop_other ho]
        exact ih.mpr ⟨lead, digit, rest, rfl, hlead, hdigit, h⟩

theorem loop_zero_iff : validLoop str 0 0 = (12, 0) ↔ Closing 12 str ∨ Strayed str := by
  constructor
  · intro h
    cases str with
    | nil => exact absurd (Prod.mk.inj h).1 (by decide)
    | cons c str =>
      rcases kinds c with hc | hc | hc
      · rw [loop_digit hc, loop_one_iff] at h
        cases h with
        | closing _ h => exact .inl ⟨hc, h⟩
        | again other o rest hne hother ho h =>
          exact .inr ⟨[], c, other, o, rest, rfl, .inr hne, fun _ ho => absurd ho List.not_mem_nil, hother, hc, ho, h⟩
      · rw [loop_break hc (.inl rfl)] at h
        exact absurd (Prod.mk.inj h).1 (by decide)
      · rw [loop_other hc, loop_none_other] at h
        obtain ⟨lead, digit, rest, rfl, hlead, hdigit, other, o, rest, rfl, hother, ho, h⟩ := h
        exact .inr ⟨c :: lead, digit, other, o, rest, rfl, .inl (List.cons_ne_nil _ _),
          List.forall_mem_cons.mpr ⟨hc, hlead⟩, hother, hdigit, ho, h⟩
  · rintro (h | ⟨lead, digit, trail, c, rest, rfl, hne, hlead, htrail, hdigit, hc, h⟩)
    · cases str with
      | nil => exact h.elim
      | cons c str =>
        rw [loop_digit h.1, loop_one_iff]
        exact .closing _ h.2
    · cases lead with
      | nil =>
        rw [List.nil_append, loop_digit hdigit, loop_one_iff]
        exact .again trail c rest (hne.resolve_left fun hnil => hnil rfl) htrail hc h
      | cons o lead =>
        obtain ⟨ho, hlead⟩ := List.forall_mem_cons.mp hlead
        rw [List.cons_append, loop_other ho, loop_none_other]
        exact ⟨lead, digit, _, rfl, hlead, hdigit, trail, c, rest, rfl, htrail, hc, h⟩

end Loop

/-! ### The columns -/

section Columns

variable {str : List UInt8}

theorem digitsIn_next {i : ℕ} (hi : i < str.length) (hc : isxdigit str[i] = true) :
    digitsIn (str.take (i + 1)) = digitsIn (str.take i) + 1 ∧
      separatorsIn (str.take (i + 1)) = separatorsIn (str.take i) := by
  rw [List.take_succ_eq_append_getElem hi, digitsIn, separatorsIn, List.countP_append, List.countP_append]
  exact ⟨congrArg _ (digitsIn_cons_digit hc), congrArg _ (separatorsIn_cons_digit hc)⟩

theorem separatorsIn_next {i : ℕ} (hi : i < str.length) (hc : isSeparator str[i] = true) :
    digitsIn (str.take (i + 1)) = digitsIn (str.take i) ∧
      separatorsIn (str.take (i + 1)) = separatorsIn (str.take i) + 1 := by
  rw [List.take_succ_eq_append_getElem hi, digitsIn, separatorsIn, List.countP_append, List.countP_append]
  exact ⟨congrArg _ (digitsIn_cons_separator hc), congrArg _ (separatorsIn_cons_separator hc)⟩

/-- Two digits to a separator. -/
theorem counts_of_isMac (h : IsMac str) {i : ℕ} (hi : i ≤ 17) :
    digitsIn (str.take i) = i - i / 3 ∧ separatorsIn (str.take i) = i / 3 := by
  induction i with
  | zero => exact ⟨rfl, rfl⟩
  | succ i ih =>
    obtain ⟨hd, hs⟩ := ih (by omega)
    have hlt : i < str.length := by rw [h.1]; omega
    have hcolumn := h.2 i hlt
    by_cases hmod : i % 3 = 2
    · rw [if_pos hmod] at hcolumn
      obtain ⟨hd', hs'⟩ := separatorsIn_next hlt hcolumn
      rw [hd', hs', hd, hs]
      omega
    · rw [if_neg hmod] at hcolumn
      obtain ⟨hd', hs'⟩ := digitsIn_next hlt hcolumn
      rw [hd', hs', hd, hs]
      omega

theorem paced_of_isMac (h : IsMac str) : Paced (fun digits separators => digits = 2 * (separators + 1)) str := by
  refine ⟨h.1, fun c hc => ?_, ?_, ?_⟩
  · obtain ⟨i, hi, rfl⟩ := List.getElem_of_mem hc
    have hcolumn := h.2 i hi
    split_ifs at hcolumn
    · exact .inr hcolumn
    · exact .inl hcolumn
  · have hcounts := counts_of_isMac h (Nat.le_refl _)
    rw [← h.1, List.take_length] at hcounts
    rw [hcounts.1, h.1]
  · rintro before c after rfl hc
    have hi : before.length < (before ++ c :: after).length := by
      rw [List.length_append, List.length_cons]
      omega
    have hcolumn := h.2 before.length hi
    rw [List.getElem_append_right (Nat.le_refl _)] at hcolumn
    have hcounts := counts_of_isMac h (i := before.length) (by rw [← h.1]; omega)
    rw [List.take_left' rfl] at hcounts
    by_cases hmod : before.length % 3 = 2
    · omega
    · simp only [hmod, if_false, Nat.sub_self, List.getElem_cons_zero, separator_not_digit hc] at hcolumn
      cases hcolumn

/-- In a paced text no column is out of place: a third digit would be followed by digits only. -/
theorem separators_of_paced (h : Paced (fun digits separators => digits = 2 * (separators + 1)) str) {i : ℕ}
    (hi : i ≤ 17) :
    separatorsIn (str.take i) = i / 3 := by
  have hsum : ∀ j ≤ 17, digitsIn (str.take j) + separatorsIn (str.take j) = j := by
    intro j hj
    rw [digits_add_separators fun c hc => h.plain c (List.mem_of_mem_take hc), List.length_take, h.length]
    omega
  have hplace : ∀ j (hj : j < str.length), isSeparator str[j] = true →
      digitsIn (str.take j) = 2 * (separatorsIn (str.take j) + 1) := by
    intro j hj hc
    exact h.paced _ _ (str.drop (j + 1)) (by rw [List.getElem_cons_drop, List.take_append_drop]) hc
  have hall : digitsIn (str.take 17) = 12 := by rw [← h.length, List.take_length, h.digits]
  induction i with
  | zero => rfl
  | succ i ih =>
    have hs := ih (by omega)
    have hlt : i < str.length := by rw [h.length]; omega
    rcases h.plain _ (List.getElem_mem hlt) with hc | hc
    · obtain ⟨hd', hs'⟩ := digitsIn_next hlt hc
      rw [hs', hs]
      by_contra hthird
      -- from here on, no separator
      have hstuck : ∀ j, i + 1 ≤ j → j ≤ 17 → separatorsIn (str.take j) = i / 3 := by
        intro j hij
        induction j, hij using Nat.le_induction with
        | base => exact fun _ => hs'.trans hs
        | succ j hij ihj =>
          intro hj
          have hsj := ihj (by omega)
          have hjlt : j < str.length := by rw [h.length]; omega
          rcases h.plain _ (List.getElem_mem hjlt) with hcj | hcj
          · rw [(digitsIn_next hjlt hcj).2, hsj]
          · have hdj := hplace j hjlt hcj
            have hsumj := hsum j (by omega)
            omega
      have hend := hstuck 17 (by omega) (Nat.le_refl _)
      have hsumend := hsum 17 (Nat.le_refl _)
      omega
    · obtain ⟨hd', hs'⟩ := separatorsIn_next hlt hc
      have hdi := hplace i hlt hc
      have hsumi := hsum i (by omega)
      rw [hs']
      omega

theorem isMac_of_paced (h : Paced (fun digits separators => digits = 2 * (separators + 1)) str) : IsMac str := by
  refine ⟨h.length, fun i hi => ?_⟩
  have hlt : i < 17 := h.length ▸ hi
  have hs := separators_of_paced h (i := i) (by omega)
  have hs' := separators_of_paced h (i := i + 1) (by omega)
  rcases h.plain _ (List.getElem_mem hi) with hc | hc
  · have hnext := (digitsIn_next hi hc).2
    rw [if_neg (by omega)]
    exact hc
  · have hnext := (separatorsIn_next hi hc).2
    rw [if_pos (by omega)]
    exact hc

end Columns

/-! ### The result -/

theorem char2hex_of_digit {c : UInt8} (h : isxdigit c = true) : lnChar2hex c = UInt8.ofNat (hexValue c) := by
  have hall : ∀ n < 256, isxdigit (UInt8.ofNat n) = true →
      lnChar2hex (UInt8.ofNat n) = UInt8.ofNat (hexValue (UInt8.ofNat n)) := by decide +kernel
  have hc := hall c.toNat c.toNat_lt
  rw [UInt8.ofNat_toNat] at hc
  exact hc h

theorem macStr2hex_of_isMac {str : List UInt8} (h : IsMac str) (hvalid : lnIsValidMacStr str = true) :
    lnMacStr2hex str = some (macValue str) := by
  have hdigit : ∀ j < 17, j % 3 ≠ 2 → isxdigit (str.getD j 0) = true := by
    intro j hj hmod
    have hlt : j < str.length := by rw [h.1]; exact hj
    have hcolumn := h.2 j hlt
    rwa [if_neg hmod, ← List.getD_eq_getElem str 0 hlt] at hcolumn
  rw [lnMacStr2hex, hvalid, Bool.not_true, if_neg Bool.false_ne_true, macValue]
  refine congrArg some (List.map_congr_left fun i hi => ?_)
  have hlt := List.mem_range.mp hi
  rw [char2hex_of_digit (hdigit (3 * i) (by omega) (by omega)),
    char2hex_of_digit (hdigit (3 * i + 1) (by omega) (by omega)), UInt8.ofNat_add, UInt8.ofNat_mul, UInt8.mul_comm]
  rfl

theorem isValid_iff (str : List UInt8) :
    lnIsValidMacStr str = true ↔ str.length = 17 ∧ (validLoop str 0 0 = (12, 5) ∨ validLoop str 0 0 = (12, 0)) := by
  rw [lnIsValidMacStr]
  by_cases hlength : str.length = 17
  · simp only [hlength, ne_eq, not_true_eq_false, if_false, true_and, Bool.and_eq_true, Bool.or_eq_true,
      decide_eq_true_eq, Prod.ext_iff, and_or_left]
  · simp only [hlength, ne_eq, not_false_eq_true, if_true, false_and, Bool.false_eq_true]

/-- The parser returns the six values of a text exactly if it is an address. -/
def Parses (str : List UInt8) : Prop := ∀ hex, lnMacStr2hex str = some hex ↔ IsMac str ∧ hex = macValue str

/-- An accepted text that is parsed right is an address. -/
theorem Parses.isMac {str : List UInt8} (h : Parses str) (hsome : (lnMacStr2hex str).isSome = true) : IsMac str := by
  obtain ⟨hex, heq⟩ := Option.isSome_iff_exists.mp hsome
  exact ((h hex).mp heq).1

theorem five_of_isMac {str : List UInt8} (h : IsMac str) : validLoop str 0 0 = (12, 5) := by
  have hpaced := paced_of_isMac h
  refine (loop_five_iff h.1).mpr ⟨h.1, hpaced.plain, hpaced.digits, fun before c after heq hc => ?_⟩
  have hone := hpaced.paced before c after heq hc
  omega

/-- A text is parsed right exactly if it is not one of the three kinds. -/
theorem macStr2hex_iff (str : List UInt8) : Parses str ↔ ¬Slips str := by
  constructor
  · rintro h ⟨hlength, hslip⟩
    have hvalid : lnIsValidMacStr str = true := by
      refine (isValid_iff str).mpr ⟨hlength, hslip.imp (fun hragged => ?_) fun hzero => loop_zero_iff.mpr hzero⟩
      exact (loop_five_iff hlength).mpr hragged.1
    have hmac : IsMac str := by
      refine h.isMac ?_
      rw [lnMacStr2hex, hvalid, Bool.not_true, if_neg Bool.false_ne_true]
      rfl
    rcases hslip with hragged | hzero
    · exact hragged.2 (paced_of_isMac hmac)
    · have hfive := five_of_isMac hmac
      rw [loop_zero_iff.mpr hzero] at hfive
      exact absurd (Prod.mk.inj hfive).2 (by decide)
  · intro hslips hex
    constructor
    · intro hsome
      have hvalid : lnIsValidMacStr str = true := by
        cases hv : lnIsValidMacStr str with
        | true => rfl
        | false => rw [lnMacStr2hex, hv] at hsome; cases hsome
      obtain ⟨hlength, hloop⟩ := (isValid_iff str).mp hvalid
      have hmac : IsMac str := by
        rcases hloop with hfive | hzero
        · by_contra hnot
          exact hslips ⟨hlength, .inl ⟨(loop_five_iff hlength).mp hfive, fun hpaced => hnot (isMac_of_paced hpaced)⟩⟩
        · exact absurd ⟨hlength, .inr (loop_zero_iff.mp hzero)⟩ hslips
      rw [macStr2hex_of_isMac hmac hvalid] at hsome
      exact ⟨hmac, (Option.some.inj hsome).symm⟩
    · rintro ⟨hmac, rfl⟩
      exact macStr2hex_of_isMac hmac ((isValid_iff str).mpr ⟨hmac.1, .inl (five_of_isMac hmac)⟩)

/-- `123:4:55:66:77:88`, `112233445566:xxxx` and `1x:11112222333:xx` are accepted. -/
theorem not_parses_others :
    ¬Parses [0x31, 0x32, 0x33, 0x3A, 0x34, 0x3A, 0x35, 0x35, 0x3A, 0x36, 0x36, 0x3A, 0x37, 0x37, 0x3A, 0x38, 0x38] ∧
      ¬Parses [0x31, 0x31, 0x32, 0x32, 0x33, 0x33, 0x34, 0x34, 0x35, 0x35, 0x36, 0x36, 0x3A, 0x78, 0x78, 0x78, 0x78] ∧
      ¬Parses [0x31, 0x78, 0x3A, 0x31, 0x31, 0x31, 0x31, 0x32, 0x32, 0x32, 0x32, 0x33, 0x33, 0x33, 0x3A, 0x78, 0x78] := by
  refine ⟨fun h => ?_, fun h => ?_, fun h => ?_⟩
  · exact absurd ((h.isMac (by decide)).2 2 (by decide)) (by decide)
  · exact absurd ((h.isMac (by decide)).2 2 (by decide)) (by decide)
  · exact absurd ((h.isMac (by decide)).2 1 (by decide)) (by decide)

end Ln882x.Mac
