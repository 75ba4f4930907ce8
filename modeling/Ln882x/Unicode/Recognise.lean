import Ln882x.Unicode.Utf8
import Mathlib.Tactic.IntervalCases

/-! The UTF-8 test. `ln_is_str_utf8` counts the continuation bytes still to come: a lead
byte sets the count, a continuation byte lowers it, and the string is taken when the
count is zero at its end. It never looks at the bits behind the marks; so it takes the
forms of one to six bytes, the shortest form of a code point, which the encoder writes,
and the over-long ones alike. -/

namespace Ln882x.Unicode

open Nor (Bytes)

/-- The loop, with `nBytes` continuation bytes to come; the end of the list or a zero byte is the
end of the string. -/
def isStrUtf8Loop : ℕ → Bool → Bytes → Bool
  | nBytes, allAscii, [] => if nBytes ≠ 0 then false else if allAscii then true else true
  | nBytes, allAscii, chr :: str =>
    if chr = 0 then if nBytes ≠ 0 then false else if allAscii then true else true
    else
      let allAscii := if nBytes = 0 ∧ (chr &&& 0x80) ≠ 0 then false else allAscii
      if nBytes = 0 then
        if chr ≥ 0x80 then
          if chr ≥ 0xFC ∧ chr ≤ 0xFD then isStrUtf8Loop 5 allAscii str
          else if chr ≥ 0xF8 then isStrUtf8Loop 4 allAscii str
          else if chr ≥ 0xF0 then isStrUtf8Loop 3 allAscii str
          else if chr ≥ 0xE0 then isStrUtf8Loop 2 allAscii str
          else if chr ≥ 0xC0 then isStrUtf8Loop 1 allAscii str
          else false
        else isStrUtf8Loop nBytes allAscii str
      else if (chr &&& 0xC0) ≠ 0x80 then false
      else isStrUtf8Loop (nBytes - 1) allAscii str

def lnIsStrUtf8 (str : Bytes) : Bool := isStrUtf8Loop 0 true str

/-! ### Forms -/

/-- The `k` continuation bytes of the low bits. -/
def tails : ℕ → ℕ → Bytes
  | 0, _ => []
  | k + 1, v => .ofNat (0x80 + v / 64 ^ k % 64) :: tails k v

/-- The lead byte of the form of `n` bytes: `n` ones, a zero and the high bits. -/
def lead (n v : ℕ) : UInt8 := if n = 1 then .ofNat v else .ofNat (256 - 2 ^ (8 - n) + v / 64 ^ (n - 1))

/-- The form of `n` bytes of a value, shortest or not. -/
def utf8Form (n v : ℕ) : Bytes := lead n v :: tails (n - 1) v

/-- The forms of one to six bytes, and the values each has room for. -/
structure FormOk (n v : ℕ) : Prop where
  pos : 1 ≤ n
  le : n ≤ 6
  room : v < if n = 1 then 2 ^ 7 else 2 ^ (5 * n + 1)

/-- A concatenation of forms. -/
def Forms (str : Bytes) : Prop :=
  ∃ fs : List (ℕ × ℕ), (∀ p ∈ fs, FormOk p.1 p.2) ∧ str = fs.flatMap fun p => utf8Form p.1 p.2

/-- The number of bytes the encoder takes. -/
def shortest (u : ℕ) : ℕ :=
  if u ≤ 0x7F then 1 else if u ≤ 0x7FF then 2 else if u ≤ 0xFFFF then 3 else if u ≤ 0x1FFFFF then 4
  else if u ≤ 0x3FFFFFF then 5 else 6

theorem formOk_shortest {u : ℕ} (hu : u ≤ 0x7FFFFFFF) : FormOk (shortest u) u := by
  rw [shortest]
  split_ifs
  all_goals refine ⟨by decide, by decide, ?_⟩
  · rw [if_pos rfl]
    omega
  all_goals
    rw [if_neg (by decide)]
    omega

theorem eq_ofNat {b : UInt8} {x : ℕ} (h : b.toNat = x) : b = .ofNat x := by
  rw [← h, UInt8.ofNat_toNat]

theorem lead_eq {n k u : ℕ} (hn : n ≠ 1) (hk : 8 - n = k) {j : ℕ} (hj : 64 ^ (n - 1) = 2 ^ j) {b : UInt8}
    (h : b.toNat = 256 - 2 ^ k + u / 2 ^ j % 2 ^ (k - 1)) (hu : u / 2 ^ j < 2 ^ (k - 1)) : b = lead n u := by
  rw [lead, if_neg hn, hk, hj, ← Nat.mod_eq_of_lt hu]
  exact eq_ofNat h

/-- The encoder writes the shortest form. -/
theorem encodeUnicodeToUtf8One_eq {u : ℕ} (hu : u ≤ 0x7FFFFFFF) :
    encodeUnicodeToUtf8One u = utf8Form (shortest u) u := by
  have htail : ∀ j, UInt8.ofNat (u >>> j &&& 0x3F ||| 0x80) = .ofNat (0x80 + u / 2 ^ j % 64) :=
    fun j => eq_ofNat (toNat_tail_shr u j)
  have hlast : UInt8.ofNat (u &&& 0x3F ||| 0x80) = .ofNat (0x80 + u / 64 ^ 0 % 64) := by
    rw [Nat.pow_zero, Nat.div_one]
    exact eq_ofNat (toNat_tail u)
  simp only [encodeUnicodeToUtf8One, shortest]
  by_cases h1 : u ≤ 0x7F
  · rw [if_pos h1, if_pos h1, Nat.and_two_pow_sub_one_of_lt_two_pow (n := 7) (by omega)]
    rfl
  rw [if_neg h1, if_neg h1]
  by_cases h2 : u ≤ 0x7FF
  · rw [if_pos (by omega), if_pos h2, hlast]
    have hlead : UInt8.ofNat (u >>> 6 &&& 0x1F ||| 0xC0) = lead 2 u :=
      lead_eq (j := 6) (by decide) rfl rfl (toNat_lead (k := 5) u 6 (by decide) (by decide)) (by omega)
    rw [hlead]
    rfl
  rw [if_neg (by omega), if_neg h2]
  by_cases h3 : u ≤ 0xFFFF
  · rw [if_pos (by omega), if_pos h3, hlast, htail]
    have hlead : UInt8.ofNat (u >>> 12 &&& 0x0F ||| 0xE0) = lead 3 u :=
      lead_eq (j := 12) (by decide) rfl rfl (toNat_lead (k := 4) u 12 (by decide) (by decide)) (by omega)
    rw [hlead]
    rfl
  rw [if_neg (by omega), if_neg h3]
  by_cases h4 : u ≤ 0x1FFFFF
  · rw [if_pos (by omega), if_pos h4, hlast, htail, htail]
    have hlead : UInt8.ofNat (u >>> 18 &&& 0x07 ||| 0xF0) = lead 4 u :=
      lead_eq (j := 18) (by decide) rfl rfl (toNat_lead (k := 3) u 18 (by decide) (by decide)) (by omega)
    rw [hlead]
    rfl
  rw [if_neg (by omega), if_neg h4]
  by_cases h5 : u ≤ 0x3FFFFFF
  · rw [if_pos (by omega), if_pos h5, hlast, htail, htail, htail]
    have hlead : UInt8.ofNat (u >>> 24 &&& 0x03 ||| 0xF8) = lead 5 u :=
      lead_eq (j := 24) (by decide) rfl rfl (toNat_lead (k := 2) u 24 (by decide) (by decide)) (by omega)
    rw [hlead]
    rfl
  rw [if_neg (by omega), if_neg h5, if_pos (by omega), hlast, htail, htail, htail, htail]
  have hlead : UInt8.ofNat (u >>> 30 &&& 0x01 ||| 0xFC) = lead 6 u :=
    lead_eq (j := 30) (by decide) rfl rfl (toNat_lead (k := 1) u 30 (by decide) (by decide)) (by omega)
  rw [hlead]
  rfl

/-! ### The loop -/

/-- Bytes that are neither the end of the string nor, as leads, taken for shorter ones. -/
def Plain (str : Bytes) : Prop := ∀ c ∈ str, c ≠ 0 ∧ c ≠ 0xFE ∧ c ≠ 0xFF

theorem isStrUtf8Loop_nil (k : ℕ) (b : Bool) : isStrUtf8Loop k b [] = true ↔ k = 0 := by
  rw [isStrUtf8Loop]
  by_cases hk : k = 0 <;> simp [hk]

/-- A continuation byte that is due. -/
theorem isStrUtf8Loop_tail (k : ℕ) (b : Bool) {c : UInt8} (hc : c ≠ 0) (str : Bytes) :
    isStrUtf8Loop (k + 1) b (c :: str) =
      if 0x80 ≤ c.toNat ∧ c.toNat < 0xC0 then isStrUtf8Loop k b str else false := by
  have htail := isTail_iff c
  rw [isTail, beq_iff_eq] at htail
  rw [isStrUtf8Loop, if_neg hc]
  by_cases h : (c &&& 0xC0) = 0x80
  · simp [h, htail.mp h]
  · simp [h, htail.not.mp h]

/-- Whether all bytes were ASCII does not matter. -/
theorem isStrUtf8Loop_flag (k : ℕ) (b b' : Bool) (str : Bytes) :
    isStrUtf8Loop k b str = isStrUtf8Loop k b' str := by
  induction str generalizing k b b' with
  | nil => simp [isStrUtf8Loop]
  | cons c str ih =>
    obtain ⟨F, hF⟩ : ∃ F, ∀ j x, isStrUtf8Loop j x str = F j := ⟨fun j => isStrUtf8Loop j true str, fun j x => ih j x true⟩
    rw [isStrUtf8Loop, isStrUtf8Loop]
    simp only [hF, ite_self]

/-- The lead bytes of forms of `n` bytes. -/
def LeadOf (n x : ℕ) : Prop := if n = 1 then x < 0x80 else 256 - 2 ^ (8 - n) ≤ x ∧ x < 256 - 2 ^ (7 - n)

/-- The branches of the loop at the first byte of a character. -/
theorem isStrUtf8Loop_first (b : Bool) {c : UInt8} (h0 : c ≠ 0) (str : Bytes) :
    isStrUtf8Loop 0 b (c :: str) =
      if 0x80 ≤ c.toNat then
        if 0xFC ≤ c.toNat ∧ c.toNat ≤ 0xFD then isStrUtf8Loop 5 b str
        else if 0xF8 ≤ c.toNat then isStrUtf8Loop 4 b str
        else if 0xF0 ≤ c.toNat then isStrUtf8Loop 3 b str
        else if 0xE0 ≤ c.toNat then isStrUtf8Loop 2 b str
        else if 0xC0 ≤ c.toNat then isStrUtf8Loop 1 b str
        else false
      else isStrUtf8Loop 0 b str := by
  have hge : ∀ m : UInt8, c ≥ m ↔ m.toNat ≤ c.toNat := fun m => UInt8.le_iff_toNat_le
  have hle : ∀ m : UInt8, c ≤ m ↔ c.toNat ≤ m.toNat := fun m => UInt8.le_iff_toNat_le
  obtain ⟨F, hF⟩ : ∃ F, ∀ j x, isStrUtf8Loop j x str = F j :=
    ⟨fun j => isStrUtf8Loop j true str, fun j x => isStrUtf8Loop_flag j x true str⟩
  rw [isStrUtf8Loop, if_neg h0]
  simp only [if_true, hge, hle, hF]
  rfl

/-- The count a lead byte sets. -/
theorem isStrUtf8Loop_lead (b : Bool) {c : UInt8} (h0 : c ≠ 0) {n : ℕ} (h1 : 1 ≤ n) (h6 : n ≤ 6)
    (hc : LeadOf n c.toNat) (str : Bytes) :
    isStrUtf8Loop 0 b (c :: str) = isStrUtf8Loop (n - 1) b str := by
  rw [isStrUtf8Loop_first b h0]
  generalize c.toNat = x at hc
  interval_cases n
  · have hx : x < 0x80 := hc
    rw [if_neg (by omega)]
  · have hx : 0xC0 ≤ x ∧ x < 0xE0 := hc
    rw [if_pos (by omega), if_neg (by omega), if_neg (by omega), if_neg (by omega), if_neg (by omega), if_pos (by omega)]
  · have hx : 0xE0 ≤ x ∧ x < 0xF0 := hc
    rw [if_pos (by omega), if_neg (by omega), if_neg (by omega), if_neg (by omega), if_pos (by omega)]
  · have hx : 0xF0 ≤ x ∧ x < 0xF8 := hc
    rw [if_pos (by omega), if_neg (by omega), if_neg (by omega), if_pos (by omega)]
  · have hx : 0xF8 ≤ x ∧ x < 0xFC := hc
    rw [if_pos (by omega), if_neg (by omega), if_pos (by omega)]
  · have hx : 0xFC ≤ x ∧ x < 0xFE := hc
    rw [if_pos (by omega), if_pos (by omega)]

/-- A continuation byte where a character should begin. -/
theorem isStrUtf8Loop_stray (b : Bool) {c : UInt8} (h0 : c ≠ 0) (hc : 0x80 ≤ c.toNat ∧ c.toNat < 0xC0)
    (str : Bytes) : isStrUtf8Loop 0 b (c :: str) = false := by
  rw [isStrUtf8Loop_first b h0, if_pos (by omega), if_neg (by omega), if_neg (by omega), if_neg (by omega),
    if_neg (by omega), if_neg (by omega)]

/-- Every other byte leads a form. -/
theorem exists_leadOf {c : UInt8} (hFE : c ≠ 0xFE) (hFF : c ≠ 0xFF) (hc : ¬ (0x80 ≤ c.toNat ∧ c.toNat < 0xC0)) :
    ∃ n, 1 ≤ n ∧ n ≤ 6 ∧ LeadOf n c.toNat := by
  have hlt := c.toNat_lt
  have hFE' : c.toNat ≠ 0xFE := fun h => hFE (UInt8.toNat_inj.mp h)
  have hFF' : c.toNat ≠ 0xFF := fun h => hFF (UInt8.toNat_inj.mp h)
  by_cases h1 : c.toNat < 0x80
  · exact ⟨1, by decide, by decide, h1⟩
  by_cases h2 : c.toNat < 0xE0
  · exact ⟨2, by decide, by decide, show 0xC0 ≤ c.toNat ∧ c.toNat < 0xE0 by omega⟩
  by_cases h3 : c.toNat < 0xF0
  · exact ⟨3, by decide, by decide, show 0xE0 ≤ c.toNat ∧ c.toNat < 0xF0 by omega⟩
  by_cases h4 : c.toNat < 0xF8
  · exact ⟨4, by decide, by decide, show 0xF0 ≤ c.toNat ∧ c.toNat < 0xF8 by omega⟩
  by_cases h5 : c.toNat < 0xFC
  · exact ⟨5, by decide, by decide, show 0xF8 ≤ c.toNat ∧ c.toNat < 0xFC by omega⟩
  · exact ⟨6, by decide, by decide, show 0xFC ≤ c.toNat ∧ c.toNat < 0xFE by omega⟩

theorem toNat_lead_form {n v : ℕ} (h : FormOk n v) :
    (lead n v).toNat = if n = 1 then v else 256 - 2 ^ (8 - n) + v / 64 ^ (n - 1) := by
  obtain ⟨hpos, hle, hroom⟩ := h
  rw [lead]
  by_cases h1 : n = 1
  · rw [if_pos h1] at hroom ⊢
    rw [if_pos h1, UInt8.toNat_ofNat', Nat.mod_eq_of_lt (by omega)]
  · rw [if_neg h1] at hroom ⊢
    rw [if_neg h1, UInt8.toNat_ofNat']
    refine Nat.mod_eq_of_lt ?_
    interval_cases n
    · exact absurd rfl h1
    all_goals omega

/-- Only the low bits go into the continuation bytes. -/
theorem tails_mod (k q w : ℕ) : tails k (q * 64 ^ k + w) = tails k w := by
  induction k generalizing q with
  | zero => rfl
  | succ k ih =>
    have hstep : q * 64 ^ (k + 1) + w = 64 ^ k * (q * 64) + w := by
      rw [Nat.pow_succ, Nat.mul_comm _ 64, ← Nat.mul_assoc, Nat.mul_comm]
    have hdigit : (q * 64 ^ (k + 1) + w) / 64 ^ k % 64 = w / 64 ^ k % 64 := by
      rw [hstep, Nat.mul_add_div (Nat.pow_pos (by decide))]
      omega
    rw [tails, tails, hdigit, hstep, Nat.mul_comm, ih]

/-! ### What the loop takes -/

theorem forms_nil : Forms [] := ⟨[], by simp, rfl⟩

theorem Forms.cons {n v : ℕ} {str : Bytes} (hv : FormOk n v) (h : Forms str) : Forms (utf8Form n v ++ str) := by
  obtain ⟨fs, hok, rfl⟩ := h
  exact ⟨(n, v) :: fs, List.forall_mem_cons.mpr ⟨hv, hok⟩, rfl⟩

/-- A concatenation of forms that starts with a byte starts with a form. -/
theorem forms_cons_iff {c : UInt8} {str : Bytes} :
    Forms (c :: str) ↔ ∃ n v rest, FormOk n v ∧ c = lead n v ∧ str = tails (n - 1) v ++ rest ∧ Forms rest := by
  constructor
  · rintro ⟨fs, hok, heq⟩
    cases fs with
    | nil => cases heq
    | cons p fs =>
      obtain ⟨hp, hfs⟩ := List.forall_mem_cons.mp hok
      rw [List.flatMap_cons, utf8Form, List.cons_append, List.cons.injEq] at heq
      exact ⟨p.1, p.2, _, hp, heq.1, heq.2, fs, hfs, rfl⟩
  · rintro ⟨n, v, rest, hv, rfl, rfl, h⟩
    exact Forms.cons hv h

/-- With `k` continuation bytes to come the loop takes those and then forms. -/
def Rest (k : ℕ) (str : Bytes) : Prop := ∃ v rest, v < 64 ^ k ∧ str = tails k v ++ rest ∧ Forms rest

theorem rest_zero {str : Bytes} : Rest 0 str ↔ Forms str := by
  constructor
  · rintro ⟨v, rest, -, rfl, h⟩
    exact h
  · exact fun h => ⟨0, str, by decide, rfl, h⟩

theorem rest_succ {k : ℕ} {c : UInt8} {str : Bytes} :
    Rest (k + 1) (c :: str) ↔ (0x80 ≤ c.toNat ∧ c.toNat < 0xC0) ∧ Rest k str := by
  have hpos : 0 < 64 ^ k := Nat.pow_pos (by decide)
  constructor
  · rintro ⟨v, rest, hv, heq, h⟩
    rw [tails, List.cons_append, List.cons.injEq] at heq
    obtain ⟨rfl, rfl⟩ := heq
    have hc : (UInt8.ofNat (0x80 + v / 64 ^ k % 64)).toNat = 0x80 + v / 64 ^ k % 64 := by
      rw [UInt8.toNat_ofNat']
      omega
    refine ⟨by omega, v % 64 ^ k, rest, Nat.mod_lt _ hpos, ?_, h⟩
    have hv' := tails_mod k (v / 64 ^ k) (v % 64 ^ k)
    rw [Nat.div_add_mod'] at hv'
    rw [hv']
  · rintro ⟨hc, v, rest, hv, rfl, h⟩
    have hdiv : ((c.toNat - 0x80) * 64 ^ k + v) / 64 ^ k = c.toNat - 0x80 := by
      rw [Nat.mul_comm, Nat.mul_add_div hpos, Nat.div_eq_of_lt hv, Nat.add_zero]
    refine ⟨(c.toNat - 0x80) * 64 ^ k + v, rest, ?_, ?_, h⟩
    · have hle : (c.toNat - 0x80 + 1) * 64 ^ k ≤ 64 * 64 ^ k := Nat.mul_le_mul_right _ (by omega)
      rw [Nat.succ_mul] at hle
      rw [Nat.pow_succ, Nat.mul_comm _ 64]
      omega
    · have hbyte : c = .ofNat (0x80 + (c.toNat - 0x80) % 64) := eq_ofNat (by omega)
      rw [tails, tails_mod, hdiv, ← hbyte, List.cons_append]

theorem room_eq {n : ℕ} (h2 : 2 ≤ n) (h6 : n ≤ 6) : 2 ^ (5 * n + 1) = 64 ^ (n - 1) * 2 ^ (7 - n) := by
  interval_cases n <;> rfl

theorem leadOf_lead {n v : ℕ} (h : FormOk n v) : LeadOf n (lead n v).toNat := by
  rw [LeadOf, toNat_lead_form h]
  obtain ⟨hpos, hle, hroom⟩ := h
  by_cases h1 : n = 1
  · rw [if_pos h1] at hroom ⊢
    rwa [if_pos h1]
  · rw [if_neg h1, room_eq (by omega) hle] at hroom
    have hdiv := Nat.div_lt_of_lt_mul hroom
    rw [if_neg h1, if_neg h1]
    generalize v / 64 ^ (n - 1) = x at hdiv
    interval_cases n
    · exact absurd rfl h1
    all_goals omega

/-- A byte leads forms of one length only. -/
theorem LeadOf.eq {n x : ℕ} (h1 : 1 ≤ n) (h6 : n ≤ 6) (h : LeadOf n x) :
    x < 0x80 ∧ n = 1 ∨ (0xC0 ≤ x ∧ x < 0xE0) ∧ n = 2 ∨ (0xE0 ≤ x ∧ x < 0xF0) ∧ n = 3 ∨
      (0xF0 ≤ x ∧ x < 0xF8) ∧ n = 4 ∨ (0xF8 ≤ x ∧ x < 0xFC) ∧ n = 5 ∨ (0xFC ≤ x ∧ x < 0xFE) ∧ n = 6 := by
  interval_cases n
  · exact .inl ⟨h, rfl⟩
  · exact .inr (.inl ⟨h, rfl⟩)
  · exact .inr (.inr (.inl ⟨h, rfl⟩))
  · exact .inr (.inr (.inr (.inl ⟨h, rfl⟩)))
  · exact .inr (.inr (.inr (.inr (.inl ⟨h, rfl⟩))))
  · exact .inr (.inr (.inr (.inr (.inr ⟨h, rfl⟩))))

theorem LeadOf.unique {m n x : ℕ} (hm : 1 ≤ m) (hm' : m ≤ 6) (hn : 1 ≤ n) (hn' : n ≤ 6) (h : LeadOf m x)
    (h' : LeadOf n x) : m = n := by
  have hm'' := h.eq hm hm'
  have hn'' := h'.eq hn hn'
  omega

/-- A lead byte of `n` bytes begins a form of that many, with room for its bits. -/
theorem forms_lead_iff {n : ℕ} (h1 : 1 ≤ n) (h6 : n ≤ 6) {c : UInt8} (hc : LeadOf n c.toNat) {str : Bytes} :
    Forms (c :: str) ↔ Rest (n - 1) str := by
  have hpos : 0 < 64 ^ (n - 1) := Nat.pow_pos (by decide)
  rw [forms_cons_iff]
  constructor
  · rintro ⟨m, v, rest, hv, rfl, rfl, h⟩
    obtain rfl := (leadOf_lead hv).unique hv.pos hv.le h1 h6 hc
    have hv' := tails_mod (m - 1) (v / 64 ^ (m - 1)) (v % 64 ^ (m - 1))
    rw [Nat.div_add_mod'] at hv'
    exact ⟨v % 64 ^ (m - 1), rest, Nat.mod_lt _ hpos, by rw [hv'], h⟩
  · rintro ⟨w, rest, hw, rfl, h⟩
    rw [LeadOf] at hc
    by_cases hone : n = 1
    · subst hone
      exact ⟨1, c.toNat, rest, ⟨by decide, by decide, by simpa using hc⟩, (UInt8.ofNat_toNat).symm, rfl, h⟩
    · rw [if_neg hone] at hc
      have hdiv : (64 ^ (n - 1) * (c.toNat - (256 - 2 ^ (8 - n))) + w) / 64 ^ (n - 1) =
          c.toNat - (256 - 2 ^ (8 - n)) := by
        rw [Nat.mul_add_div hpos, Nat.div_eq_of_lt hw, Nat.add_zero]
      refine ⟨n, 64 ^ (n - 1) * (c.toNat - (256 - 2 ^ (8 - n))) + w, rest, ⟨h1, h6, ?_⟩, ?_, ?_, h⟩
      · have hbits : c.toNat - (256 - 2 ^ (8 - n)) + 1 ≤ 2 ^ (7 - n) := by
          clear hw hpos hdiv
          interval_cases n
          · exact absurd rfl hone
          all_goals omega
        have hle := Nat.mul_le_mul_left (64 ^ (n - 1)) hbits
        rw [if_neg hone, room_eq (by omega) h6]
        rw [Nat.mul_add, Nat.mul_one] at hle
        omega
      · rw [lead, if_neg hone, hdiv]
        exact eq_ofNat (by omega)
      · rw [Nat.mul_comm, tails_mod]

/-- The loop takes the rest of a form and then forms. -/
theorem isStrUtf8Loop_iff (k : ℕ) (b : Bool) {str : Bytes} (hp : Plain str) :
    isStrUtf8Loop k b str = true ↔ Rest k str := by
  induction str generalizing k b with
  | nil =>
    rw [isStrUtf8Loop_nil]
    constructor
    · rintro rfl
      exact rest_zero.mpr forms_nil
    · rintro ⟨v, rest, -, heq, -⟩
      cases k with
      | zero => rfl
      | succ k => cases heq
  | cons c str ih =>
    obtain ⟨⟨h0, hFE, hFF⟩, hstr⟩ := List.forall_mem_cons.mp hp
    cases k with
    | succ k =>
      rw [isStrUtf8Loop_tail k b h0, rest_succ]
      split_ifs with hc
      · rw [ih k b hstr]
        simp [hc]
      · simp [hc]
    | zero =>
      rw [rest_zero]
      by_cases hc : 0x80 ≤ c.toNat ∧ c.toNat < 0xC0
      · rw [isStrUtf8Loop_stray b h0 hc]
        refine iff_of_false (by simp) fun hf => ?_
        obtain ⟨n, v, rest, hv, rfl, -, -⟩ := forms_cons_iff.mp hf
        have hl := (leadOf_lead hv).eq hv.pos hv.le
        omega
      · obtain ⟨n, h1, h6, hl⟩ := exists_leadOf hFE hFF hc
        rw [isStrUtf8Loop_lead b h0 h1 h6 hl, ih (n - 1) b hstr, forms_lead_iff h1 h6 hl]

/-- The test takes the concatenations of forms, shortest or not; the encoder's outputs are the
shortest of them. -/
theorem lnIsStrUtf8_iff_forms {str : Bytes} (hp : Plain str) :
    (lnIsStrUtf8 str = true ↔
      ∃ fs : List (ℕ × ℕ), (∀ p ∈ fs, FormOk p.1 p.2) ∧ str = fs.flatMap fun p => utf8Form p.1 p.2) ∧
    (∀ u, u ≤ 0x7FFFFFFF → FormOk (shortest u) u ∧ encodeUnicodeToUtf8One u = utf8Form (shortest u) u) := by
  refine ⟨?_, fun u hu => ⟨formOk_shortest hu, encodeUnicodeToUtf8One_eq hu⟩⟩
  rw [lnIsStrUtf8, isStrUtf8Loop_iff 0 true hp]
  exact rest_zero

/-- An ASCII letter and U+6768. -/
theorem lnIsStrUtf8_iff_forms_two :
    (lnIsStrUtf8 [0x41, 0xE6, 0x9D, 0xA8] = true ↔
      ∃ fs : List (ℕ × ℕ), (∀ p ∈ fs, FormOk p.1 p.2) ∧
        [0x41, 0xE6, 0x9D, 0xA8] = fs.flatMap fun p => utf8Form p.1 p.2) ∧
    (∀ u, u ≤ 0x7FFFFFFF → FormOk (shortest u) u ∧ encodeUnicodeToUtf8One u = utf8Form (shortest u) u) :=
  lnIsStrUtf8_iff_forms (show ∀ c ∈ ([0x41, 0xE6, 0x9D, 0xA8] : Bytes), c ≠ 0 ∧ c ≠ 0xFE ∧ c ≠ 0xFF by decide +kernel)

/-- The two-byte form of zero is taken, and the encoder writes it for no code point. -/
theorem lnIsStrUtf8_overlong :
    ¬ ∀ str : Bytes, (∀ c ∈ str, c ≠ 0) →
      (lnIsStrUtf8 str = true ↔
        ∃ us : List ℕ, (∀ u ∈ us, u ≠ 0 ∧ u ≤ 0x7FFFFFFF) ∧ str = us.flatMap encodeUnicodeToUtf8One) := by
  intro h
  obtain ⟨us, hus, heq⟩ := (h [0xC0, 0x80] (by decide +kernel)).mp (by decide)
  cases us with
  | nil => cases heq
  | cons u us =>
    obtain ⟨-, hu⟩ := hus u List.mem_cons_self
    rw [List.flatMap_cons, encodeUnicodeToUtf8One_eq hu, utf8Form, List.cons_append, List.cons.injEq] at heq
    have hok := formOk_shortest hu
    have htwo : shortest u = 2 := by
      have hl := leadOf_lead hok
      rw [← heq.1] at hl
      exact hl.unique hok.pos hok.le (by decide) (by decide) (show LeadOf 2 0xC0 from ⟨by decide, by decide⟩)
    have hlead := toNat_lead_form hok
    rw [← heq.1, htwo] at hlead
    -- no bits are left for the lead byte, so the code point has seven
    have hsmall : u / 64 = 0 := by
      have h0 : (0xC0 : UInt8).toNat = 192 + u / 64 := hlead
      have h192 : (0xC0 : UInt8).toNat = 192 := rfl
      omega
    rw [shortest, if_pos (by omega)] at htwo
    exact absurd htwo (by decide)

end Ln882x.Unicode
