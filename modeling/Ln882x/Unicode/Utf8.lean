import Ln882x.Nor.Flash

/-! One character of UTF-8. The encoder writes a code point in one to six bytes, a lead
byte that tells how many and continuation bytes of six bits. The decoder takes the
number from the lead byte and puts the bits back together, byte by byte of the code
point. Four of its formulas are as they should be; a two-byte character with bit 5 set is
turned away, the top byte of a five-byte character is shifted out of place, and the
second byte of a six-byte character is built from the wrong two bytes. -/

namespace Ln882x.Unicode

open Nor (Bytes leBytes)

/-- The bytes written; their number is the value returned. -/
def encodeUnicodeToUtf8One (unic : ℕ) : Bytes :=
  if unic ≤ 0x7F then
    [.ofNat (unic &&& 0x7F)]
  else if unic ≥ 0x80 ∧ unic ≤ 0x7FF then
    [.ofNat ((unic >>> 6) &&& 0x1F ||| 0xC0), .ofNat (unic &&& 0x3F ||| 0x80)]
  else if unic ≥ 0x800 ∧ unic ≤ 0xFFFF then
    [.ofNat ((unic >>> 12) &&& 0x0F ||| 0xE0), .ofNat ((unic >>> 6) &&& 0x3F ||| 0x80),
      .ofNat (unic &&& 0x3F ||| 0x80)]
  else if unic ≥ 0x10000 ∧ unic ≤ 0x1FFFFF then
    [.ofNat ((unic >>> 18) &&& 0x07 ||| 0xF0), .ofNat ((unic >>> 12) &&& 0x3F ||| 0x80),
      .ofNat ((unic >>> 6) &&& 0x3F ||| 0x80), .ofNat (unic &&& 0x3F ||| 0x80)]
  else if unic ≥ 0x200000 ∧ unic ≤ 0x3FFFFFF then
    [.ofNat ((unic >>> 24) &&& 0x03 ||| 0xF8), .ofNat ((unic >>> 18) &&& 0x3F ||| 0x80),
      .ofNat ((unic >>> 12) &&& 0x3F ||| 0x80), .ofNat ((unic >>> 6) &&& 0x3F ||| 0x80),
      .ofNat (unic &&& 0x3F ||| 0x80)]
  else if unic ≥ 0x4000000 ∧ unic ≤ 0x7FFFFFFF then
    [.ofNat ((unic >>> 30) &&& 0x01 ||| 0xFC), .ofNat ((unic >>> 24) &&& 0x3F ||| 0x80),
      .ofNat ((unic >>> 18) &&& 0x3F ||| 0x80), .ofNat ((unic >>> 12) &&& 0x3F ||| 0x80),
      .ofNat ((unic >>> 6) &&& 0x3F ||| 0x80), .ofNat (unic &&& 0x3F ||| 0x80)]
  else []

def encGetUtf8Size (c : UInt8) : ℤ :=
  if c < 0x80 then 0
  else if c ≥ 0x80 ∧ c < 0xC0 then -1
  else if c ≥ 0xC0 ∧ c < 0xE0 then 2
  else if c ≥ 0xE0 ∧ c < 0xF0 then 3
  else if c ≥ 0xF0 ∧ c < 0xF8 then 4
  else if c ≥ 0xF8 ∧ c < 0xFC then 5
  else 6

/-- `(b & 0xC0) == 0x80` -/
def isTail (b : UInt8) : Bool := (b &&& 0xC0) == 0x80

/-- The value returned and the output buffer. The bytes are `char`s whose sign bits the masks and
the stores cut off, so they are unsigned here. -/
def encUtf8ToUnicodeOne (pInput unic : Bytes) : ℤ × Bytes :=
  let unic := unic.set 0 0
  let utfbytes := encGetUtf8Size (pInput.getD 0 0)
  let b1 := pInput.getD 0 0
  let b2 := pInput.getD 1 0
  let b3 := pInput.getD 2 0
  let b4 := pInput.getD 3 0
  let b5 := pInput.getD 4 0
  let b6 := pInput.getD 5 0
  if utfbytes = 0 then
    (utfbytes + 1, unic.set 0 b1)
  else if utfbytes = 2 then
    if (b2 &&& 0xE0) ≠ 0x80 then (0, unic)
    else (utfbytes, (unic.set 0 ((b1 <<< 6) + (b2 &&& 0x3F))).set 1 ((b1 >>> 2) &&& 0x07))
  else if utfbytes = 3 then
    if !isTail b2 || !isTail b3 then (0, unic)
    else (utfbytes, (unic.set 0 ((b2 <<< 6) + (b3 &&& 0x3F))).set 1 ((b1 <<< 4) + ((b2 >>> 2) &&& 0x0F)))
  else if utfbytes = 4 then
    if !isTail b2 || !isTail b3 || !isTail b4 then (0, unic)
    else (utfbytes, ((unic.set 0 ((b3 <<< 6) + (b4 &&& 0x3F))).set 1
      ((b2 <<< 4) + ((b3 >>> 2) &&& 0x0F))).set 2 (((b1 <<< 2) &&& (0x1C : UInt8)) + ((b2 >>> 4) &&& (0x03 : UInt8))))
  else if utfbytes = 5 then
    if !isTail b2 || !isTail b3 || !isTail b4 || !isTail b5 then (0, unic)
    else (utfbytes, (((unic.set 0 ((b4 <<< 6) + (b5 &&& 0x3F))).set 1
      ((b3 <<< 4) + ((b4 >>> 2) &&& 0x0F))).set 2 ((b2 <<< 2) + ((b3 >>> 4) &&& 0x03))).set 3 (b1 <<< 6))
  else if utfbytes = 6 then
    if !isTail b2 || !isTail b3 || !isTail b4 || !isTail b5 || !isTail b6 then (0, unic)
    else (utfbytes, (((unic.set 0 ((b5 <<< 6) + (b6 &&& 0x3F))).set 1
      ((b5 <<< 4) + ((b6 >>> 2) &&& 0x0F))).set 2 ((b3 <<< 2) + ((b4 >>> 4) &&& 0x03))).set 3
        (((b1 <<< 6) &&& (0x40 : UInt8)) + (b2 &&& 0x3F)))
  else (utfbytes, unic)

/-! ### Bits -/

/-- The low bits of a value below the bits of a mark. -/
theorem toNat_marked {k m : ℕ} (x : ℕ) (hm : 2 ^ k ∣ m) (hlt : m + 2 ^ k ≤ 256) :
    (UInt8.ofNat ((x &&& (2 ^ k - 1)) ||| m)).toNat = m + x % 2 ^ k := by
  have hx := Nat.mod_lt x (Nat.two_pow_pos k)
  obtain ⟨q, rfl⟩ := hm
  rw [UInt8.toNat_ofNat', Nat.and_two_pow_sub_one_eq_mod, Nat.or_comm, ← Nat.two_pow_add_eq_or_of_lt hx]
  exact Nat.mod_eq_of_lt (by omega)

theorem toNat_tail (x : ℕ) : (UInt8.ofNat ((x &&& 0x3F) ||| 0x80)).toNat = 0x80 + x % 64 :=
  toNat_marked (k := 6) x (by decide) (by decide)

theorem toNat_lead {k m : ℕ} (u j : ℕ) (hm : 2 ^ k ∣ m) (hlt : m + 2 ^ k ≤ 256) :
    (UInt8.ofNat (((u >>> j) &&& (2 ^ k - 1)) ||| m)).toNat = m + u / 2 ^ j % 2 ^ k := by
  rw [toNat_marked _ hm hlt, Nat.shiftRight_eq_div_pow]

theorem toNat_tail_shr (u j : ℕ) :
    (UInt8.ofNat (((u >>> j) &&& 0x3F) ||| 0x80)).toNat = 0x80 + u / 2 ^ j % 64 :=
  toNat_lead (k := 6) u j (by decide) (by decide)

theorem toNat_and_mask (b : UInt8) {m : UInt8} (k : ℕ) (hm : m.toNat = 2 ^ k - 1) :
    (b &&& m).toNat = b.toNat % 2 ^ k := by
  rw [UInt8.toNat_and, hm, Nat.and_two_pow_sub_one_eq_mod]

theorem toNat_shl (b k : UInt8) (hk : k.toNat < 8) : (b <<< k).toNat = b.toNat * 2 ^ k.toNat % 256 := by
  rw [UInt8.toNat_shiftLeft, Nat.mod_eq_of_lt hk, Nat.shiftLeft_eq]

theorem toNat_shr (b k : UInt8) (hk : k.toNat < 8) : (b >>> k).toNat = b.toNat / 2 ^ k.toNat := by
  rw [UInt8.toNat_shiftRight, Nat.mod_eq_of_lt hk, Nat.shiftRight_eq_div_pow]

theorem isTail_iff (b : UInt8) : isTail b = true ↔ 0x80 ≤ b.toNat ∧ b.toNat < 0xC0 := by
  have hall : ∀ n < 256, n &&& 0xC0 = 0x80 ↔ 0x80 ≤ n ∧ n < 0xC0 := by decide +kernel
  rw [isTail, beq_iff_eq, ← UInt8.toNat_inj, UInt8.toNat_and]
  exact hall b.toNat b.toNat_lt

theorem shortTail_iff (b : UInt8) : (b &&& 0xE0) = 0x80 ↔ 0x80 ≤ b.toNat ∧ b.toNat < 0xA0 := by
  have hall : ∀ n < 256, n &&& 0xE0 = 0x80 ↔ 0x80 ≤ n ∧ n < 0xA0 := by decide +kernel
  rw [← UInt8.toNat_inj, UInt8.toNat_and]
  exact hall b.toNat b.toNat_lt

/-- The shapes of an output byte: bits of one input byte above bits of the next. -/
theorem toNat_join6 (b c : UInt8) : ((b <<< 6) + (c &&& 0x3F)).toNat = b.toNat % 4 * 64 + c.toNat % 64 := by
  rw [UInt8.toNat_add, toNat_shl b 6 (by decide), toNat_and_mask c 6 rfl]
  show (b.toNat * 64 % 256 + c.toNat % 64) % 256 = _
  omega

theorem toNat_join4 (b c : UInt8) :
    ((b <<< 4) + ((c >>> 2) &&& 0x0F)).toNat = b.toNat % 16 * 16 + c.toNat / 4 % 16 := by
  rw [UInt8.toNat_add, toNat_shl b 4 (by decide), toNat_and_mask _ 4 rfl, toNat_shr c 2 (by decide)]
  show (b.toNat * 16 % 256 + c.toNat / 4 % 16) % 256 = _
  omega

theorem toNat_join2 (b c : UInt8) :
    ((b <<< 2) + ((c >>> 4) &&& 0x03)).toNat = b.toNat % 64 * 4 + c.toNat / 16 % 4 := by
  rw [UInt8.toNat_add, toNat_shl b 2 (by decide), toNat_and_mask _ 2 rfl, toNat_shr c 4 (by decide)]
  show (b.toNat * 4 % 256 + c.toNat / 16 % 4) % 256 = _
  omega

theorem toNat_join3 (b c : UInt8) :
    (((b <<< 2) &&& (0x1C : UInt8)) + ((c >>> 4) &&& (0x03 : UInt8))).toNat =
      b.toNat % 8 * 4 + c.toNat / 16 % 4 := by
  have hall : ∀ n < 256, n * 4 % 256 &&& 0x1C = n % 8 * 4 := by decide +kernel
  have hlow : ((b <<< 2) &&& (0x1C : UInt8)).toNat = b.toNat % 8 * 4 := by
    rw [UInt8.toNat_and, toNat_shl b 2 (by decide)]
    exact hall b.toNat b.toNat_lt
  rw [UInt8.toNat_add, hlow, toNat_and_mask _ 2 rfl, toNat_shr c 4 (by decide)]
  show (b.toNat % 8 * 4 + c.toNat / 16 % 4) % 256 = _
  omega

theorem toNat_join1 (b c : UInt8) :
    (((b <<< 6) &&& (0x40 : UInt8)) + (c &&& 0x3F)).toNat = b.toNat % 2 * 64 + c.toNat % 64 := by
  have hall : ∀ n < 256, n * 64 % 256 &&& 0x40 = n % 2 * 64 := by decide +kernel
  have hbit : ((b <<< 6) &&& (0x40 : UInt8)).toNat = b.toNat % 2 * 64 := by
    rw [UInt8.toNat_and, toNat_shl b 6 (by decide)]
    exact hall b.toNat b.toNat_lt
  rw [UInt8.toNat_add, hbit, toNat_and_mask c 6 rfl]
  show (b.toNat % 2 * 64 + c.toNat % 64) % 256 = _
  omega

/-! ### One class of characters at a time -/

theorem encGetUtf8Size_eq (c : UInt8) :
    encGetUtf8Size c = if c.toNat < 0x80 then 0 else if c.toNat < 0xC0 then -1
      else if c.toNat < 0xE0 then 2 else if c.toNat < 0xF0 then 3
      else if c.toNat < 0xF8 then 4 else if c.toNat < 0xFC then 5 else 6 := by
  have hlt : ∀ m : UInt8, c < m ↔ c.toNat < m.toNat := fun m => UInt8.lt_iff_toNat_lt
  have hge : ∀ m : UInt8, c ≥ m ↔ m.toNat ≤ c.toNat := fun m => UInt8.le_iff_toNat_le
  simp only [encGetUtf8Size, hlt, hge]
  show (if c.toNat < 0x80 then (0 : ℤ) else if 0x80 ≤ c.toNat ∧ c.toNat < 0xC0 then -1
    else if 0xC0 ≤ c.toNat ∧ c.toNat < 0xE0 then 2 else if 0xE0 ≤ c.toNat ∧ c.toNat < 0xF0 then 3
    else if 0xF0 ≤ c.toNat ∧ c.toNat < 0xF8 then 4 else if 0xF8 ≤ c.toNat ∧ c.toNat < 0xFC then 5 else 6) = _
  split_ifs <;> omega

theorem eq_leBytes_iff (o₀ o₁ o₂ o₃ : UInt8) (u : ℕ) :
    [o₀, o₁, o₂, o₃] = leBytes 4 u ↔
      o₀.toNat = u % 256 ∧ o₁.toNat = u / 2 ^ 8 % 256 ∧ o₂.toNat = u / 2 ^ 16 % 256 ∧
        o₃.toNat = u / 2 ^ 24 % 256 := by
  have hbyte : ∀ (o : UInt8) (v : ℕ), o = UInt8.ofNat v ↔ o.toNat = v % 256 := by
    intro o v
    rw [← UInt8.toNat_inj, UInt8.toNat_ofNat']
  have hle : leBytes 4 u = [UInt8.ofNat u, UInt8.ofNat (u / 256), UInt8.ofNat (u / 256 / 256),
    UInt8.ofNat (u / 256 / 256 / 256)] := rfl
  rw [hle]
  simp only [List.cons.injEq, and_true, hbyte, Nat.div_div_eq_div_mul]
  rfl

/-- The decoder gives back the code point and the number of its bytes. -/
def RoundTrips (u : ℕ) (rest : Bytes) : Prop :=
  encUtf8ToUnicodeOne (encodeUnicodeToUtf8One u ++ rest) [0, 0, 0, 0] =
    (((encodeUnicodeToUtf8One u).length : ℤ), leBytes 4 u)

variable {u : ℕ} (rest : Bytes)

theorem toNat_zero : (0 : UInt8).toNat = 0 := rfl

theorem roundTrips_one (h : u ≤ 0x7F) : RoundTrips u rest := by
  have henc : encodeUnicodeToUtf8One u = [.ofNat (u &&& 0x7F)] := if_pos h
  have h1 : (UInt8.ofNat (u &&& 0x7F)).toNat = u := by
    rw [UInt8.toNat_ofNat', Nat.and_two_pow_sub_one_eq_mod u 7]
    omega
  rw [RoundTrips, henc]
  generalize UInt8.ofNat (u &&& 0x7F) = b1 at *
  have hsize : encGetUtf8Size b1 = 0 := by
    rw [encGetUtf8Size_eq, if_pos (by omega)]
  have hdec : encUtf8ToUnicodeOne ([b1] ++ rest) [0, 0, 0, 0] = (1, [b1, 0, 0, 0]) := by
    simp [encUtf8ToUnicodeOne, hsize]
  rw [hdec]
  refine Prod.ext rfl ((eq_leBytes_iff b1 0 0 0 u).mpr ?_)
  rw [toNat_zero, h1]
  omega

theorem roundTrips_two (h : 0x80 ≤ u) (h' : u ≤ 0x7FF) : RoundTrips u rest ↔ u / 32 % 2 = 0 := by
  have henc : encodeUnicodeToUtf8One u =
      [.ofNat ((u >>> 6) &&& 0x1F ||| 0xC0), .ofNat (u &&& 0x3F ||| 0x80)] := by
    rw [encodeUnicodeToUtf8One, if_neg (by omega), if_pos ⟨h, h'⟩]
  have h1 : (UInt8.ofNat ((u >>> 6) &&& 0x1F ||| 0xC0)).toNat = 0xC0 + u / 2 ^ 6 % 32 :=
    toNat_lead (k := 5) u 6 (by decide) (by decide)
  have h2 := toNat_tail u
  rw [RoundTrips, henc]
  generalize UInt8.ofNat ((u >>> 6) &&& 0x1F ||| 0xC0) = b1 at *
  generalize UInt8.ofNat (u &&& 0x3F ||| 0x80) = b2 at *
  have hsize : encGetUtf8Size b1 = 2 := by
    rw [encGetUtf8Size_eq, if_neg (by omega), if_neg (by omega), if_pos (by omega)]
  by_cases hshort : (b2 &&& 0xE0) = 0x80
  · have hdec : encUtf8ToUnicodeOne ([b1, b2] ++ rest) [0, 0, 0, 0] =
        ((2 : ℤ), [(b1 <<< 6) + (b2 &&& 0x3F), (b1 >>> 2) &&& 0x07, 0, 0]) := by
      simp [encUtf8ToUnicodeOne, hsize, hshort]
    have hhigh : ((b1 >>> 2) &&& 0x07).toNat = b1.toNat / 4 % 8 := by
      rw [toNat_and_mask _ 3 rfl, toNat_shr b1 2 (by decide)]
      rfl
    have hb2 := (shortTail_iff b2).mp hshort
    rw [hdec, Prod.ext_iff, eq_leBytes_iff, toNat_zero, toNat_join6, hhigh, h1, h2]
    refine ⟨fun _ => by omega, fun _ => ⟨rfl, ?_⟩⟩
    omega
  · have hdec : encUtf8ToUnicodeOne ([b1, b2] ++ rest) [0, 0, 0, 0] = (0, [0, 0, 0, 0]) := by
      simp [encUtf8ToUnicodeOne, hsize, hshort]
    rw [shortTail_iff] at hshort
    rw [hdec, Prod.ext_iff]
    exact ⟨fun hr => absurd hr.1 (show ¬ (0 : ℤ) = 2 by decide), fun _ => by omega⟩

theorem roundTrips_three (h : 0x800 ≤ u) (h' : u ≤ 0xFFFF) : RoundTrips u rest := by
  have henc : encodeUnicodeToUtf8One u =
      [.ofNat ((u >>> 12) &&& 0x0F ||| 0xE0), .ofNat ((u >>> 6) &&& 0x3F ||| 0x80),
        .ofNat (u &&& 0x3F ||| 0x80)] := by
    rw [encodeUnicodeToUtf8One, if_neg (by omega), if_neg (by omega), if_pos ⟨h, h'⟩]
  have h1 : (UInt8.ofNat ((u >>> 12) &&& 0x0F ||| 0xE0)).toNat = 0xE0 + u / 2 ^ 12 % 16 :=
    toNat_lead (k := 4) u 12 (by decide) (by decide)
  have h2 := toNat_tail_shr u 6
  have h3 := toNat_tail u
  rw [RoundTrips, henc]
  generalize UInt8.ofNat ((u >>> 12) &&& 0x0F ||| 0xE0) = b1 at *
  generalize UInt8.ofNat ((u >>> 6) &&& 0x3F ||| 0x80) = b2 at *
  generalize UInt8.ofNat (u &&& 0x3F ||| 0x80) = b3 at *
  have hsize : encGetUtf8Size b1 = 3 := by
    rw [encGetUtf8Size_eq, if_neg (by omega), if_neg (by omega), if_neg (by omega), if_pos (by omega)]
  have ht2 : isTail b2 = true := (isTail_iff b2).mpr (by omega)
  have ht3 : isTail b3 = true := (isTail_iff b3).mpr (by omega)
  have hdec : encUtf8ToUnicodeOne ([b1, b2, b3] ++ rest) [0, 0, 0, 0] =
      ((3 : ℤ), [(b2 <<< 6) + (b3 &&& 0x3F), (b1 <<< 4) + ((b2 >>> 2) &&& 0x0F), 0, 0]) := by
    simp [encUtf8ToUnicodeOne, hsize, ht2, ht3]
  rw [hdec]
  refine Prod.ext rfl ((eq_leBytes_iff _ _ _ _ u).mpr ?_)
  rw [toNat_zero, toNat_join6, toNat_join4, h1, h2, h3]
  omega

theorem roundTrips_four (h : 0x10000 ≤ u) (h' : u ≤ 0x1FFFFF) : RoundTrips u rest := by
  have henc : encodeUnicodeToUtf8One u =
      [.ofNat ((u >>> 18) &&& 0x07 ||| 0xF0), .ofNat ((u >>> 12) &&& 0x3F ||| 0x80),
        .ofNat ((u >>> 6) &&& 0x3F ||| 0x80), .ofNat (u &&& 0x3F ||| 0x80)] := by
    rw [encodeUnicodeToUtf8One, if_neg (by omega), if_neg (by omega), if_neg (by omega), if_pos ⟨h, h'⟩]
  have h1 : (UInt8.ofNat ((u >>> 18) &&& 0x07 ||| 0xF0)).toNat = 0xF0 + u / 2 ^ 18 % 8 :=
    toNat_lead (k := 3) u 18 (by decide) (by decide)
  have h2 := toNat_tail_shr u 12
  have h3 := toNat_tail_shr u 6
  have h4 := toNat_tail u
  rw [RoundTrips, henc]
  generalize UInt8.ofNat ((u >>> 18) &&& 0x07 ||| 0xF0) = b1 at *
  generalize UInt8.ofNat ((u >>> 12) &&& 0x3F ||| 0x80) = b2 at *
  generalize UInt8.ofNat ((u >>> 6) &&& 0x3F ||| 0x80) = b3 at *
  generalize UInt8.ofNat (u &&& 0x3F ||| 0x80) = b4 at *
  have hsize : encGetUtf8Size b1 = 4 := by
    rw [encGetUtf8Size_eq, if_neg (by omega), if_neg (by omega), if_neg (by omega), if_neg (by omega),
      if_pos (by omega)]
  have ht2 : isTail b2 = true := (isTail_iff b2).mpr (by omega)
  have ht3 : isTail b3 = true := (isTail_iff b3).mpr (by omega)
  have ht4 : isTail b4 = true := (isTail_iff b4).mpr (by omega)
  have hdec : encUtf8ToUnicodeOne ([b1, b2, b3, b4] ++ rest) [0, 0, 0, 0] =
      ((4 : ℤ), [(b3 <<< 6) + (b4 &&& 0x3F), (b2 <<< 4) + ((b3 >>> 2) &&& 0x0F),
        ((b1 <<< 2) &&& (0x1C : UInt8)) + ((b2 >>> 4) &&& (0x03 : UInt8)), 0]) := by
    simp [encUtf8ToUnicodeOne, hsize, ht2, ht3, ht4]
  rw [hdec]
  refine Prod.ext rfl ((eq_leBytes_iff _ _ _ _ u).mpr ?_)
  rw [toNat_zero, toNat_join6, toNat_join4, toNat_join3, h1, h2, h3, h4]
  omega

theorem roundTrips_five (h : 0x200000 ≤ u) (h' : u ≤ 0x3FFFFFF) : RoundTrips u rest ↔ u < 2 ^ 24 := by
  have henc : encodeUnicodeToUtf8One u =
      [.ofNat ((u >>> 24) &&& 0x03 ||| 0xF8), .ofNat ((u >>> 18) &&& 0x3F ||| 0x80),
        .ofNat ((u >>> 12) &&& 0x3F ||| 0x80), .ofNat ((u >>> 6) &&& 0x3F ||| 0x80),
        .ofNat (u &&& 0x3F ||| 0x80)] := by
    rw [encodeUnicodeToUtf8One, if_neg (by omega), if_neg (by omega), if_neg (by omega), if_neg (by omega),
      if_pos ⟨h, h'⟩]
  have h1 : (UInt8.ofNat ((u >>> 24) &&& 0x03 ||| 0xF8)).toNat = 0xF8 + u / 2 ^ 24 % 4 :=
    toNat_lead (k := 2) u 24 (by decide) (by decide)
  have h2 := toNat_tail_shr u 18
  have h3 := toNat_tail_shr u 12
  have h4 := toNat_tail_shr u 6
  have h5 := toNat_tail u
  rw [RoundTrips, henc]
  generalize UInt8.ofNat ((u >>> 24) &&& 0x03 ||| 0xF8) = b1 at *
  generalize UInt8.ofNat ((u >>> 18) &&& 0x3F ||| 0x80) = b2 at *
  generalize UInt8.ofNat ((u >>> 12) &&& 0x3F ||| 0x80) = b3 at *
  generalize UInt8.ofNat ((u >>> 6) &&& 0x3F ||| 0x80) = b4 at *
  generalize UInt8.ofNat (u &&& 0x3F ||| 0x80) = b5 at *
  have hsize : encGetUtf8Size b1 = 5 := by
    rw [encGetUtf8Size_eq, if_neg (by omega), if_neg (by omega), if_neg (by omega), if_neg (by omega),
      if_neg (by omega), if_pos (by omega)]
  have ht2 : isTail b2 = true := (isTail_iff b2).mpr (by omega)
  have ht3 : isTail b3 = true := (isTail_iff b3).mpr (by omega)
  have ht4 : isTail b4 = true := (isTail_iff b4).mpr (by omega)
  have ht5 : isTail b5 = true := (isTail_iff b5).mpr (by omega)
  have hdec : encUtf8ToUnicodeOne ([b1, b2, b3, b4, b5] ++ rest) [0, 0, 0, 0] =
      ((5 : ℤ), [(b4 <<< 6) + (b5 &&& 0x3F), (b3 <<< 4) + ((b4 >>> 2) &&& 0x0F),
        (b2 <<< 2) + ((b3 >>> 4) &&& 0x03), b1 <<< 6]) := by
    simp [encUtf8ToUnicodeOne, hsize, ht2, ht3, ht4, ht5]
  have htop : (b1 <<< 6).toNat = b1.toNat * 64 % 256 := toNat_shl b1 6 (by decide)
  rw [hdec, Prod.ext_iff, eq_leBytes_iff, toNat_join6, toNat_join4, toNat_join2, htop, h1, h2, h3, h4, h5]
  constructor
  · rintro ⟨-, -, -, -, h24⟩
    omega
  · intro h24
    exact ⟨rfl, by omega⟩

theorem third_byte (u : ℕ) :
    (0x80 + u / 2 ^ 18 % 64) % 64 * 4 + (0x80 + u / 2 ^ 12 % 64) / 16 % 4 = u / 2 ^ 16 % 256 := by
  have hhigh : (0x80 + u / 2 ^ 18 % 64) % 64 = u / 2 ^ 18 % 64 := by omega
  have hlow : (0x80 + u / 2 ^ 12 % 64) / 16 % 4 = u / 2 ^ 16 % 4 := by omega
  rw [hhigh, hlow]
  omega

theorem roundTrips_six (h : 0x4000000 ≤ u) (h' : u ≤ 0x7FFFFFFF) :
    RoundTrips u rest ↔ u / 2 ^ 12 % 16 = u / 2 ^ 6 % 16 ∧ u / 2 ^ 8 % 16 = u / 2 ^ 2 % 16 := by
  have henc : encodeUnicodeToUtf8One u =
      [.ofNat ((u >>> 30) &&& 0x01 ||| 0xFC), .ofNat ((u >>> 24) &&& 0x3F ||| 0x80),
        .ofNat ((u >>> 18) &&& 0x3F ||| 0x80), .ofNat ((u >>> 12) &&& 0x3F ||| 0x80),
        .ofNat ((u >>> 6) &&& 0x3F ||| 0x80), .ofNat (u &&& 0x3F ||| 0x80)] := by
    rw [encodeUnicodeToUtf8One, if_neg (by omega), if_neg (by omega), if_neg (by omega), if_neg (by omega),
      if_neg (by omega), if_pos ⟨h, h'⟩]
  have h1 : (UInt8.ofNat ((u >>> 30) &&& 0x01 ||| 0xFC)).toNat = 0xFC + u / 2 ^ 30 % 2 :=
    toNat_lead (k := 1) u 30 (by decide) (by decide)
  have h2 := toNat_tail_shr u 24
  have h3 := toNat_tail_shr u 18
  have h4 := toNat_tail_shr u 12
  have h5 := toNat_tail_shr u 6
  have h6 := toNat_tail u
  rw [RoundTrips, henc]
  generalize UInt8.ofNat ((u >>> 30) &&& 0x01 ||| 0xFC) = b1 at *
  generalize UInt8.ofNat ((u >>> 24) &&& 0x3F ||| 0x80) = b2 at *
  generalize UInt8.ofNat ((u >>> 18) &&& 0x3F ||| 0x80) = b3 at *
  generalize UInt8.ofNat ((u >>> 12) &&& 0x3F ||| 0x80) = b4 at *
  generalize UInt8.ofNat ((u >>> 6) &&& 0x3F ||| 0x80) = b5 at *
  generalize UInt8.ofNat (u &&& 0x3F ||| 0x80) = b6 at *
  have hsize : encGetUtf8Size b1 = 6 := by
    rw [encGetUtf8Size_eq, if_neg (by omega), if_neg (by omega), if_neg (by omega), if_neg (by omega),
      if_neg (by omega), if_neg (by omega)]
  have ht2 : isTail b2 = true := (isTail_iff b2).mpr (by omega)
  have ht3 : isTail b3 = true := (isTail_iff b3).mpr (by omega)
  have ht4 : isTail b4 = true := (isTail_iff b4).mpr (by omega)
  have ht5 : isTail b5 = true := (isTail_iff b5).mpr (by omega)
  have ht6 : isTail b6 = true := (isTail_iff b6).mpr (by omega)
  have hdec : encUtf8ToUnicodeOne ([b1, b2, b3, b4, b5, b6] ++ rest) [0, 0, 0, 0] =
      ((6 : ℤ), [(b5 <<< 6) + (b6 &&& 0x3F), (b5 <<< 4) + ((b6 >>> 2) &&& 0x0F),
        (b3 <<< 2) + ((b4 >>> 4) &&& 0x03), ((b1 <<< 6) &&& (0x40 : UInt8)) + (b2 &&& 0x3F)]) := by
    simp [encUtf8ToUnicodeOne, hsize, ht2, ht3, ht4, ht5, ht6]
  rw [hdec, Prod.ext_iff, eq_leBytes_iff, toNat_join6, toNat_join4, toNat_join2, toNat_join1, h1, h2, h3, h4,
    h5, h6]
  -- the second byte takes its halves from bits 6 to 9 and 2 to 5
  have hhigh : (0x80 + u / 2 ^ 6 % 64) % 16 = u / 2 ^ 6 % 16 := by omega
  have hlow : (0x80 + u % 64) / 4 % 16 = u / 2 ^ 2 % 16 := by omega
  have hbyte : u / 2 ^ 8 % 256 = u / 2 ^ 12 % 16 * 16 + u / 2 ^ 8 % 16 := by omega
  rw [hhigh, hlow, hbyte]
  constructor
  · rintro ⟨-, -, hmid, -, -⟩
    omega
  · rintro ⟨h12, h8⟩
    refine ⟨rfl, ?_, by rw [h12, h8], third_byte u, ?_⟩
    · clear hhigh hlow hbyte h12 h8
      omega
    · clear hhigh hlow hbyte h12 h8
      omega

/-- The round trip of a character, decided by its code point. -/
theorem roundTrips_iff (hu : u ≤ 0x7FFFFFFF) (rest : Bytes) :
    encUtf8ToUnicodeOne (encodeUnicodeToUtf8One u ++ rest) [0, 0, 0, 0] =
        (((encodeUnicodeToUtf8One u).length : ℤ), leBytes 4 u) ↔
      u < 0x80 ∨ (u < 0x800 ∧ u / 2 ^ 5 % 2 = 0) ∨ (0x800 ≤ u ∧ u < 0x1000000) ∨
        (0x4000000 ≤ u ∧ u / 2 ^ 12 % 16 = u / 2 ^ 6 % 16 ∧ u / 2 ^ 8 % 16 = u / 2 ^ 2 % 16) := by
  show RoundTrips u rest ↔ _
  by_cases h1 : u ≤ 0x7F
  · exact iff_of_true (roundTrips_one rest h1) (.inl (by omega))
  by_cases h2 : u ≤ 0x7FF
  · rw [roundTrips_two rest (by omega) h2]
    omega
  by_cases h3 : u ≤ 0xFFFF
  · exact iff_of_true (roundTrips_three rest (by omega) h3) (.inr (.inr (.inl (by omega))))
  by_cases h4 : u ≤ 0x1FFFFF
  · exact iff_of_true (roundTrips_four rest (by omega) h4) (.inr (.inr (.inl (by omega))))
  by_cases h5 : u ≤ 0x3FFFFFF
  · rw [roundTrips_five rest (by omega) h5]
    omega
  · rw [roundTrips_six rest (by omega) hu]
    omega

/-- A character of each kind: U+6768 comes back, U+00A0 does not. -/
theorem roundTrips_iff_of_two :
    (encUtf8ToUnicodeOne (encodeUnicodeToUtf8One 0x6768 ++ []) [0, 0, 0, 0] =
        (((encodeUnicodeToUtf8One 0x6768).length : ℤ), leBytes 4 0x6768) ↔
      0x6768 < 0x80 ∨ (0x6768 < 0x800 ∧ 0x6768 / 2 ^ 5 % 2 = 0) ∨ (0x800 ≤ 0x6768 ∧ 0x6768 < 0x1000000) ∨
        (0x4000000 ≤ 0x6768 ∧ 0x6768 / 2 ^ 12 % 16 = 0x6768 / 2 ^ 6 % 16 ∧
          0x6768 / 2 ^ 8 % 16 = 0x6768 / 2 ^ 2 % 16)) ∧
    (encUtf8ToUnicodeOne (encodeUnicodeToUtf8One 0xA0 ++ []) [0, 0, 0, 0] =
        (((encodeUnicodeToUtf8One 0xA0).length : ℤ), leBytes 4 0xA0) ↔
      0xA0 < 0x80 ∨ (0xA0 < 0x800 ∧ 0xA0 / 2 ^ 5 % 2 = 0) ∨ (0x800 ≤ 0xA0 ∧ 0xA0 < 0x1000000) ∨
        (0x4000000 ≤ 0xA0 ∧ 0xA0 / 2 ^ 12 % 16 = 0xA0 / 2 ^ 6 % 16 ∧ 0xA0 / 2 ^ 8 % 16 = 0xA0 / 2 ^ 2 % 16)) :=
  ⟨roundTrips_iff (by decide) [], roundTrips_iff (by decide) []⟩

/-- The decoder turns away the two bytes of U+00A0. -/
theorem roundTrips_not_A0 :
    ¬ ∀ u, u ≤ 0x7FFFFFFF → encUtf8ToUnicodeOne (encodeUnicodeToUtf8One u) [0, 0, 0, 0] =
      (((encodeUnicodeToUtf8One u).length : ℤ), leBytes 4 u) := by
  intro h
  exact absurd (h 0xA0 (by decide)) (by decide)

end Ln882x.Unicode
