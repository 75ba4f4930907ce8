import Mathlib.Data.List.Basic
import Mathlib.Data.Nat.Digits.Defs
import Mathlib.Tactic.IntervalCases

/-! A NOR flash as a total byte memory. Programming can only clear bits: a
program call ANDs its data onto the bytes it covers. An erase sets a range to
`0xFF`. Reads are lists of bytes, so that a region can be compared with the
image of a record by list equality, and the effect of a call on a region is a
statement about one append decomposition of its bytes. -/

namespace Ln882x.Nor

abbrev Bytes := List UInt8

/-- The content of the device, indexed by byte address. -/
abbrev Flash := ℕ → UInt8

def readBytes (f : Flash) (addr len : ℕ) : Bytes := (List.range' addr len).map f

/-- The two driver calls that change the content. -/
inductive Op where
  | program (addr : ℕ) (data : Bytes)
  | erase (addr len : ℕ)
  deriving DecidableEq

def Op.apply : Op → Flash → Flash
  | .program addr data, f => fun x =>
    if addr ≤ x ∧ x < addr + data.length then f x &&& data.getD (x - addr) 0xFF else f x
  | .erase addr len, f => fun x => if addr ≤ x ∧ x < addr + len then 0xFF else f x

/-- The range of addresses a call may change. -/
def Op.addr : Op → ℕ
  | .program addr _ => addr
  | .erase addr _ => addr

def Op.len : Op → ℕ
  | .program _ data => data.length
  | .erase _ len => len

/-- A run of `n` erased bytes. -/
def blank (n : ℕ) : Bytes := List.replicate n 0xFF

def Erased (f : Flash) (addr len : ℕ) : Prop := ∀ x, addr ≤ x → x < addr + len → f x = 0xFF

/-! ### Bytes -/

@[simp] theorem ff_and (b : UInt8) : (0xFF : UInt8) &&& b = b := by
  apply UInt8.toBitVec_inj.mp
  rw [UInt8.toBitVec_and]
  exact BitVec.allOnes_and

@[simp] theorem and_idem (b : UInt8) : b &&& b = b := by
  apply UInt8.toBitVec_inj.mp
  rw [UInt8.toBitVec_and]
  exact BitVec.and_self

@[simp] theorem length_blank (n : ℕ) : (blank n).length = n := List.length_replicate

theorem blank_add (m n : ℕ) : blank (m + n) = blank m ++ blank n := List.replicate_add m n 0xFF

@[simp] theorem blank_zero : blank 0 = [] := rfl

theorem zipWith_and_blank (data : Bytes) :
    List.zipWith (· &&& ·) (blank data.length) data = data := by
  induction data with
  | nil => rfl
  | cons b data ih => simpa [blank, List.replicate_succ] using ih

theorem zipWith_and_self (data : Bytes) : List.zipWith (· &&& ·) data data = data := by
  induction data with
  | nil => rfl
  | cons b data ih => simp

/-! ### Reading -/

@[simp] theorem length_readBytes (f : Flash) (addr len : ℕ) : (readBytes f addr len).length = len := by
  simp [readBytes]

@[simp] theorem readBytes_zero (f : Flash) (addr : ℕ) : readBytes f addr 0 = [] := rfl

theorem readBytes_add (f : Flash) (addr m n : ℕ) :
    readBytes f addr (m + n) = readBytes f addr m ++ readBytes f (addr + m) n := by
  simp only [readBytes, ← List.map_append]
  congr 1
  rw [← List.range'_append_1]

theorem readBytes_succ (f : Flash) (addr n : ℕ) :
    readBytes f addr (n + 1) = f addr :: readBytes f (addr + 1) n := by
  simp [readBytes, List.range'_succ]

theorem getElem?_readBytes (f : Flash) (addr len i : ℕ) (h : i < len) :
    (readBytes f addr len)[i]? = some (f (addr + i)) := by
  simp [readBytes, h]

theorem readBytes_congr {f g : Flash} {addr len : ℕ}
    (h : ∀ x, addr ≤ x → x < addr + len → f x = g x) : readBytes f addr len = readBytes g addr len := by
  simp only [readBytes, List.map_inj_left, List.mem_range'_1]
  exact fun x hx => h x hx.1 hx.2

/-- A part of a region is a slice of the region's bytes. -/
theorem readBytes_slice (f : Flash) (addr len off n : ℕ) (h : off + n ≤ len) :
    readBytes f (addr + off) n = ((readBytes f addr len).drop off).take n := by
  obtain ⟨r, rfl⟩ : ∃ r, len = off + (n + r) := ⟨len - off - n, by omega⟩
  rw [readBytes_add, readBytes_add, List.drop_left' (by simp), List.take_left' (by simp)]

/-- The bytes of one part, given the region as an append. -/
theorem readBytes_part {f : Flash} {addr len off n : ℕ} {A B C : Bytes}
    (h : readBytes f addr len = A ++ B ++ C) (hA : A.length = off) (hB : B.length = n) :
    readBytes f (addr + off) n = B := by
  have hl := congrArg List.length h
  simp only [length_readBytes, List.length_append] at hl
  rw [readBytes_slice f addr len off n (by omega), h, List.append_assoc, List.drop_left' hA,
    List.take_left' hB]

theorem readBytes_head {f : Flash} {addr len n : ℕ} {B C : Bytes}
    (h : readBytes f addr len = B ++ C) (hB : B.length = n) : readBytes f addr n = B := by
  have h' : readBytes f addr len = [] ++ B ++ C := by simpa using h
  simpa using readBytes_part h' rfl hB

theorem erased_iff_read {f : Flash} {addr len : ℕ} :
    Erased f addr len ↔ readBytes f addr len = blank len := by
  constructor
  · intro h
    rw [readBytes_congr (g := fun _ => 0xFF) h, readBytes, blank, List.map_const', List.length_range']
  · intro h x h0 h1
    have hx := congrArg (·[x - addr]?) h
    simp only [getElem?_readBytes f addr len (x - addr) (by omega)] at hx
    rw [Nat.add_sub_cancel' h0] at hx
    simpa [blank, List.getElem?_replicate, show x - addr < len by omega] using hx

/-! ### The effect of one call -/

theorem program_outside {addr : ℕ} {data : Bytes} {f : Flash} {x : ℕ}
    (h : x < addr ∨ addr + data.length ≤ x) : (Op.program addr data).apply f x = f x := by
  simp only [Op.apply]
  rw [if_neg (by omega)]

theorem program_inside {addr : ℕ} {data : Bytes} {f : Flash} {i : ℕ} (h : i < data.length) :
    (Op.program addr data).apply f (addr + i) = f (addr + i) &&& data[i] := by
  simp only [Op.apply]
  rw [if_pos (by omega), Nat.add_sub_cancel_left, List.getD_eq_getElem?_getD, List.getElem?_eq_getElem h, Option.getD_some]

theorem erase_outside {addr len : ℕ} {f : Flash} {x : ℕ} (h : x < addr ∨ addr + len ≤ x) :
    (Op.erase addr len).apply f x = f x := by
  simp only [Op.apply]
  rw [if_neg (by omega)]

theorem erase_inside {addr len : ℕ} {f : Flash} {x : ℕ} (h0 : addr ≤ x) (h1 : x < addr + len) :
    (Op.erase addr len).apply f x = 0xFF := by
  simp only [Op.apply]
  rw [if_pos ⟨h0, h1⟩]

theorem apply_outside (o : Op) {f : Flash} {x : ℕ} (h : x < o.addr ∨ o.addr + o.len ≤ x) :
    o.apply f x = f x := by
  cases o with
  | program addr data => exact program_outside h
  | erase addr len => exact erase_outside h

/-- A region the call does not touch keeps its bytes. -/
theorem readBytes_apply_disjoint (o : Op) (f : Flash) {addr len : ℕ}
    (h : addr + len ≤ o.addr ∨ o.addr + o.len ≤ addr) :
    readBytes (o.apply f) addr len = readBytes f addr len :=
  readBytes_congr fun x h0 h1 => apply_outside o (by omega)

theorem readBytes_program_self (f : Flash) (addr : ℕ) (data : Bytes) :
    readBytes ((Op.program addr data).apply f) addr data.length =
      List.zipWith (· &&& ·) (readBytes f addr data.length) data := by
  apply List.ext_getElem?
  intro i
  by_cases hi : i < data.length
  · rw [getElem?_readBytes _ _ _ _ hi, program_inside hi, List.getElem?_zipWith,
      getElem?_readBytes _ _ _ _ hi, List.getElem?_eq_getElem hi]
  · rw [List.getElem?_eq_none (by simpa using hi), List.getElem?_eq_none (by simpa using hi)]

/-- Programming the middle part of a region. -/
theorem readBytes_program {f : Flash} {addr len off : ℕ} {A B C data : Bytes}
    (h : readBytes f addr len = A ++ B ++ C) (hA : A.length = off) (hB : B.length = data.length) :
    readBytes ((Op.program (addr + off) data).apply f) addr len =
      A ++ List.zipWith (· &&& ·) B data ++ C := by
  have hl := congrArg List.length h
  simp only [length_readBytes, List.length_append] at hl
  obtain rfl : len = off + data.length + C.length := by omega
  rw [readBytes_add, readBytes_add] at h ⊢
  obtain ⟨hab, hc⟩ := List.append_inj h (by simp [hA, hB])
  obtain ⟨ha, hb⟩ := List.append_inj hab (by simp [hA])
  rw [readBytes_apply_disjoint _ _ (by simp [Op.addr]), ha, readBytes_program_self, hb,
    readBytes_apply_disjoint _ _ (by simp [Op.addr, Op.len]; omega), hc]

/-- Programming erased bytes stores the data. -/
theorem readBytes_program_blank {f : Flash} {addr len off : ℕ} {A C data : Bytes}
    (h : readBytes f addr len = A ++ blank data.length ++ C) (hA : A.length = off) :
    readBytes ((Op.program (addr + off) data).apply f) addr len = A ++ data ++ C := by
  rw [readBytes_program h hA (by simp), zipWith_and_blank]

theorem readBytes_program_head {f : Flash} {addr len : ℕ} {C data : Bytes}
    (h : readBytes f addr len = blank data.length ++ C) :
    readBytes ((Op.program addr data).apply f) addr len = data ++ C := by
  have h' : readBytes f addr len = [] ++ blank data.length ++ C := by simpa using h
  simpa using readBytes_program_blank h' rfl

theorem readBytes_erase (f : Flash) (addr len : ℕ) :
    readBytes ((Op.erase addr len).apply f) addr len = blank len :=
  erased_iff_read.mp fun _ h0 h1 => erase_inside h0 h1

/-- Programming what is already there changes nothing. -/
theorem program_same {f : Flash} {addr : ℕ} {data : Bytes}
    (h : readBytes f addr data.length = data) : (Op.program addr data).apply f = f := by
  funext x
  by_cases hx : x < addr ∨ addr + data.length ≤ x
  · exact program_outside hx
  · obtain ⟨i, rfl⟩ : ∃ i, x = addr + i := ⟨x - addr, by omega⟩
    have hi : i < data.length := by omega
    have hd : data[i] = f (addr + i) := by
      have := getElem?_readBytes f addr data.length i hi
      rw [h, List.getElem?_eq_getElem hi] at this
      exact Option.some.inj this
    rw [program_inside hi, hd, and_idem]

/-! ### Little-endian words -/

/-- The value of a little-endian byte string. -/
def le (bs : Bytes) : ℕ := Nat.ofDigits 256 (bs.map UInt8.toNat)

/-- The `n` low bytes of a number, least significant first. -/
def leBytes : ℕ → ℕ → Bytes
  | 0, _ => []
  | n + 1, v => UInt8.ofNat v :: leBytes n (v / 256)

@[simp] theorem length_leBytes (n v : ℕ) : (leBytes n v).length = n := by
  induction n generalizing v with
  | zero => rfl
  | succ n ih => simp [leBytes, ih]

theorem le_lt {bs : Bytes} {n : ℕ} (h : bs.length ≤ n) : le bs < 256 ^ n := by
  have hdigits : ∀ d ∈ bs.map UInt8.toNat, d < 256 := by
    intro d hd
    obtain ⟨b, -, rfl⟩ := List.mem_map.mp hd
    exact b.toNat_lt
  calc le bs < 256 ^ (bs.map UInt8.toNat).length := Nat.ofDigits_lt_base_pow_length (by decide) hdigits
    _ ≤ 256 ^ n := Nat.pow_le_pow_right (by decide) (by rwa [List.length_map])

theorem le_leBytes (n v : ℕ) (h : v < 256 ^ n) : le (leBytes n v) = v := by
  induction n generalizing v with
  | zero => simp only [pow_zero, Nat.lt_one_iff] at h; subst h; rfl
  | succ n ih =>
    have hq : v / 256 < 256 ^ n := by
      rw [Nat.div_lt_iff_lt_mul (by norm_num), ← pow_succ]
      exact h
    have hr := ih (v / 256) hq
    simp only [le] at hr
    simp only [le, leBytes, List.map_cons, Nat.ofDigits_cons, hr, UInt8.toNat_ofNat']
    omega

theorem leBytes_le (bs : Bytes) : leBytes bs.length (le bs) = bs := by
  induction bs with
  | nil => rfl
  | cons b bs ih =>
    have hb := b.toNat_lt
    have hd : le (b :: bs) / 256 = le bs := by
      simp only [le, List.map_cons, Nat.ofDigits_cons]
      omega
    have hm : UInt8.ofNat (le (b :: bs)) = b := by
      apply UInt8.toNat_inj.mp
      simp only [le, List.map_cons, Nat.ofDigits_cons, UInt8.toNat_ofNat']
      omega
    rw [List.length_cons, leBytes, hd, ih, hm]

end Ln882x.Nor
