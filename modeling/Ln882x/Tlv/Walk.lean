import Mathlib.Data.List.Basic
import Mathlib.Data.Nat.Notation

/-! Fields of records with a code, a length and a value. A code of its own pads and one
ends the field. A walk goes from record to record until a code it looks for, the
end, or the limit of the field; it may take notes of the records it passes. Over the
encoding of a list of records a walk meets exactly the records of the list. Nothing is
claimed about the bytes of a value. -/

namespace Ln882x.Tlv

/-- The code that pads a field and the code that ends it. -/
structure Codes where
  pad : UInt8
  stop : UInt8

/-- How a walk ends; `hit` gives the position of the code. -/
inductive Walk (σ : Type) where
  | hit (q : ℕ)
  | ended (notes : σ)
  | ranOff
  deriving DecidableEq

variable {σ : Type} (codes : Codes) (mem : ℕ → UInt8) (hit : UInt8 → Bool) (note : σ → ℕ → σ) (limit : ℕ)

/-- A walk of at most `n` steps. -/
def walk : ℕ → ℕ → σ → Walk σ
  | 0, _, _ => .ranOff
  | n + 1, q, s =>
    if limit ≤ q then .ranOff
    else if hit (mem q) then .hit q
    else if mem q = codes.pad then walk n (q + 1) s
    else if mem q = codes.stop then .ended s
    else walk n (q + 2 + (mem (q + 1)).toNat) (note s q)

/-- The walk from a position. No walk has more steps than there are bytes in front of the limit. -/
def scan (q : ℕ) (s : σ) : Walk σ := walk codes mem hit note limit (limit - q + 1) q s

variable {codes mem hit note limit} {q n m : ℕ} {s : σ}

theorem walk_eq_of_lt (hn : limit - q < n) (hm : limit - q < m) :
    walk codes mem hit note limit n q s = walk codes mem hit note limit m q s := by
  induction n generalizing m q s with
  | zero => omega
  | succ n ih =>
    cases m with
    | zero => omega
    | succ m =>
      rw [walk, walk]
      split_ifs with hlimit hhit hpad hstop
      · rfl
      · rfl
      · exact ih (by omega) (by omega)
      · rfl
      · exact ih (by omega) (by omega)

theorem scan_ranOff (h : limit ≤ q) : scan codes mem hit note limit q s = .ranOff := by
  rw [scan, walk, if_pos h]

theorem scan_hit (h : q < limit) (hhit : hit (mem q) = true) : scan codes mem hit note limit q s = .hit q := by
  rw [scan, walk, if_neg (by omega), if_pos hhit]

theorem scan_pad (h : q < limit) (hhit : ¬hit (mem q) = true) (hpad : mem q = codes.pad) :
    scan codes mem hit note limit q s = scan codes mem hit note limit (q + 1) s := by
  rw [scan, walk, if_neg (by omega), if_neg hhit, if_pos hpad]
  exact walk_eq_of_lt (by omega) (by omega)

theorem scan_stop (h : q < limit) (hhit : ¬hit (mem q) = true) (hpad : mem q ≠ codes.pad) (hstop : mem q = codes.stop) :
    scan codes mem hit note limit q s = .ended s := by
  rw [scan, walk, if_neg (by omega), if_neg hhit, if_neg hpad, if_pos hstop]

theorem scan_next (h : q < limit) (hhit : ¬hit (mem q) = true) (hpad : mem q ≠ codes.pad) (hstop : mem q ≠ codes.stop) :
    scan codes mem hit note limit q s = scan codes mem hit note limit (q + 2 + (mem (q + 1)).toNat) (note s q) := by
  rw [scan, walk, if_neg (by omega), if_neg hhit, if_neg hpad, if_neg hstop]
  exact walk_eq_of_lt (by omega) (by omega)

/-- What a walk hits is a code it looks for, in front of the limit. -/
theorem scan_hit_spec {p : ℕ} (h : scan codes mem hit note limit q s = .hit p) : q ≤ p ∧ p < limit ∧ hit (mem p) = true := by
  unfold scan at h
  generalize limit - q + 1 = n at h
  induction n generalizing q s with
  | zero => cases h
  | succ n ih =>
    rw [walk] at h
    split_ifs at h with hlimit hhit hpad hstop
    · cases h
      exact ⟨Nat.le_refl _, by omega, hhit⟩
    · obtain ⟨hle, hlt, hp⟩ := ih h
      exact ⟨by omega, hlt, hp⟩
    · obtain ⟨hle, hlt, hp⟩ := ih h
      exact ⟨by omega, hlt, hp⟩

/-! ### The codes a walk meets -/

/-- A property of the position of every code that a walk to the end meets in `n` steps. -/
def meets (codes : Codes) (mem : ℕ → UInt8) (P : ℕ → Prop) (limit : ℕ) : ℕ → ℕ → Prop
  | 0, _ => True
  | n + 1, q =>
    limit ≤ q ∨ P q ∧
      if mem q = codes.pad then meets codes mem P limit n (q + 1)
      else if mem q = codes.stop then True
      else meets codes mem P limit n (q + 2 + (mem (q + 1)).toNat)

/-- The property holds wherever the walk from a position meets a code. -/
def ScanMeets (codes : Codes) (mem : ℕ → UInt8) (P : ℕ → Prop) (limit q : ℕ) : Prop := meets codes mem P limit (limit - q + 1) q

section Meets
variable {P : ℕ → Prop}

theorem meets_iff_of_lt (hn : limit - q < n) (hm : limit - q < m) :
    meets codes mem P limit n q ↔ meets codes mem P limit m q := by
  induction n generalizing m q with
  | zero => omega
  | succ n ih =>
    cases m with
    | zero => omega
    | succ m =>
      rw [meets, meets]
      by_cases hlimit : limit ≤ q
      · exact iff_of_true (.inl hlimit) (.inl hlimit)
      rw [or_iff_right hlimit, or_iff_right hlimit]
      refine and_congr_right fun _ => ?_
      split_ifs
      · exact ih (by omega) (by omega)
      · exact Iff.rfl
      · exact ih (by omega) (by omega)

theorem scanMeets_of_le (h : limit ≤ q) : ScanMeets codes mem P limit q := by
  rw [ScanMeets, meets]
  exact .inl h

theorem scanMeets_pad (h : q < limit) (hpad : mem q = codes.pad) :
    ScanMeets codes mem P limit q ↔ P q ∧ ScanMeets codes mem P limit (q + 1) := by
  rw [ScanMeets, meets, or_iff_right (by omega), if_pos hpad]
  exact and_congr_right fun _ => meets_iff_of_lt (by omega) (by omega)

theorem scanMeets_stop (h : q < limit) (hpad : mem q ≠ codes.pad) (hstop : mem q = codes.stop) :
    ScanMeets codes mem P limit q ↔ P q := by
  rw [ScanMeets, meets, or_iff_right (by omega), if_neg hpad, if_pos hstop]
  exact and_iff_left trivial

theorem scanMeets_next (h : q < limit) (hpad : mem q ≠ codes.pad) (hstop : mem q ≠ codes.stop) :
    ScanMeets codes mem P limit q ↔ P q ∧ ScanMeets codes mem P limit (q + 2 + (mem (q + 1)).toNat) := by
  rw [ScanMeets, meets, or_iff_right (by omega), if_neg hpad, if_neg hstop]
  exact and_congr_right fun _ => meets_iff_of_lt (by omega) (by omega)

end Meets

/-! ### Encoded records -/

structure Record where
  code : UInt8
  value : List UInt8
  deriving DecidableEq

def Record.encode (r : Record) : List UInt8 := r.code :: UInt8.ofNat r.value.length :: r.value

def encodeAll (rs : List Record) : List UInt8 := rs.flatMap Record.encode

/-- The record is no mark, and its length fits its byte. -/
structure Record.Fits (codes : Codes) (r : Record) : Prop where
  ne_pad : r.code ≠ codes.pad
  ne_stop : r.code ≠ codes.stop
  length_lt : r.value.length < 256

/-- The memory holds the bytes from a position on. -/
def Holds (mem : ℕ → UInt8) (q : ℕ) (bytes : List UInt8) : Prop := ∀ i (h : i < bytes.length), mem (q + i) = bytes[i]

theorem Holds.head {b : UInt8} {bytes : List UInt8} (h : Holds mem q (b :: bytes)) : mem q = b := h 0 (by simp)

theorem Holds.tail {b : UInt8} {bytes : List UInt8} (h : Holds mem q (b :: bytes)) : Holds mem (q + 1) bytes := by
  intro i hi
  have hsucc := h (i + 1) (by rw [List.length_cons]; omega)
  rw [List.getElem_cons_succ] at hsucc
  rw [← hsucc]
  congr 1
  omega

theorem Holds.left {xs ys : List UInt8} (h : Holds mem q (xs ++ ys)) : Holds mem q xs := by
  intro i hi
  have hx := h i (by rw [List.length_append]; omega)
  rwa [List.getElem_append_left hi] at hx

theorem Holds.right {xs ys : List UInt8} (h : Holds mem q (xs ++ ys)) : Holds mem (q + xs.length) ys := by
  intro i hi
  have hy := h (xs.length + i) (by rw [List.length_append]; omega)
  rw [List.getElem_append_right (by omega)] at hy
  simpa only [Nat.add_assoc, Nat.add_sub_cancel_left] using hy

@[simp] theorem encodeAll_cons (r : Record) (rs : List Record) : encodeAll (r :: rs) = r.encode ++ encodeAll rs := rfl

theorem encodeAll_append (rs ts : List Record) : encodeAll (rs ++ ts) = encodeAll rs ++ encodeAll ts := List.flatMap_append

theorem Record.length_encode (r : Record) : r.encode.length = 2 + r.value.length := by
  rw [Record.encode, List.length_cons, List.length_cons]
  omega

/-- A walk passes a record that it does not look for. -/
theorem scan_record {r : Record} {rest : List UInt8} (hr : r.Fits codes) (hmem : Holds mem q (r.encode ++ rest))
    (hlimit : q < limit) (hhit : ¬hit r.code = true) :
    scan codes mem hit note limit q s = scan codes mem hit note limit (q + r.encode.length) (note s q) := by
  have hcode : mem q = r.code := hmem.left.head
  have hlen : (mem (q + 1)).toNat = r.value.length := by
    have hbyte : mem (q + 1) = UInt8.ofNat r.value.length := hmem.left.tail.head
    rw [hbyte, UInt8.toNat_ofNat', Nat.mod_eq_of_lt hr.length_lt]
  rw [scan_next hlimit (by rwa [hcode]) (by rw [hcode]; exact hr.ne_pad) (by rw [hcode]; exact hr.ne_stop), hlen,
    r.length_encode, Nat.add_assoc]

/-- Over encoded records a walk hits the first one with a code it looks for. -/
theorem scan_records_hit {before : List Record} {r : Record} {rest : List UInt8} (hfits : ∀ b ∈ before, b.Fits codes)
    (hmem : Holds mem q (encodeAll before ++ (r.encode ++ rest))) (hlimit : q + (encodeAll before).length < limit)
    (hbefore : ∀ b ∈ before, ¬hit b.code = true) (hhit : hit r.code = true) :
    scan codes mem hit note limit q s = .hit (q + (encodeAll before).length) := by
  induction before generalizing q s with
  | nil =>
    have hcode : mem q = r.code := hmem.head
    exact scan_hit hlimit (by rwa [hcode])
  | cons b before ih =>
    rw [encodeAll_cons, List.append_assoc] at hmem
    rw [encodeAll_cons, List.length_append] at hlimit ⊢
    rw [scan_record (hfits b List.mem_cons_self) hmem (by omega) (hbefore b List.mem_cons_self),
      ih (fun x hx => hfits x (List.mem_cons_of_mem b hx)) hmem.right (by omega)
        (fun x hx => hbefore x (List.mem_cons_of_mem b hx)), Nat.add_assoc]

/-- Without such a record, and with none that is worth a note, a walk ends with the field. -/
theorem scan_records_ended {rs : List Record} {rest : List UInt8} (hfits : ∀ r ∈ rs, r.Fits codes) (hne : codes.stop ≠ codes.pad)
    (hmem : Holds mem q (encodeAll rs ++ codes.stop :: rest)) (hlimit : q + (encodeAll rs).length < limit)
    (hhit : ∀ r ∈ rs, ¬hit r.code = true) (hstop : ¬hit codes.stop = true)
    (hnote : ∀ r ∈ rs, ∀ p x, mem p = r.code → note x p = x) :
    scan codes mem hit note limit q s = .ended s := by
  induction rs generalizing q with
  | nil =>
    have hcode : mem q = codes.stop := hmem.head
    exact scan_stop hlimit (by rwa [hcode]) (by rwa [hcode]) hcode
  | cons r rs ih =>
    rw [encodeAll_cons, List.append_assoc] at hmem
    rw [encodeAll_cons, List.length_append] at hlimit
    have hcode : mem q = r.code := hmem.left.head
    rw [scan_record (hfits r List.mem_cons_self) hmem (by omega) (hhit r List.mem_cons_self),
      hnote r List.mem_cons_self q s hcode]
    exact ih (fun x hx => hfits x (List.mem_cons_of_mem r hx)) hmem.right (by omega)
      (fun x hx => hhit x (List.mem_cons_of_mem r hx)) (fun x hx => hnote x (List.mem_cons_of_mem r hx))

end Ln882x.Tlv
