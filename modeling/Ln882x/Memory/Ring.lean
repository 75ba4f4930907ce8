import Mathlib.Data.List.Basic
import Mathlib.Logic.Function.Basic

/-! Sequences in a ring of cells. The sequence starts at some cell and goes on around the
ring; it grows and shrinks at both ends by writing one cell and moving a mark. Positions are
numbers that count on, and a cell is a position up to the size of the ring. -/

namespace Ln882x.Memory

variable {α : Type} {cell cell' : ℕ → α} {n first : ℕ} {items : List α} {x : α}

/-- The cells from `first` on hold the items. -/
structure OnRing (cell : ℕ → α) (n first : ℕ) (items : List α) : Prop where
  fits : items.length ≤ n
  holds : ∀ k x, items[k]? = some x → cell ((first + k) % n) = x

/-- Cells closer together than the ring is long are different. -/
theorem cell_ne {a b : ℕ} (hlt : a < b) (hnear : b < a + n) : a % n ≠ b % n := by
  intro heq
  have hzero : (b - a) % n = 0 := Nat.sub_mod_eq_zero_of_mod_eq heq.symm
  rw [Nat.mod_eq_of_lt (by omega)] at hzero
  omega

theorem OnRing.nil (cell : ℕ → α) (n first : ℕ) : OnRing cell n first [] := ⟨Nat.zero_le n, by simp⟩

theorem OnRing.congr {first' : ℕ} (h : OnRing cell n first items) (hfirst : first % n = first' % n) :
    OnRing cell n first' items := by
  refine ⟨h.fits, ?_⟩
  intro k x hk
  rw [← Nat.mod_add_mod, ← hfirst, Nat.mod_add_mod]
  exact h.holds k x hk

/-- The item is written behind the last one. -/
theorem OnRing.push (h : OnRing cell n first items) (hroom : items.length < n) (hnew : cell' ((first + items.length) % n) = x)
    (hold : ∀ i, i ≠ (first + items.length) % n → cell' i = cell i) : OnRing cell' n first (items ++ [x]) := by
  have hlen : (items ++ [x]).length ≤ n := by
    rw [List.length_append]
    exact hroom
  refine ⟨hlen, ?_⟩
  intro k y hk
  by_cases hlt : k < items.length
  · rw [List.getElem?_append_left hlt] at hk
    rw [hold _ (cell_ne (by omega) (by omega))]
    exact h.holds k y hk
  · rw [List.getElem?_append_right (by omega)] at hk
    obtain ⟨hz, rfl⟩ : k - items.length = 0 ∧ x = y := by simpa [List.getElem?_singleton] using hk
    have hkl : k = items.length := by omega
    rw [hkl]
    exact hnew

/-- The item is written before the first one. -/
theorem OnRing.pushFront (h : OnRing cell n (first + 1) items) (hroom : items.length < n) (hnew : cell' (first % n) = x)
    (hold : ∀ i, i ≠ first % n → cell' i = cell i) : OnRing cell' n first (x :: items) := by
  have hlen : (x :: items).length ≤ n := hroom
  refine ⟨hlen, ?_⟩
  intro k y hk
  cases k with
  | zero =>
    obtain rfl : x = y := by simpa using hk
    exact hnew
  | succ k =>
    have hklt : k < items.length := Nat.succ_lt_succ_iff.mp (List.getElem?_eq_some_iff.mp hk).1
    have hpos : first + (k + 1) = first + 1 + k := by omega
    rw [hold _ (cell_ne (by omega) (by omega)).symm, hpos]
    exact h.holds k y hk

/-- The first item is read, and left behind. -/
theorem OnRing.pop (h : OnRing cell n first (x :: items)) : cell (first % n) = x ∧ OnRing cell n (first + 1) items := by
  refine ⟨h.holds 0 x rfl, Nat.le_of_succ_le h.fits, ?_⟩
  intro k y hk
  have hpos : first + 1 + k = first + (k + 1) := by omega
  rw [hpos]
  exact h.holds (k + 1) y hk

/-- A mark that moves to the next cell, and from the last one to the first. -/
theorem next_cell {r : ℕ} (hr : r < n) : (r + 1) % n = if r + 1 = n then 0 else r + 1 := by
  split_ifs with hlast
  · rw [hlast, Nat.mod_self]
  · exact Nat.mod_eq_of_lt (by omega)

/-- A mark that moves to the cell before. -/
theorem previous_cell {r : ℕ} (hr : r < n) : ((if r = 0 then n - 1 else r - 1) + 1) % n = r % n := by
  split_ifs with hfirst
  · rw [hfirst, Nat.sub_add_cancel (by omega), Nat.mod_self, Nat.zero_mod]
  · rw [Nat.sub_add_cancel (by omega)]

/-! ### Bytes cut into cells -/

section Bytes
variable {β : Type} {mem : List β} {size i j : ℕ} {bs : List β}

/-- The cell with the number `i`. -/
def cellOf (size : ℕ) (mem : List β) (i : ℕ) : List β := (mem.drop (i * size)).take size

/-- `memcpy` of a string to an offset. -/
def writeAt (mem : List β) (off : ℕ) (bs : List β) : List β := mem.take off ++ (bs ++ mem.drop (off + bs.length))

theorem length_writeAt {off : ℕ} (h : off + bs.length ≤ mem.length) : (writeAt mem off bs).length = mem.length := by
  simp only [writeAt, List.length_append, List.length_take, List.length_drop]
  omega

theorem cellOf_writeAt_self (h : (i + 1) * size ≤ mem.length) (hbs : bs.length = size) :
    cellOf size (writeAt mem (i * size) bs) i = bs := by
  rw [Nat.add_mul] at h
  have hlen : (mem.take (i * size)).length = i * size := by
    rw [List.length_take]
    omega
  rw [cellOf, writeAt, List.drop_left' hlen, List.take_left' hbs]

theorem cellOf_writeAt_of_ne (hne : j ≠ i) (h : (i + 1) * size ≤ mem.length) (hbs : bs.length = size) :
    cellOf size (writeAt mem (i * size) bs) j = cellOf size mem j := by
  rw [Nat.add_mul] at h
  have hlen : (mem.take (i * size)).length = i * size := by
    rw [List.length_take]
    omega
  apply List.ext_getElem?
  intro k
  unfold cellOf
  by_cases hk : k < size
  · rw [List.getElem?_take_of_lt hk, List.getElem?_take_of_lt hk, List.getElem?_drop, List.getElem?_drop, writeAt]
    rcases Nat.lt_or_gt_of_ne hne with hlt | hgt
    · have hle : (j + 1) * size ≤ i * size := Nat.mul_le_mul_right size hlt
      rw [Nat.add_mul] at hle
      rw [List.getElem?_append_left (by omega), List.getElem?_take_of_lt (by omega)]
    · have hle : (i + 1) * size ≤ j * size := Nat.mul_le_mul_right size hgt
      rw [Nat.add_mul] at hle
      rw [List.getElem?_append_right (by omega), List.getElem?_append_right (by omega), List.getElem?_drop]
      congr 1
      omega
  · rw [List.getElem?_take_eq_none (Nat.le_of_not_lt hk), List.getElem?_take_eq_none (Nat.le_of_not_lt hk)]

end Bytes

end Ln882x.Memory
