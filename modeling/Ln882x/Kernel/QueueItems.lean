import Ln882x.Kernel.Queue
import Mathlib.Data.Nat.ModEq

/-! The storage of a queue is a double-ended queue of items. The items lie in a ring of cells
behind the one that was read last; whatever tasks and interrupts do, in whatever order their
critical sections come, each of them acts on that sequence as a whole. -/

namespace Ln882x.Kernel

open Memory

/-- What a call or an interrupt does to a queue of at most `cap` items; `none` if an ideal queue
could not have done it. A call that gives up after its time says nothing about the queue. -/
def Outcome.on (cap : ℕ) (items : List Item) : Outcome → Option (List Item)
  | .send item .sendToBack => if items.length < cap then some (items ++ [item]) else none
  | .send item .sendToFront => if items.length < cap then some (item :: items) else none
  | .send item .overwrite => some [item]
  | .receive item => if items.head? = some item then some items.tail else none
  | .peek item => if items.head? = some item then some items else none
  | .sendFailed false => if items.length = cap then some items else none
  | .sendFailed true => some items
  | .receiveFailed => if items = [] then some [] else none
  | .reset => some []

/-- The ideal queue after all that happened. -/
def replay (cap : ℕ) (items : List Item) : List (Option ℕ × Outcome) → Option (List Item)
  | [] => some items
  | e :: trace => (e.2.on cap items).bind fun items => replay cap items trace

theorem replay_append (cap : ℕ) (items : List Item) (xs ys : List (Option ℕ × Outcome)) :
    replay cap items (xs ++ ys) = (replay cap items xs).bind fun items => replay cap items ys := by
  induction xs generalizing items with
  | nil => rfl
  | cons e xs ih =>
    simp only [List.cons_append, replay]
    cases e.2.on cap items with
    | none => rfl
    | some items => simp [ih]

/-! ### The ring -/

/-- The storage holds the items, from the oldest on. -/
structure Holds (b : Buffer) (items : List Item) : Prop where
  length_pos : 0 < b.uxLength
  size : b.storage.length = b.uxLength * b.uxItemSize
  tail : b.pcTail = b.uxLength * b.uxItemSize
  count : b.uxMessagesWaiting = items.length
  sized : ∀ x ∈ items, x.length = b.uxItemSize
  ring : ∃ r < b.uxLength, b.pcReadFrom = r * b.uxItemSize ∧
    b.pcWriteTo = (r + 1 + items.length) % b.uxLength * b.uxItemSize ∧
    OnRing (cellOf b.uxItemSize b.storage) b.uxLength (r + 1) items

variable {b : Buffer} {items : List Item} {item : Item} {pos : CopyPosition}

theorem Holds.fits (h : Holds b items) : b.uxMessagesWaiting ≤ b.uxLength := by
  obtain ⟨r, -, -, -, hring⟩ := h.ring
  rw [h.count]
  exact hring.fits

theorem Holds.reset (hpos : 0 < b.uxLength) (hsize : b.storage.length = b.uxLength * b.uxItemSize) : Holds b.reset [] := by
  have hlast : (b.uxLength - 1 + 1 + ([] : List Item).length) % b.uxLength = 0 := by
    rw [List.length_nil, Nat.add_zero, Nat.sub_add_cancel hpos, Nat.mod_self]
  refine ⟨hpos, hsize, rfl, rfl, by simp, b.uxLength - 1, Nat.sub_lt hpos Nat.one_pos, rfl, ?_, .nil _ _ _⟩
  show 0 = (b.uxLength - 1 + 1 + ([] : List Item).length) % b.uxLength * b.uxItemSize
  rw [hlast, Nat.zero_mul]

/-- An offset that moves on by one item, and from the last cell to the first. -/
theorem next_offset {n size r : ℕ} (hr : r < n) (hsize : size ≠ 0) :
    (if r * size + size ≥ n * size then 0 else r * size + size) = (r + 1) % n * size := by
  have hmul : r * size + size = (r + 1) * size := by rw [Nat.add_mul, Nat.one_mul]
  rw [hmul, next_cell hr]
  by_cases hlast : r + 1 = n
  · simp [hlast]
  · have hlt : ¬(r + 1) * size ≥ n * size := Nat.not_le.mpr (Nat.mul_lt_mul_of_pos_right (by omega) (by omega))
    rw [if_neg hlt, if_neg hlast]

theorem previous_offset {size r : ℕ} (n : ℕ) (hsize : size ≠ 0) :
    (if r * size < size then n * size - size else r * size - size) = (if r = 0 then n - 1 else r - 1) * size := by
  by_cases hfirst : r = 0
  · have hlt : r * size < size := by
      rw [hfirst, Nat.zero_mul]
      omega
    rw [if_pos hlt, if_pos hfirst, Nat.sub_mul, Nat.one_mul]
  · have hge : ¬r * size < size := Nat.not_lt.mpr (Nat.le_mul_of_pos_left size (by omega))
    rw [if_neg hge, if_neg hfirst, Nat.sub_mul, Nat.one_mul]

/-- A semaphore has no storage: every item is empty. -/
theorem Holds.semaphore (h : Holds b items) (hsize : b.uxItemSize = 0) {items' : List Item} (hempty : ∀ x ∈ items', x = [])
    (hfit : items'.length ≤ b.uxLength) : Holds { b with uxMessagesWaiting := items'.length } items' := by
  obtain ⟨r, hr, hread, hwrite, -⟩ := h.ring
  refine ⟨h.length_pos, h.size, h.tail, rfl, ?_, r, hr, hread, ?_, hfit, ?_⟩
  · intro x hx
    rw [hempty x hx]
    exact hsize.symm
  · rw [hwrite, hsize, Nat.mul_zero, Nat.mul_zero]
  · intro k x hk
    rw [hempty x (List.mem_of_getElem? hk)]
    simp [cellOf, hsize]

theorem Holds.empty_of_semaphore (h : Holds b items) (hsize : b.uxItemSize = 0) {x : Item} (hx : x ∈ items) : x = [] := by
  have hlen := h.sized x hx
  rw [hsize] at hlen
  exact List.length_eq_zero_iff.mp hlen

/-- What a position means to the sequence of items. -/
def CopyPosition.place (pos : CopyPosition) (item : Item) (items : List Item) : List Item :=
  match pos with
  | .sendToBack => items ++ [item]
  | .sendToFront => item :: items
  | .overwrite => [item]

/-- An item that a caller may send: it has the size of the items, and only a queue of one cell is
overwritten, which is not a semaphore. -/
structure Sendable (b : Buffer) (item : Item) (pos : CopyPosition) : Prop where
  size : item.length = b.uxItemSize
  overwrite : pos = .overwrite → b.uxLength = 1 ∧ b.uxItemSize ≠ 0

instance (b : Buffer) (item : Item) (pos : CopyPosition) : Decidable (Sendable b item pos) :=
  decidable_of_iff (item.length = b.uxItemSize ∧ (pos = .overwrite → b.uxLength = 1 ∧ b.uxItemSize ≠ 0))
    ⟨fun h => ⟨h.1, h.2⟩, fun h => ⟨h.size, h.overwrite⟩⟩

theorem Sendable.congr {c : Buffer} (h : Sendable b item pos) (hlen : c.uxLength = b.uxLength) (hsize : c.uxItemSize = b.uxItemSize) :
    Sendable c item pos := by
  refine ⟨h.size.trans hsize.symm, ?_⟩
  rw [hlen, hsize]
  exact h.overwrite

theorem CopyPosition.length_place (pos : CopyPosition) (hpos : pos ≠ .overwrite) (item : Item) (items : List Item) :
    (pos.place item items).length = items.length + 1 := by
  cases pos with
  | sendToBack => simp [place]
  | sendToFront => simp [place]
  | overwrite => exact absurd rfl hpos

theorem CopyPosition.mem_place {pos : CopyPosition} {x : Item} (hx : x ∈ pos.place item items) : x = item ∨ x ∈ items := by
  cases pos with
  | sendToBack => simpa [place, or_comm] using hx
  | sendToFront => simpa [place] using hx
  | overwrite => exact .inl (by simpa [place] using hx)

theorem Holds.copyTo (h : Holds b items) (hs : Sendable b item pos) (hacc : b.Accepts pos) :
    Holds (b.prvCopyDataToQueue item pos) (pos.place item items) := by
  have hroom : pos ≠ .overwrite → items.length < b.uxLength := by
    intro hpos
    rw [← h.count]
    exact hacc.resolve_right hpos
  have hsized : ∀ x ∈ pos.place item items, x.length = b.uxItemSize := by
    intro x hx
    rcases CopyPosition.mem_place hx with rfl | hx
    · exact hs.size
    · exact h.sized x hx
  by_cases hsize : b.uxItemSize = 0
  · have hpos : pos ≠ .overwrite := fun hpos => (hs.overwrite hpos).2 hsize
    have hcount := pos.length_place hpos item items
    have hempty : ∀ x ∈ pos.place item items, x = [] := by
      intro x hx
      exact List.length_eq_zero_iff.mp ((hsized x hx).trans hsize)
    have hsem := h.semaphore hsize hempty (by rw [hcount]; exact hroom hpos)
    rw [hcount, ← h.count] at hsem
    rw [Buffer.prvCopyDataToQueue, if_pos hsize]
    exact hsem
  obtain ⟨r, hr, hread, hwrite, hring⟩ := h.ring
  have hcell {i : ℕ} (hi : i < b.uxLength) : (i + 1) * b.uxItemSize ≤ b.storage.length := by
    rw [h.size]
    exact Nat.mul_le_mul_right _ hi
  have hwritten {i : ℕ} (hi : i < b.uxLength) : (writeAt b.storage (i * b.uxItemSize) item).length = b.storage.length := by
    apply length_writeAt
    have := hcell hi
    rw [Nat.add_mul, Nat.one_mul] at this
    rw [hs.size]
    exact this
  unfold Buffer.prvCopyDataToQueue
  rw [if_neg hsize]
  by_cases hback : pos = .sendToBack
  · subst hback
    have hlt := hroom (by simp)
    have hw : (r + 1 + items.length) % b.uxLength < b.uxLength := Nat.mod_lt _ h.length_pos
    rw [if_pos rfl, hwrite, h.tail]
    refine ⟨h.length_pos, (hwritten hw).trans h.size, rfl, ?_, hsized, r, hr, hread, ?_, ?_⟩
    · simp [CopyPosition.place, h.count]
    · dsimp only
      rw [next_offset hw hsize, Nat.mod_add_mod]
      simp [CopyPosition.place, Nat.add_assoc]
    · exact hring.push hlt (cellOf_writeAt_self (hcell hw) hs.size) fun i hi => cellOf_writeAt_of_ne hi (hcell hw) hs.size
  · rw [if_neg hback, hread, h.tail, previous_offset b.uxLength hsize]
    have hr' : (if r = 0 then b.uxLength - 1 else r - 1) < b.uxLength := by
      have := h.length_pos
      split_ifs <;> omega
    have hprev := previous_cell hr
    have hcells : ∀ i, i ≠ r % b.uxLength →
        cellOf b.uxItemSize (writeAt b.storage (r * b.uxItemSize) item) i = cellOf b.uxItemSize b.storage i := by
      intro i hi
      rw [Nat.mod_eq_of_lt hr] at hi
      exact cellOf_writeAt_of_ne hi (hcell hr) hs.size
    have hself : cellOf b.uxItemSize (writeAt b.storage (r * b.uxItemSize) item) (r % b.uxLength) = item := by
      rw [Nat.mod_eq_of_lt hr]
      exact cellOf_writeAt_self (hcell hr) hs.size
    by_cases hover : pos = .overwrite
    · subst hover
      have hone := (hs.overwrite rfl).1
      have hr0 : r = 0 := by omega
      have hfit := hring.fits
      refine ⟨h.length_pos, (hwritten hr).trans h.size, rfl, ?_, hsized, _, hr', rfl, ?_, ?_⟩
      · have hmost : b.uxMessagesWaiting ≤ 1 := h.fits.trans hone.le
        show (if CopyPosition.overwrite = .overwrite ∧ b.uxMessagesWaiting > 0 then b.uxMessagesWaiting - 1
          else b.uxMessagesWaiting) + 1 = 1
        by_cases hany : b.uxMessagesWaiting > 0
        · rw [if_pos ⟨rfl, hany⟩]
          omega
        · rw [if_neg (fun hpos => hany hpos.2)]
          omega
      · dsimp only
        rw [hwrite, hone, Nat.mod_one, Nat.mod_one]
      · have hfirst := (OnRing.nil (cellOf b.uxItemSize b.storage) b.uxLength (r + 1)).pushFront h.length_pos hself hcells
        exact hfirst.congr hprev.symm
    · have hlt := hroom hover
      have hplace : pos.place item items = item :: items := by
        cases pos with
        | sendToBack => exact absurd rfl hback
        | sendToFront => rfl
        | overwrite => exact absurd rfl hover
      rw [hplace] at hsized ⊢
      refine ⟨h.length_pos, (hwritten hr).trans h.size, rfl, ?_, hsized, _, hr', rfl, ?_, ?_⟩
      · have hno : ¬(pos = .overwrite ∧ b.uxMessagesWaiting > 0) := fun hpos => hover hpos.1
        dsimp only
        rw [if_neg hno, h.count, List.length_cons]
      · dsimp only
        have hwrap := Nat.ModEq.add_right (items.length + 1) (show _ ≡ r [MOD b.uxLength] from hprev)
        have hsame : r + (items.length + 1) = r + 1 + items.length := by omega
        rw [hwrite, List.length_cons, ← hsame, hwrap]
      · exact (hring.pushFront hlt hself hcells).congr hprev.symm

/-- The item behind the read position is the first one. -/
theorem Holds.copyFrom (h : Holds b (item :: items)) : b.prvCopyDataFromQueue.1 = item ∧
    Holds { b.prvCopyDataFromQueue.2 with uxMessagesWaiting := b.uxMessagesWaiting - 1 } items := by
  have hcount : b.uxMessagesWaiting - 1 = items.length := by
    rw [h.count, List.length_cons, Nat.add_sub_cancel]
  by_cases hsize : b.uxItemSize = 0
  · have hempty {x : Item} (hx : x ∈ item :: items) : x = [] := h.empty_of_semaphore hsize hx
    have hfit := h.fits
    rw [Buffer.prvCopyDataFromQueue, if_neg (not_not.mpr hsize), hcount]
    refine ⟨(hempty (by simp)).symm, h.semaphore hsize (fun x hx => hempty (by simp [hx])) ?_⟩
    omega
  obtain ⟨r, hr, hread, hwrite, hring⟩ := h.ring
  obtain ⟨hfirst, hrest⟩ := hring.pop
  have hr' : (r + 1) % b.uxLength < b.uxLength := Nat.mod_lt _ h.length_pos
  have hnext : (if b.pcReadFrom + b.uxItemSize ≥ b.pcTail then 0 else b.pcReadFrom + b.uxItemSize) =
      (r + 1) % b.uxLength * b.uxItemSize := by
    rw [hread, h.tail, next_offset hr hsize]
  unfold Buffer.prvCopyDataFromQueue
  rw [if_pos hsize, hcount]
  dsimp only
  rw [hnext]
  refine ⟨hfirst, h.length_pos, h.size, h.tail, rfl, fun x hx => h.sized x (by simp [hx]), _, hr', rfl, ?_, ?_⟩
  · dsimp only
    have hwrap := Nat.ModEq.add_right (items.length + 1) (Nat.mod_modEq (r + 1) b.uxLength)
    have hsame : (r + 1) % b.uxLength + 1 + items.length = (r + 1) % b.uxLength + (items.length + 1) := by omega
    rw [hwrite, List.length_cons, hsame, hwrap]
  · apply hrest.congr
    rw [Nat.mod_add_mod]

theorem Holds.receive (h : Holds b (item :: items)) : b.receive.1 = item ∧ Holds b.receive.2 items := h.copyFrom

/-- The read position is put back. -/
theorem Buffer.peek_snd (b : Buffer) : b.peek.2 = b := by
  unfold peek prvCopyDataFromQueue
  by_cases hsize : b.uxItemSize = 0
  · rw [if_neg (not_not.mpr hsize)]
  · rw [if_pos hsize]

theorem Holds.peek (h : Holds b (item :: items)) : b.peek.1 = item := h.copyFrom.1

end Ln882x.Kernel
