import Ln882x.Memory.Extents

/-! A list of ranges threaded through memory. Each range has a cell at its first
address with its size and the address of the next cell. A part of the list runs from
the cell in front of it to the address its last cell points to, so a list is cut at any
cell, a part reads its own cells only, and a part is linked to another end by
changing its last cell. -/

namespace Ln882x.Memory

variable {next next' size size' : ℕ → ℕ} {p q q' : ℕ} {l r : List Extent}

/-- From the cell at `p` through the cells of `l` to the address `q`. -/
def Chained (next size : ℕ → ℕ) : ℕ → List Extent → ℕ → Prop
  | p, [], q => next p = q
  | p, e :: l, q => next p = e.addr ∧ size e.addr = e.size ∧ Chained next size e.addr l q

/-- The last cell of a part. -/
def lastCell : ℕ → List Extent → ℕ
  | p, [] => p
  | _, e :: l => lastCell e.addr l

@[simp] theorem lastCell_nil (p : ℕ) : lastCell p [] = p := rfl

@[simp] theorem lastCell_cons (p : ℕ) (e : Extent) (l : List Extent) : lastCell p (e :: l) = lastCell e.addr l := rfl

@[simp] theorem lastCell_append (p : ℕ) (l r : List Extent) : lastCell p (l ++ r) = lastCell (lastCell p l) r := by
  induction l generalizing p with
  | nil => rfl
  | cons e l ih => exact ih e.addr

theorem lastCell_mem (p : ℕ) (l : List Extent) : lastCell p l = p ∨ ∃ e ∈ l, lastCell p l = e.addr := by
  induction l generalizing p with
  | nil => exact .inl rfl
  | cons e l ih =>
    rcases ih e.addr with h | ⟨d, hd, h⟩
    · exact .inr ⟨e, by simp, h⟩
    · exact .inr ⟨d, by simp [hd], h⟩

@[simp] theorem chained_nil : Chained next size p [] q ↔ next p = q := Iff.rfl

@[simp] theorem chained_cons (e : Extent) : Chained next size p (e :: l) q ↔
    next p = e.addr ∧ size e.addr = e.size ∧ Chained next size e.addr l q := Iff.rfl

/-- A list is cut in front of any cell. -/
theorem chained_append (e : Extent) : Chained next size p (l ++ e :: r) q ↔
    Chained next size p l e.addr ∧ size e.addr = e.size ∧ Chained next size e.addr r q := by
  induction l generalizing p with
  | nil => simp
  | cons d l ih => simp [ih, and_assoc]

theorem Chained.last (h : Chained next size p l q) : next (lastCell p l) = q := by
  induction l generalizing p with
  | nil => exact h
  | cons e l ih => exact ih h.2.2

theorem Chained.sizes (h : Chained next size p l q) : ∀ e ∈ l, size e.addr = e.size := by
  induction l generalizing p with
  | nil => simp
  | cons e l ih => exact List.forall_mem_cons.mpr ⟨h.2.1, ih h.2.2⟩

/-- A part reads the link in front of it and the cells of its ranges. -/
theorem Chained.move {p' : ℕ} (h : Chained next size p l q) (hp : next' p' = next p)
    (hl : ∀ e ∈ l, next' e.addr = next e.addr ∧ size' e.addr = size e.addr) : Chained next' size' p' l q := by
  induction l generalizing p p' with
  | nil => exact hp.trans h
  | cons e l ih =>
    obtain ⟨hn, hs, ht⟩ := h
    obtain ⟨⟨hne, hse⟩, hl⟩ := List.forall_mem_cons.mp hl
    exact ⟨hp.trans hn, hse.trans hs, ih ht hne hl⟩

theorem lastCell_cons_mem (p : ℕ) (e : Extent) (l : List Extent) : ∃ d ∈ e :: l, lastCell p (e :: l) = d.addr := by
  rcases lastCell_mem e.addr l with h | ⟨d, hd, h⟩
  · exact ⟨e, by simp, h⟩
  · exact ⟨d, by simp [hd], h⟩

/-- The last cell of a part is linked to another end. -/
theorem Chained.relink (h : Chained next size p l q) (hlast : next' (lastCell p l) = q')
    (hp : p ≠ lastCell p l → next' p = next p) (hl : ∀ e ∈ l, e.addr ≠ lastCell p l → next' e.addr = next e.addr)
    (hs : ∀ e ∈ l, size' e.addr = size e.addr) (hnd : (p :: l.map Extent.addr).Nodup) : Chained next' size' p l q' := by
  induction l generalizing p with
  | nil => exact hlast
  | cons e l ih =>
    obtain ⟨hn, hsz, ht⟩ := h
    have hne : p ≠ lastCell p (e :: l) := by
      obtain ⟨d, hd, heq⟩ := lastCell_cons_mem p e l
      rintro hp
      exact (List.nodup_cons.mp hnd).1 (List.mem_map.mpr ⟨d, hd, (hp.trans heq).symm⟩)
    refine ⟨(hp hne).trans hn, (hs e (by simp)).trans hsz, ih ht hlast (hl e (by simp)) ?_ ?_ (List.nodup_cons.mp hnd).2⟩
    · exact fun d hd => hl d (by simp [hd])
    · exact fun d hd => hs d (by simp [hd])

end Ln882x.Memory
