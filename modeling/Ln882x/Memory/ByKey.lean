import Mathlib.Data.List.Basic

/-! Lists in the order of a key. A new element goes behind those whose key is not larger, so
elements with one key stay in the order in which they came. -/

namespace Ln882x.Memory

variable {α β : Type} {key : α → ℕ} {a b : α} {l r : List α}

def insertBy (key : α → ℕ) (a : α) : List α → List α
  | [] => [a]
  | b :: l => if key b ≤ key a then b :: insertBy key a l else a :: b :: l

def InOrder (key : α → ℕ) (l : List α) : Prop := l.Pairwise fun a b => key a ≤ key b

@[simp] theorem mem_insertBy : b ∈ insertBy key a l ↔ b = a ∨ b ∈ l := by
  induction l with
  | nil => simp [insertBy]
  | cons c l ih =>
    by_cases h : key c ≤ key a
    · simp [insertBy, h, ih]
      tauto
    · simp [insertBy, h]

theorem insertBy_perm (key : α → ℕ) (a : α) (l : List α) : (insertBy key a l).Perm (a :: l) := by
  induction l with
  | nil => exact .refl _
  | cons c l ih =>
    by_cases h : key c ≤ key a
    · rw [insertBy, if_pos h]
      exact (ih.cons c).trans (.swap a c l)
    · rw [insertBy, if_neg h]

theorem InOrder.insertBy (h : InOrder key l) : InOrder key (insertBy key a l) := by
  induction l with
  | nil => simp [Memory.insertBy, InOrder]
  | cons c l ih =>
    obtain ⟨hc, hl⟩ := List.pairwise_cons.mp h
    by_cases hle : key c ≤ key a
    · rw [Memory.insertBy, if_pos hle]
      refine List.pairwise_cons.mpr ⟨fun b hb => ?_, ih hl⟩
      rcases mem_insertBy.mp hb with rfl | hb
      · exact hle
      · exact hc b hb
    · rw [Memory.insertBy, if_neg hle]
      refine List.pairwise_cons.mpr ⟨fun b hb => ?_, h⟩
      rcases List.mem_cons.mp hb with rfl | hb
      · omega
      · have := hc b hb
        omega

/-- An element with the largest key goes to the end. -/
theorem insertBy_last (h : ∀ b ∈ l, key b ≤ key a) : insertBy key a l = l ++ [a] := by
  induction l with
  | nil => rfl
  | cons c l ih =>
    obtain ⟨hc, hl⟩ := List.forall_mem_cons.mp h
    rw [insertBy, if_pos hc, ih hl]
    rfl

theorem insertBy_append_left (h : ∀ b ∈ r, key a < key b) : insertBy key a (l ++ r) = insertBy key a l ++ r := by
  induction l with
  | nil =>
    cases r with
    | nil => rfl
    | cons c r =>
      have hlt := h c (by simp)
      simp [insertBy, Nat.not_le.mpr hlt]
  | cons c l ih =>
    by_cases hle : key c ≤ key a
    · simp [insertBy, hle, ih]
    · simp [insertBy, hle]

theorem insertBy_append_right (h : ∀ b ∈ l, key b ≤ key a) : insertBy key a (l ++ r) = l ++ insertBy key a r := by
  induction l with
  | nil => rfl
  | cons c l ih =>
    obtain ⟨hc, hl⟩ := List.forall_mem_cons.mp h
    simp [insertBy, hc, ih hl]

/-- Another key gives the same place if it compares the same. -/
theorem map_insertBy {f : α → β} {key' : β → ℕ} (h : ∀ b ∈ l, key' (f b) ≤ key' (f a) ↔ key b ≤ key a) :
    (insertBy key a l).map f = insertBy key' (f a) (l.map f) := by
  induction l with
  | nil => rfl
  | cons c l ih =>
    obtain ⟨hc, hl⟩ := List.forall_mem_cons.mp h
    by_cases hle : key c ≤ key a
    · simp [insertBy, hle, hc.mpr hle, ih hl]
    · have hle' : ¬key' (f c) ≤ key' (f a) := fun hx => hle (hc.mp hx)
      simp [insertBy, hle, hle']

end Ln882x.Memory
