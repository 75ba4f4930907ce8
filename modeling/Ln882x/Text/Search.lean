import Mathlib.Data.List.Basic
import Mathlib.Data.Nat.Notation

/-! Searches in a text from a position on. A position is what is left of the text;
a search hands out the first position that matches, or nothing. A text that cannot
hold the first symbol of what is searched is skipped as a whole. -/

namespace Ln882x.Text

variable {α : Type*} [DecidableEq α]

/-- The first position at which the needle starts. -/
def find (needle : List α) : List α → Option (List α)
  | [] => if needle = [] then some [] else none
  | a :: s => if needle <+: a :: s then some (a :: s) else find needle s

/-- The first position of a symbol. -/
def findSymbol (c : α) : List α → Option (List α)
  | [] => none
  | a :: s => if a = c then some (a :: s) else findSymbol c s

/-- What comes before the first position of a symbol. -/
def before (c : α) (s : List α) : List α := s.takeWhile (· ≠ c)

theorem findSymbol_append {c : α} {pre : List α} (h : c ∉ pre) (s : List α) :
    findSymbol c (pre ++ c :: s) = some (c :: s) := by
  induction pre with
  | nil => rw [List.nil_append, findSymbol, if_pos rfl]
  | cons a pre ih =>
    rw [List.mem_cons, not_or] at h
    rw [List.cons_append, findSymbol, if_neg (Ne.symm h.1), ih h.2]

/-- A symbol is found exactly if it occurs. -/
theorem findSymbol_eq_none_iff {c : α} {s : List α} : findSymbol c s = none ↔ c ∉ s := by
  induction s with
  | nil => exact iff_of_true rfl List.not_mem_nil
  | cons a s ih =>
    rw [findSymbol, List.mem_cons, not_or]
    by_cases h : a = c
    · rw [if_pos h]
      exact iff_of_false (Option.some_ne_none _) fun hne => hne.1 h.symm
    · rw [if_neg h, ih]
      exact (and_iff_right (Ne.symm h)).symm

/-- Where a symbol was found, and that it is not there before. -/
theorem findSymbol_split {c : α} {s t : List α} (h : findSymbol c s = some t) :
    ∃ pre post, s = pre ++ c :: post ∧ c ∉ pre ∧ t = c :: post := by
  have hmem : c ∈ s := by
    by_contra hnot
    rw [findSymbol_eq_none_iff.mpr hnot] at h
    cases h
  obtain ⟨pre, post, rfl, hpre⟩ := List.eq_append_cons_of_mem hmem
  rw [findSymbol_append hpre] at h
  exact ⟨pre, post, rfl, hpre, (Option.some.inj h).symm⟩

theorem before_append {c : α} {pre : List α} (h : c ∉ pre) (s : List α) : before c (pre ++ c :: s) = pre := by
  induction pre with
  | nil => simp [before]
  | cons a pre ih =>
    rw [List.mem_cons, not_or] at h
    have hne : a ≠ c := Ne.symm h.1
    unfold before at ih ⊢
    rw [List.cons_append, List.takeWhile_cons, if_pos (by simpa using hne), ih h.2]

end Ln882x.Text
