import Mathlib.Data.List.Basic
import Mathlib.Data.Nat.Notation

/-! Components that answer operations. An operation may be asked for in some states
only; in every other respect the order of operations is free. An invariant needs one
step, and two components answer alike for ever if they do so for one operation in
related states. -/

namespace Ln882x.Runtime

/-- What an operation answers and leaves, and where it may be asked for. -/
structure Machine (σ ω ρ : Type*) where
  step : σ → ω → ρ × σ
  may : σ → ω → Prop

namespace Machine

variable {σ τ ω ρ : Type*} (M : Machine σ ω ρ) (N : Machine τ ω ρ)

/-- The state after some operations. -/
def after : σ → List ω → σ
  | s, [] => s
  | s, o :: os => after (M.step s o).2 os

/-- What some operations answer. -/
def answers : σ → List ω → List ρ
  | _, [] => []
  | s, o :: os => (M.step s o).1 :: answers (M.step s o).2 os

/-- Every operation is asked for where it may be. -/
def Allowed : σ → List ω → Prop
  | _, [] => True
  | s, o :: os => M.may s o ∧ Allowed (M.step s o).2 os

/-- An invariant: one step keeps it. -/
def Keeps (I : σ → Prop) : Prop := ∀ s o, I s → M.may s o → I (M.step s o).2

/-- Related states answer alike, and stay related. -/
def Refines (R : σ → τ → Prop) : Prop :=
  ∀ s t o, R s t → M.may s o →
    N.may t o ∧ (M.step s o).1 = (N.step t o).1 ∧ R (M.step s o).2 (N.step t o).2

/-- What goes in comes out in order, or is still held. -/
def Conserves {α : Type*} (R : σ → List α → Prop) (input : ω → List α) (output : ρ → List α) : Prop :=
  ∀ s c o, R s c → M.may s o → ∃ c', R (M.step s o).2 c' ∧ output (M.step s o).1 ++ c' = c ++ input o

variable {M N} {s : σ} {t : τ}

@[simp] theorem after_nil : M.after s [] = s := rfl

@[simp] theorem after_cons (o : ω) (os : List ω) : M.after s (o :: os) = M.after (M.step s o).2 os := rfl

theorem after_append (os os' : List ω) : M.after s (os ++ os') = M.after (M.after s os) os' := by
  induction os generalizing s with
  | nil => rfl
  | cons o os ih => exact ih

theorem after_concat (os : List ω) (o : ω) : M.after s (os ++ [o]) = (M.step (M.after s os) o).2 := by
  rw [after_append, after_cons, after_nil]

theorem allowed_of_free (h : ∀ s o, M.may s o) (os : List ω) : M.Allowed s os := by
  induction os generalizing s with
  | nil => trivial
  | cons o os ih => exact ⟨h s o, ih⟩

/-- An invariant holds after every run. -/
theorem Keeps.after {I : σ → Prop} (h : M.Keeps I) {os : List ω} (hs : I s) (ha : M.Allowed s os) :
    I (M.after s os) := by
  induction os generalizing s with
  | nil => exact hs
  | cons o os ih => exact ih (h s o hs ha.1) ha.2

/-- The same for what every step keeps, whether it may be asked for or not. -/
theorem after_of_step {I : σ → Prop} (h : ∀ s o, I s → I (M.step s o).2) (os : List ω) (hs : I s) :
    I (M.after s os) := by
  induction os generalizing s with
  | nil => exact hs
  | cons o os ih => exact ih (h s o hs)

/-- The answers of a run are those of the other component. -/
theorem Refines.run {R : σ → τ → Prop} (h : M.Refines N R) {os : List ω} (hr : R s t) (ha : M.Allowed s os) :
    N.Allowed t os ∧ M.answers s os = N.answers t os ∧ R (M.after s os) (N.after t os) := by
  induction os generalizing s t with
  | nil => exact ⟨trivial, rfl, hr⟩
  | cons o os ih =>
    obtain ⟨hmay, hanswer, hnext⟩ := h s t o hr ha.1
    obtain ⟨hallowed, hanswers, hafter⟩ := ih hnext ha.2
    refine ⟨⟨hmay, hallowed⟩, ?_, hafter⟩
    rw [answers, answers, hanswer, hanswers]

/-- What has come out in a run and what is still held are what was held and what went in. -/
theorem Conserves.run {α : Type*} {R : σ → List α → Prop} {input : ω → List α} {output : ρ → List α}
    (h : M.Conserves R input output) {os : List ω} {c : List α} (hr : R s c) (ha : M.Allowed s os) :
    ∃ c', R (M.after s os) c' ∧ (M.answers s os).flatMap output ++ c' = c ++ os.flatMap input := by
  induction os generalizing s c with
  | nil => exact ⟨c, hr, (List.append_nil c).symm⟩
  | cons o os ih =>
    obtain ⟨held, hheld, hone⟩ := h s c o hr ha.1
    obtain ⟨rest, hrest, hrun⟩ := ih hheld ha.2
    refine ⟨rest, hrest, ?_⟩
    rw [answers, List.flatMap_cons, List.append_assoc, hrun, ← List.append_assoc, hone, List.append_assoc,
      List.flatMap_cons]

end Machine

end Ln882x.Runtime
