import Mathlib.Logic.Relation
import Ln882x.Nor.Wp

/-! Loops that need not end. A round of a loop either goes on from a new state or
leaves the loop with a value. A loop ends from a state if some number of rounds
leaves it: a measure that falls with every round shows that it does, a set of
states that no round leaves shows that it does not. -/

namespace Ln882x.Nor

variable {σ α ι β : Type}

/-- At most `n` rounds: the state the loop would go on from, or the value it left with. -/
def rounds (step : σ → σ ⊕ α) : ℕ → σ → σ ⊕ α
  | 0, s => .inl s
  | n + 1, s =>
    match step s with
    | .inl t => rounds step n t
    | .inr a => .inr a

/-- The loop leaves within `n` rounds. -/
def EndsIn (step : σ → σ ⊕ α) (n : ℕ) (s : σ) : Prop := ∃ a, rounds step n s = .inr a

def Ends (step : σ → σ ⊕ α) (s : σ) : Prop := ∃ n, EndsIn step n s

/-- The loop from `s` gets to a round that starts in `t`. -/
def Heads (step : σ → σ ⊕ α) : σ → σ → Prop := Relation.ReflTransGen fun s t => step s = .inl t

section Rounds
variable {step : σ → σ ⊕ α} {I : σ → Prop} {s t : σ} {n : ℕ}

theorem rounds_inl (h : step s = .inl t) : rounds step (n + 1) s = rounds step n t := by simp only [rounds, h]

theorem rounds_inr {a : α} (h : step s = .inr a) : rounds step (n + 1) s = .inr a := by simp only [rounds, h]

theorem EndsIn.leave {a : α} (h : step s = .inr a) : EndsIn step (n + 1) s := ⟨a, rounds_inr h⟩

theorem EndsIn.round (h : step s = .inl t) (ht : EndsIn step n t) : EndsIn step (n + 1) s := by
  obtain ⟨a, ha⟩ := ht
  exact ⟨a, by rw [rounds_inl h, ha]⟩

theorem EndsIn.ends (h : EndsIn step n s) : Ends step s := ⟨n, h⟩

/-- A measure that falls with every round bounds the number of rounds. -/
theorem EndsIn.of_measure (μ : σ → ℕ) (hstep : ∀ s t, I s → step s = .inl t → I t ∧ μ t < μ s) (hs : I s)
    (hn : μ s < n) : EndsIn step n s := by
  induction n generalizing s with
  | zero => exact absurd hn (Nat.not_lt_zero _)
  | succ n ih =>
    cases h : step s with
    | inr a => exact .leave h
    | inl t =>
      obtain ⟨ht, hlt⟩ := hstep s t hs h
      exact .round h (ih ht (by omega))

/-- A loop that cannot leave a set of states does not end. -/
theorem not_ends (hstep : ∀ s, I s → ∃ t, step s = .inl t ∧ I t) (hs : I s) : ¬Ends step s := by
  rintro ⟨n, a, ha⟩
  induction n generalizing s with
  | zero => cases ha
  | succ n ih =>
    obtain ⟨t, ht, hI⟩ := hstep s hs
    rw [rounds_inl ht] at ha
    exact ih hI ha

/-- What every round keeps holds at the start of every round. -/
theorem Heads.keeps (h : Heads step s t) (hstep : ∀ s t, I s → step s = .inl t → I t) (hs : I s) : I t := by
  induction h with
  | refl => exact hs
  | tail _ hst ih => exact hstep _ _ ih hst

end Rounds

/-! ### Rounds of a stateful program -/

/-- One round of a stateful loop with a loop variable. -/
def roundOf (x : ι → StateM σ (ι ⊕ β)) (p : ι × σ) : (ι × σ) ⊕ (β × σ) :=
  match x p.1 p.2 with
  | (.inl j, t) => .inl (j, t)
  | (.inr b, t) => .inr (b, t)

variable {x : ι → StateM σ (ι ⊕ β)} {i j : ι} {s t : σ}

theorem roundOf_inl (h : x i s = (.inl j, t)) : roundOf x (i, s) = .inl (j, t) := by simp only [roundOf, h]

theorem roundOf_inr {b : β} (h : x i s = (.inr b, t)) : roundOf x (i, s) = .inr (b, t) := by simp only [roundOf, h]

/-- What a specification of the body says of a round that goes on. -/
theorem wp.of_roundOf {P : ι → σ → Prop} (hx : wp (x i) (fun r t => ∀ j, r = .inl j → P j t) s)
    (h : roundOf x (i, s) = .inl (j, t)) : P j t := by
  rcases hr : x i s with ⟨⟨j'⟩ | ⟨b⟩, t'⟩
  · rw [roundOf_inl hr] at h
    cases h
    rw [wp_iff, hr] at hx
    exact hx _ rfl
  · rw [roundOf_inr hr] at h
    cases h

end Ln882x.Nor
