import Ln882x.Nor.Trace

/-! Weakest preconditions of stateful programs. `wp x Q s` says that `x`, run
from `s`, ends with a value and a state in `Q`. The rules follow the program
text: `wp.bind` goes past one call with what its specification says of it. -/

namespace Ln882x.Nor

variable {σ α β : Type}

def wp (x : StateM σ α) (Q : α → σ → Prop) (s : σ) : Prop := Q (x s).1 (x s).2

variable {x : StateM σ α} {k : α → StateM σ β} {P Q : α → σ → Prop} {R : β → σ → Prop} {s : σ}

theorem wp_iff : wp x Q s ↔ Q (x s).1 (x s).2 := Iff.rfl

theorem wp.pure {a : α} (h : Q a s) : wp (Pure.pure a) Q s := h

theorem wp.mono (h : wp x P s) (hPQ : ∀ a t, P a t → Q a t) : wp x Q s := hPQ _ _ h

theorem wp.bind (h : wp x P s) (hk : ∀ a t, P a t → wp (k a) R t) : wp (x >>= k) R s := hk _ _ h

theorem wp.discard {R : Unit → σ → Prop} (h : wp x (fun _ t => R () t) s) : wp (Functor.discard x) R s := h

theorem wp.and (h₁ : wp x P s) (h₂ : wp x Q s) : wp x (fun a t => P a t ∧ Q a t) s := ⟨h₁, h₂⟩

/-- The program itself says where it ends. -/
theorem wp.self : wp x (fun a t => a = (x s).1 ∧ t = (x s).2) s := ⟨rfl, rfl⟩

theorem wp.ite {c : Prop} [Decidable c] {y : StateM σ α} (h₁ : c → wp x Q s) (h₂ : ¬c → wp y Q s) :
    wp (if c then x else y) Q s := by
  split_ifs with h
  · exact h₁ h
  · exact h₂ h

end Ln882x.Nor
