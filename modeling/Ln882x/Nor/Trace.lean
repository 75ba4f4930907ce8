import Ln882x.Nor.Flash

/-! Programs that drive a flash, and where the power can be cut in them. A
device keeps its content and the list of driver calls made so far. A power cut
between two calls leaves the content after a prefix of that list, so a program
survives every cut under a condition `C` when every prefix of its calls leads
to content satisfying `C`. -/

namespace Ln882x.Nor

/-! ### Running a stateful program -/

section Run
variable {σ α β : Type}

theorem run_bind (x : StateM σ α) (k : α → StateM σ β) (s : σ) :
    (x >>= k) s = k (x s).1 (x s).2 := rfl

theorem run_pure (a : α) (s : σ) : (pure a : StateM σ α) s = (a, s) := rfl

theorem run_ite (c : Prop) [Decidable c] (x y : StateM σ α) (s : σ) :
    (if c then x else y) s = if c then x s else y s := by split_ifs <;> rfl

/-- The first program ran to `(a, t)`: go on from there. -/
theorem run_bind_eq {x : StateM σ α} {k : α → StateM σ β} {s t : σ} {a : α} (h : x s = (a, t)) :
    (x >>= k) s = k a t := by rw [run_bind, h]

end Run

/-! ### Driver calls -/

def applyAll (ops : List Op) (f : Flash) : Flash := ops.foldl (fun f o => o.apply f) f

@[simp] theorem applyAll_nil (f : Flash) : applyAll [] f = f := rfl

@[simp] theorem applyAll_cons (o : Op) (ops : List Op) (f : Flash) :
    applyAll (o :: ops) f = applyAll ops (o.apply f) := rfl

theorem applyAll_append (xs ys : List Op) (f : Flash) :
    applyAll (xs ++ ys) f = applyAll ys (applyAll xs f) := List.foldl_append

/-- A byte that no call touches keeps its value. -/
theorem applyAll_outside {ops : List Op} {x : ℕ} (f : Flash) (h : ∀ o ∈ ops, x < o.addr ∨ o.addr + o.len ≤ x) :
    applyAll ops f x = f x := by
  induction ops generalizing f with
  | nil => rfl
  | cons o ops ih =>
    rw [applyAll_cons, ih _ fun o' ho' => h o' (List.mem_cons_of_mem o ho'), apply_outside o (h o List.mem_cons_self)]

/-- A flash together with the driver calls made on it, oldest first. -/
structure Dev where
  flash : Flash
  ops : List Op

namespace Dev

/-- A device just powered up: no call made yet. -/
def on (f : Flash) : Dev := ⟨f, []⟩

def exec (o : Op) (d : Dev) : Dev := ⟨o.apply d.flash, d.ops ++ [o]⟩

@[simp] theorem exec_flash (o : Op) (d : Dev) : (d.exec o).flash = o.apply d.flash := rfl

theorem readBytes_exec_disjoint (d : Dev) (o : Op) {addr len : ℕ}
    (h : addr + len ≤ o.addr ∨ o.addr + o.len ≤ addr) :
    readBytes (d.exec o).flash addr len = readBytes d.flash addr len :=
  readBytes_apply_disjoint o d.flash h

/-- The content left when the power is cut after the first `j` calls made since `on f`. -/
def cut (f : Flash) (j : ℕ) (d : Dev) : Flash := applyAll (d.ops.take j) f

/-- `d'` is reached from `d` by driver calls, and the content satisfies `C` before the
first of them, between any two and after the last. -/
def Steps (C : Flash → Prop) (d d' : Dev) : Prop :=
  ∃ ops, d'.ops = d.ops ++ ops ∧ d'.flash = applyAll ops d.flash ∧
    ∀ j, C (applyAll (ops.take j) d.flash)

variable {C C' : Flash → Prop} {d d₁ d₂ : Dev}

theorem Steps.refl (h : C d.flash) : Steps C d d := ⟨[], by simp, rfl, fun j => by simpa using h⟩

theorem Steps.start (h : Steps C d d₁) : C d.flash := by
  obtain ⟨ops, -, -, hc⟩ := h
  simpa using hc 0

theorem Steps.end (h : Steps C d d₁) : C d₁.flash := by
  obtain ⟨ops, -, hf, hc⟩ := h
  rw [hf]
  simpa using hc ops.length

theorem Steps.trans (h₁ : Steps C d d₁) (h₂ : Steps C d₁ d₂) : Steps C d d₂ := by
  obtain ⟨xs, hx, fx, cx⟩ := h₁
  obtain ⟨ys, hy, fy, cy⟩ := h₂
  refine ⟨xs ++ ys, by rw [hy, hx, List.append_assoc], by rw [fy, fx, applyAll_append], fun j => ?_⟩
  rw [List.take_append, applyAll_append]
  by_cases hj : j ≤ xs.length
  · simpa [Nat.sub_eq_zero_of_le hj] using cx j
  · rw [List.take_of_length_le (l := xs) (by omega), ← fx]
    exact cy _

/-- One driver call. -/
theorem Steps.exec (o : Op) (h₀ : C d.flash) (h₁ : C (o.apply d.flash)) : Steps C d (d.exec o) := by
  refine ⟨[o], rfl, rfl, fun j => ?_⟩
  cases j with
  | zero => simpa using h₀
  | succ j => simpa using h₁

theorem Steps.mono (h : Steps C d d₁) (hC : ∀ f, C f → C' f) : Steps C' d d₁ := by
  obtain ⟨ops, ho, hf, hc⟩ := h
  exact ⟨ops, ho, hf, fun j => hC _ (hc j)⟩

/-- Driver calls that leave the content as it is. -/
def Still (d d' : Dev) : Prop := Steps (· = d.flash) d d'

theorem Still.refl (d : Dev) : Still d d := Steps.refl rfl

theorem Still.flash (h : Still d d₁) : d₁.flash = d.flash := Steps.end (C := (· = d.flash)) h

theorem Still.steps (h : Still d d₁) (hC : C d.flash) : Steps C d d₁ :=
  Steps.mono h fun f hf => by rwa [hf]

theorem Still.trans (h₁ : Still d d₁) (h₂ : Still d₁ d₂) : Still d d₂ :=
  Steps.trans h₁ (Still.steps (C := (· = d.flash)) h₂ h₁.flash)

theorem Still.exec {o : Op} (h : o.apply d.flash = d.flash) : Still d (d.exec o) :=
  Steps.exec (C := (· = d.flash)) o rfl h

/-- Every power cut during a run from `on f` meets the run's crash condition. -/
theorem Steps.cut {f : Flash} (h : Steps C (on f) d) (j : ℕ) : C (d.cut f j) := by
  obtain ⟨ops, ho, -, hc⟩ := h
  simp only [on, List.nil_append] at ho
  simpa [Dev.cut, ho, on] using hc j

end Dev

end Ln882x.Nor
