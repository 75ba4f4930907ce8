import Ln882x.Nor.Flash

/-! Naturally aligned units. An erase command clears the whole unit around the address
it names, so a list of erases clears a range exactly only when their units lie end to
end. Such a list is a tiling: each erase starts at a boundary of its own unit, where
the one before it ended. A tiling clears the range between its two ends, each byte
once; and a list whose first erase is off its boundary clears a byte in front. -/

namespace Ln882x.Nor

/-- An erase of one unit: an address inside it and its size. -/
structure UnitErase where
  addr : ℕ
  size : ℕ
  deriving DecidableEq

/-- The bytes of the unit around the address. -/
def UnitErase.Clears (e : UnitErase) (x : ℕ) : Prop := x / e.size = e.addr / e.size

/-- The bytes cleared by a list of erases. -/
def Cleared (es : List UnitErase) (x : ℕ) : Prop := ∃ e ∈ es, e.Clears x

def UnitErase.apply (e : UnitErase) (f : Flash) : Flash :=
  fun x => if x / e.size = e.addr / e.size then 0xFF else f x

/-- Erases lying end to end from the first address to the second. -/
inductive Tiles : ℕ → List UnitErase → ℕ → Prop
  | nil (a : ℕ) : Tiles a [] a
  | cons {a n b : ℕ} {es : List UnitErase} (hn : 0 < n) (ha : n ∣ a) (h : Tiles (a + n) es b) :
    Tiles a (⟨a, n⟩ :: es) b

/-! ### One unit -/

theorem clears_iff {a n x : ℕ} (hn : 0 < n) (ha : n ∣ a) :
    (UnitErase.mk a n).Clears x ↔ a ≤ x ∧ x < a + n := by
  obtain ⟨k, rfl⟩ := ha
  show x / n = n * k / n ↔ n * k ≤ x ∧ x < n * k + n
  rw [Nat.mul_div_cancel_left k hn, Nat.div_eq_iff hn, Nat.mul_comm n k]
  omega

/-- The unit around an address off its boundary begins in front of the address. -/
theorem clears_before {a n : ℕ} (hn : 0 < n) (ha : ¬ n ∣ a) :
    ∃ x, x < a ∧ (UnitErase.mk a n).Clears x := by
  have hd := Nat.div_add_mod a n
  have hm : a % n ≠ 0 := fun h => ha (Nat.dvd_of_mod_eq_zero h)
  refine ⟨n * (a / n), by omega, ?_⟩
  exact Nat.mul_div_cancel_left _ hn

theorem UnitErase.apply_eq (e : UnitErase) (f : Flash) (x : ℕ) (h : ¬ e.Clears x) : e.apply f x = f x :=
  if_neg h

/-! ### A list of erases -/

@[simp] theorem cleared_nil (x : ℕ) : ¬ Cleared [] x := by simp [Cleared]

theorem cleared_cons (e : UnitErase) (es : List UnitErase) (x : ℕ) :
    Cleared (e :: es) x ↔ e.Clears x ∨ Cleared es x := by simp [Cleared]

theorem cleared_append_left {es ds : List UnitErase} {x : ℕ} (h : Cleared es x) : Cleared (es ++ ds) x := by
  obtain ⟨e, he, hx⟩ := h
  exact ⟨e, List.mem_append_left _ he, hx⟩

theorem cleared_append_right {es ds : List UnitErase} {x : ℕ} (h : Cleared ds x) : Cleared (es ++ ds) x := by
  obtain ⟨e, he, hx⟩ := h
  exact ⟨e, List.mem_append_right _ he, hx⟩

theorem foldl_apply (es : List UnitErase) (f : Flash) (x : ℕ) :
    (Cleared es x → es.foldl (fun g e => e.apply g) f x = 0xFF) ∧
      (¬ Cleared es x → es.foldl (fun g e => e.apply g) f x = f x) := by
  induction es generalizing f with
  | nil => simp
  | cons e es ih =>
    rw [List.foldl_cons, cleared_cons]
    by_cases hes : Cleared es x
    · exact ⟨fun _ => (ih _).1 hes, fun h => absurd (.inr hes) h⟩
    · rw [(ih _).2 hes]
      refine ⟨fun h => ?_, fun h => e.apply_eq f x fun he => h (.inl he)⟩
      exact if_pos (h.resolve_right hes)

/-! ### Tilings -/

variable {a b c x : ℕ} {es ds : List UnitErase}

theorem Tiles.le (h : Tiles a es b) : a ≤ b := by
  induction h with
  | nil => exact Nat.le_refl _
  | cons _ _ _ ih => omega

theorem Tiles.append (h : Tiles a es b) (h' : Tiles b ds c) : Tiles a (es ++ ds) c := by
  induction h with
  | nil => exact h'
  | cons hn ha _ ih => exact .cons hn ha (ih h')

/-- A tiling clears the bytes between its ends and no other. -/
theorem Tiles.cleared_iff (h : Tiles a es b) : Cleared es x ↔ a ≤ x ∧ x < b := by
  induction h with
  | nil => simp
  | cons hn ha h ih =>
    have hle := h.le
    rw [cleared_cons, clears_iff hn ha, ih]
    omega

/-- No byte is cleared twice. -/
theorem Tiles.disjoint (h : Tiles a es b) :
    es.Pairwise fun e e' => ∀ x, ¬ (e.Clears x ∧ e'.Clears x) := by
  induction h with
  | nil => exact List.Pairwise.nil
  | cons hn ha h ih =>
    refine List.Pairwise.cons (fun e he x hx => ?_) ih
    have hfirst := (clears_iff hn ha).mp hx.1
    have hlater := h.cleared_iff.mp ⟨e, he, hx.2⟩
    omega

theorem Tiles.aligned (h : Tiles a es b) : ∀ e ∈ es, e.size ∣ e.addr := by
  induction h with
  | nil => simp
  | cons _ ha _ ih => exact List.forall_mem_cons.mpr ⟨ha, ih⟩

/-- On the memory a tiling is one erase of the range. -/
theorem Tiles.foldl_apply_eq (h : Tiles a es b) (f : Flash) :
    es.foldl (fun g e => e.apply g) f = (Op.erase a (b - a)).apply f := by
  funext x
  have hle := h.le
  obtain ⟨hin, hout⟩ := foldl_apply es f x
  by_cases hx : a ≤ x ∧ x < b
  · rw [hin (h.cleared_iff.mpr hx), erase_inside hx.1 (by omega)]
  · rw [hout (h.cleared_iff.not.mpr hx), erase_outside (by omega)]

/-- Units of one size, one after another. -/
def unitsFrom (n : ℕ) : ℕ → ℕ → List UnitErase
  | 0, _ => []
  | k + 1, a => ⟨a, n⟩ :: unitsFrom n k (a + n)

theorem tiles_unitsFrom {n : ℕ} (hn : 0 < n) (k : ℕ) {a : ℕ} (ha : n ∣ a ∨ k = 0) :
    Tiles a (unitsFrom n k a) (a + k * n) := by
  induction k generalizing a with
  | zero => simpa [unitsFrom] using Tiles.nil a
  | succ k ih =>
    have hd : n ∣ a := ha.resolve_right (Nat.succ_ne_zero k)
    have h := Tiles.cons hn hd (ih (.inl (Nat.dvd_add_self_right.mpr hd)))
    rwa [show a + n + k * n = a + (k + 1) * n by rw [Nat.succ_mul]; omega] at h

end Ln882x.Nor
