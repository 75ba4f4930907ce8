import Mathlib.Data.List.Perm.Basic
import Mathlib.Data.List.Nodup

/-! Rows of records read as a map. A list of records whose keys differ holds one
value for each key it has. Only the records count, not their order, so a
rearranged list holds the same map; adding, replacing and dropping one record
updates it at one key. -/

namespace Ln882x.Nor

variable {α κ β : Type} {key : α → κ} {val : α → β}

/-- The records of `l` are the entries of `m`, each once. -/
structure Keyed (key : α → κ) (val : α → β) (l : List α) (m : κ → Option β) : Prop where
  nodup : (l.map key).Nodup
  val_iff : ∀ k v, m k = some v ↔ ∃ a ∈ l, key a = k ∧ val a = v

namespace Keyed
variable {l l' : List α} {m : κ → Option β} {a b : α}

theorem nil : Keyed key val [] fun _ => none := by
  constructor
  · simp
  · simp

theorem perm (h : Keyed key val l m) (hp : l'.Perm l) : Keyed key val l' m := by
  constructor
  · exact (hp.map key).nodup_iff.mpr h.nodup
  · intro k v
    rw [h.val_iff]
    simp only [hp.mem_iff]

theorem get (h : Keyed key val l m) (ha : a ∈ l) : m (key a) = some (val a) := (h.val_iff _ _).mpr ⟨a, ha, rfl, rfl⟩

theorem none_iff (h : Keyed key val l m) {k : κ} : m k = none ↔ ∀ a ∈ l, key a ≠ k := by
  constructor
  · rintro hk a ha rfl
    rw [h.get ha] at hk
    contradiction
  · intro hno
    cases hk : m k with
    | none => rfl
    | some v =>
      obtain ⟨a, ha, hka, -⟩ := (h.val_iff k v).mp hk
      exact absurd hka (hno a ha)

theorem eq_of_key (h : Keyed key val l m) (ha : a ∈ l) (hb : b ∈ l) (hk : key a = key b) : a = b :=
  List.inj_on_of_nodup_map h.nodup ha hb hk

/-- The map is determined by the records. -/
theorem unique {m' : κ → Option β} (h : Keyed key val l m) (h' : Keyed key val l m') : m = m' := by
  funext k
  apply Option.ext
  intro v
  exact (h.val_iff k v).trans (h'.val_iff k v).symm

variable [DecidableEq κ]

theorem cons (h : Keyed key val l m) (hk : m (key a) = none) :
    Keyed key val (a :: l) (Function.update m (key a) (some (val a))) := by
  have hno := h.none_iff.mp hk
  constructor
  · rw [List.map_cons, List.nodup_cons]
    constructor
    · rw [List.mem_map]
      rintro ⟨b, hb, hba⟩
      exact hno b hb hba
    · exact h.nodup
  · intro k v
    by_cases hka : k = key a
    · subst hka
      rw [Function.update_self]
      constructor
      · intro hv
        exact ⟨a, by simp, rfl, Option.some.inj hv⟩
      · rintro ⟨b, hb, hkb, rfl⟩
        rcases List.mem_cons.mp hb with rfl | hb
        · rfl
        · exact absurd hkb (hno b hb)
    · rw [Function.update_of_ne hka, h.val_iff]
      constructor
      · rintro ⟨b, hb, hkb, hv⟩
        exact ⟨b, by simp [hb], hkb, hv⟩
      · rintro ⟨b, hb, hkb, hv⟩
        rcases List.mem_cons.mp hb with rfl | hb
        · exact absurd hkb.symm hka
        · exact ⟨b, hb, hkb, hv⟩

theorem tail (h : Keyed key val (a :: l) m) : Keyed key val l (Function.update m (key a) none) := by
  have hnd := h.nodup
  rw [List.map_cons, List.nodup_cons] at hnd
  constructor
  · exact hnd.2
  · intro k v
    by_cases hka : k = key a
    · subst hka
      rw [Function.update_self]
      constructor
      · intro hv
        contradiction
      · rintro ⟨b, hb, hkb, -⟩
        exact absurd (hkb ▸ List.mem_map_of_mem hb) hnd.1
    · rw [Function.update_of_ne hka, h.val_iff]
      constructor
      · rintro ⟨b, hb, hkb, hv⟩
        rcases List.mem_cons.mp hb with rfl | hb
        · exact absurd hkb.symm hka
        · exact ⟨b, hb, hkb, hv⟩
      · rintro ⟨b, hb, hkb, hv⟩
        exact ⟨b, by simp [hb], hkb, hv⟩

/-- One record in the place of another with the same key. -/
theorem replace (h : Keyed key val (a :: l) m) (hk : key b = key a) :
    Keyed key val (b :: l) (Function.update m (key b) (some (val b))) := by
  have hb := h.tail
  rw [← hk] at hb
  have := hb.cons (a := b) (by rw [Function.update_self])
  rwa [Function.update_idem] at this

end Keyed

end Ln882x.Nor
