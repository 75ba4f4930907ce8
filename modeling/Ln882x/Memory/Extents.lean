import Mathlib.Data.List.Basic
import Mathlib.Algebra.BigOperators.Group.List.Basic
import Mathlib.Tactic.Linarith

/-! Ranges of addresses in ascending order, as a list of free memory keeps them. A
range that is put back joins the range that ends where it starts and the one that
starts where it ends. If no two ranges of the list touched before, none do after; so
a hole of free memory, however it came about, lies in one range of the list. -/

namespace Ln882x.Memory

/-- A range of addresses. -/
structure Extent where
  addr : ℕ
  size : ℕ
  deriving DecidableEq

namespace Extent

def stop (e : Extent) : ℕ := e.addr + e.size

def Has (e : Extent) (x : ℕ) : Prop := e.addr ≤ x ∧ x < e.stop

def Apart (e d : Extent) : Prop := e.stop ≤ d.addr ∨ d.stop ≤ e.addr

/-- The first lies in front of the second. -/
def Before (e d : Extent) : Prop := e.addr < d.addr ∧ e.stop ≤ d.addr

theorem Apart.symm {e d : Extent} (h : e.Apart d) : d.Apart e := Or.symm h

instance : Std.Symm Extent.Apart := ⟨fun _ _ h => h.symm⟩

theorem Before.apart {e d : Extent} (h : e.Before d) : e.Apart d := .inl h.2

end Extent

def total (l : List Extent) : ℕ := (l.map Extent.size).sum

@[simp] theorem total_nil : total [] = 0 := rfl

@[simp] theorem total_cons (e : Extent) (l : List Extent) : total (e :: l) = e.size + total l := by simp [total]

@[simp] theorem total_append (l r : List Extent) : total (l ++ r) = total l + total r := by simp [total]

theorem size_le_total {e : Extent} {l : List Extent} (h : e ∈ l) : e.size ≤ total l := by
  induction l with
  | nil => simp at h
  | cons d l ih =>
    rcases List.mem_cons.mp h with rfl | h
    · simp
    · have := ih h
      simp
      omega

/-- The bytes of a list of ranges. -/
def Covers (l : List Extent) (x : ℕ) : Prop := ∃ e ∈ l, e.Has x

@[simp] theorem covers_nil (x : ℕ) : ¬Covers [] x := by simp [Covers]

@[simp] theorem covers_cons (e : Extent) (l : List Extent) (x : ℕ) : Covers (e :: l) x ↔ e.Has x ∨ Covers l x := by
  simp [Covers]

@[simp] theorem covers_append (l r : List Extent) (x : ℕ) : Covers (l ++ r) x ↔ Covers l x ∨ Covers r x := by
  simp [Covers, or_and_right, exists_or]

def Ascending (l : List Extent) : Prop := l.Pairwise Extent.Before

theorem Ascending.compare {l : List Extent} (h : Ascending l) {e d : Extent} (he : e ∈ l) (hd : d ∈ l) :
    e = d ∨ e.Before d ∨ d.Before e := by
  induction l with
  | nil => simp at he
  | cons c l ih =>
    obtain ⟨hc, hl⟩ := List.pairwise_cons.mp h
    rcases List.mem_cons.mp he with rfl | hel <;> rcases List.mem_cons.mp hd with rfl | hdl
    · exact .inl rfl
    · exact .inr (.inl (hc d hdl))
    · exact .inr (.inr (hc e hel))
    · exact ih hl hel hdl

theorem Ascending.nodup {l : List Extent} (h : Ascending l) : (l.map Extent.addr).Nodup := by
  rw [List.nodup_iff_pairwise_ne, List.pairwise_map]
  exact h.imp fun hb => Nat.ne_of_lt hb.1

/-- No range ends where another starts. -/
def Coalesced (l : List Extent) : Prop := ∀ e ∈ l, ∀ d ∈ l, 0 < e.size → 0 < d.size → e.stop ≠ d.addr

theorem Coalesced.of_subset {l r : List Extent} (h : Coalesced l) (hs : ∀ e ∈ r, e ∈ l) : Coalesced r :=
  fun e he d hd => h e (hs e he) d (hs d hd)

/-! ### Putting a range back -/

/-- The list is `pre`, the range `l` if any, the range `r` if any, `post`; the new range goes
between `l` and `r` and touches both. A range at the address `last` is the end of the list and
is never joined. -/
structure Join (last : ℕ) (b : Extent) (pre : List Extent) (l r : Option Extent) (post : List Extent) : Prop where
  left : ∀ e ∈ l, e.addr < b.addr ∧ e.stop = b.addr
  right : ∀ e ∈ r, b.stop = e.addr ∧ e.addr ≠ last
  leftNone : l = none → ∀ e ∈ pre, e.stop ≠ b.addr
  rightNone : r = none → ∀ e ∈ post, b.stop = e.addr → e.addr = last

/-- The list before. -/
def joinList (pre : List Extent) (l r : Option Extent) (post : List Extent) : List Extent :=
  pre ++ (l.toList ++ (r.toList ++ post))

/-- The new range with what it touches. -/
def joined (b : Extent) (l r : Option Extent) : Extent :=
  ⟨(l.getD b).addr, total l.toList + b.size + total r.toList⟩

section Join
variable {last x : ℕ} {b : Extent} {pre post : List Extent} {l r : Option Extent}

theorem mem_joinList {e : Extent} : e ∈ joinList pre l r post ↔ e ∈ pre ∨ e ∈ l ∨ e ∈ r ∨ e ∈ post := by
  simp [joinList]

theorem mem_joinList_of_mem {e : Extent} (h : e ∈ pre ∨ e ∈ post) : e ∈ joinList pre l r post := by
  rw [mem_joinList]
  tauto

theorem total_join : total (pre ++ joined b l r :: post) = total (joinList pre l r post) + b.size := by
  simp [joinList, joined]
  omega

namespace Join
variable (h : Join last b pre l r post)
include h

theorem stop_joined : (joined b l r).stop = (r.getD b).stop := by
  have hleft : (l.getD b).addr + total l.toList = b.addr := by
    cases l with
    | none => simp
    | some e => simpa [Extent.stop] using (h.left e rfl).2
  cases r with
  | none =>
    simp only [joined, Extent.stop, Option.getD_none, Option.toList_none, total_nil]
    omega
  | some d =>
    have hd := (h.right d rfl).1
    simp only [joined, Extent.stop, Option.getD_some, Option.toList_some, total_cons, total_nil] at *
    omega

theorem addr_joined_le : (joined b l r).addr ≤ b.addr := by
  cases l with
  | none => exact le_rfl
  | some e =>
    have he : e.addr + e.size = b.addr := (h.left e rfl).2
    show e.addr ≤ b.addr
    omega

theorem le_stop_joined : b.stop ≤ (joined b l r).stop := by
  rw [h.stop_joined]
  cases r with
  | none => exact le_rfl
  | some d =>
    have hd : b.stop = d.addr := (h.right d rfl).1
    show b.stop ≤ d.addr + d.size
    omega

theorem has_joined : (joined b l r).Has x ↔ Covers l.toList x ∨ b.Has x ∨ Covers r.toList x := by
  have hle := h.addr_joined_le
  have hs := h.stop_joined
  have hleft : Covers l.toList x ↔ (joined b l r).addr ≤ x ∧ x < b.addr := by
    cases l with
    | none =>
      simp only [Option.toList_none, covers_nil, joined, Option.getD_none, false_iff]
      omega
    | some e =>
      have he : e.addr + e.size = b.addr := (h.left e rfl).2
      simp only [Option.toList_some, covers_cons, covers_nil, or_false, joined, Option.getD_some, Extent.Has, Extent.stop, he]
  have hright : Covers r.toList x ↔ b.stop ≤ x ∧ x < (joined b l r).stop := by
    rw [hs]
    cases r with
    | none =>
      simp only [Option.toList_none, covers_nil, Option.getD_none, false_iff]
      omega
    | some d =>
      have hd : b.stop = d.addr := (h.right d rfl).1
      simp only [Option.toList_some, covers_cons, covers_nil, or_false, Option.getD_some, Extent.Has, hd]
  have hb := h.le_stop_joined
  rw [hleft, hright]
  simp only [Extent.Has]
  have : b.addr ≤ b.stop := Nat.le_add_right _ _
  omega

theorem covers : Covers (pre ++ joined b l r :: post) x ↔ Covers (joinList pre l r post) x ∨ b.Has x := by
  simp only [joinList, covers_append, covers_cons, h.has_joined]
  tauto

/-- What was apart from the list and from the new range is apart from the list after. -/
theorem apart {a : Extent} (hb : b.Apart a) (ha : ∀ e ∈ joinList pre l r post, e.Apart a) (hpos : 0 < b.size) (hapos : 0 < a.size) :
    ∀ e ∈ pre ++ joined b l r :: post, e.Apart a := by
  have hleft : b.Apart ⟨a.addr, a.size⟩ → (joined b l r).addr ≤ b.addr ∧ (a.addr < b.addr → a.stop ≤ (joined b l r).addr) := by
    intro _
    refine ⟨h.addr_joined_le, fun hlt => ?_⟩
    cases l with
    | none =>
      simp only [joined, Option.getD_none, Extent.Apart, Extent.stop] at *
      omega
    | some e =>
      have he : e.addr + e.size = b.addr := (h.left e rfl).2
      have hea := ha e (mem_joinList.mpr (.inr (.inl rfl)))
      simp only [joined, Option.getD_some, Extent.Apart, Extent.stop] at *
      omega
  have hright : b.addr < a.addr → (joined b l r).stop ≤ a.addr := by
    intro hlt
    rw [h.stop_joined]
    cases r with
    | none =>
      simp only [Option.getD_none, Extent.Apart, Extent.stop] at *
      omega
    | some d =>
      have hd : b.addr + b.size = d.addr := (h.right d rfl).1
      have hda := ha d (mem_joinList.mpr (.inr (.inr (.inl rfl))))
      simp only [Option.getD_some, Extent.Apart, Extent.stop] at *
      omega
  intro e he
  rcases List.mem_append.mp he with hp | hp
  · exact ha e (mem_joinList_of_mem (.inl hp))
  rcases List.mem_cons.mp hp with rfl | hp
  · obtain ⟨hle, hl⟩ := hleft hb
    rcases Nat.lt_trichotomy a.addr b.addr with hlt | heq | hgt
    · exact .inr (hl hlt)
    · simp only [Extent.Apart, Extent.stop] at hb
      omega
    · exact .inl (hright hgt)
  · exact ha e (mem_joinList_of_mem (.inr hp))

section Order
variable (hasc : Ascending (joinList pre l r post)) (hbelow : ∀ e ∈ pre, e.Before b) (habove : ∀ e ∈ post, b.Before e)
include hasc hbelow habove

/-- The new range with what it touches lies between the two parts. -/
theorem before_joined : (∀ e ∈ pre, e.Before (joined b l r)) ∧ ∀ e ∈ post, (joined b l r).Before e := by
  unfold Ascending joinList at hasc
  rw [List.pairwise_append, List.pairwise_append, List.pairwise_append] at hasc
  obtain ⟨-, ⟨-, ⟨-, -, hrp⟩, -⟩, hx⟩ := hasc
  constructor
  · intro e he
    cases l with
    | none => exact hbelow e he
    | some d => exact hx e he d (by simp)
  · intro e he
    have hb := habove e he
    refine ⟨h.addr_joined_le.trans_lt hb.1, ?_⟩
    rw [h.stop_joined]
    cases r with
    | none => exact hb.2
    | some d => exact (hrp d (by simp) e he).2

theorem ascending : Ascending (pre ++ joined b l r :: post) := by
  obtain ⟨hfront, hbehind⟩ := h.before_joined hasc hbelow habove
  unfold Ascending joinList at hasc
  rw [List.pairwise_append, List.pairwise_append, List.pairwise_append] at hasc
  obtain ⟨hpre, ⟨-, ⟨-, hpost, -⟩, -⟩, hx⟩ := hasc
  rw [Ascending, List.pairwise_append]
  refine ⟨hpre, List.pairwise_cons.mpr ⟨hbehind, hpost⟩, fun e he d hd => ?_⟩
  rcases List.mem_cons.mp hd with rfl | hd
  · exact hfront e he
  · exact hx e he d (by simp [hd])

/-- If no two ranges touched, none do after; the end of the list is empty. -/
theorem coalesced (hpos : 0 < b.size) (hc : Coalesced (joinList pre l r post))
    (hlast : ∀ e ∈ joinList pre l r post, e.addr = last → e.size = 0) : Coalesced (pre ++ joined b l r :: post) := by
  obtain ⟨hfront, hbehind⟩ := h.before_joined hasc hbelow habove
  have hadd := h.addr_joined_le
  have hstop := h.le_stop_joined
  -- the new range and another range of the list, in either order
  have hin : ∀ e, e ∈ pre ∨ e ∈ post → 0 < e.size → e.stop ≠ (joined b l r).addr ∧ (joined b l r).stop ≠ e.addr := by
    intro e he hep
    have hmem : e ∈ joinList pre l r post := mem_joinList_of_mem he
    constructor
    · rcases he with he | he
      · cases l with
        | none => exact h.leftNone rfl e he
        | some d =>
          obtain ⟨hlt, hd⟩ := h.left d rfl
          have hdp : 0 < d.size := by
            simp only [Extent.stop] at hd
            omega
          exact hc e hmem d (mem_joinList.mpr (.inr (.inl rfl))) hep hdp
      · have hb := hbehind e he
        simp only [Extent.Before, Extent.stop] at *
        omega
    · rcases he with he | he
      · have hb := hfront e he
        simp only [Extent.Before, Extent.stop] at *
        omega
      · rw [h.stop_joined]
        cases r with
        | none =>
          intro heq
          have := hlast e hmem (h.rightNone rfl e he heq)
          omega
        | some d =>
          have hdmem : d ∈ joinList pre l (some d) post := mem_joinList.mpr (.inr (.inr (.inl rfl)))
          by_cases hd0 : d.size = 0
          · -- an empty range that is joined leaves the one behind it apart
            have hbd : d.Before e ∨ e.Before d := by
              rcases hasc.compare hdmem hmem with rfl | hx
              · omega
              · exact hx
            have hd : b.stop = d.addr := (h.right d rfl).1
            have hbe := habove e he
            simp only [Option.getD_some, Extent.Before, Extent.stop] at *
            omega
          · exact hc d hdmem e hmem (by omega) hep
  intro e he d hd hep hdp
  rw [List.mem_append, List.mem_cons] at he hd
  rcases or_left_comm.mp he with rfl | he <;> rcases or_left_comm.mp hd with rfl | hd
  · simp only [Extent.stop]
    omega
  · exact (hin d hd hdp).2
  · exact (hin e he hep).1
  · exact hc e (mem_joinList_of_mem he) d (mem_joinList_of_mem hd) hep hdp

end Order

end Join
end Join

/-! ### Holes -/

/-- A hole in what the ranges cover lies in one of them. -/
theorem Coalesced.hole {l : List Extent} (hc : Coalesced l) (ha : Ascending l) {a n : ℕ} (hn : 0 < n)
    (hh : ∀ x, a ≤ x → x < a + n → Covers l x) : ∃ e ∈ l, e.addr ≤ a ∧ a + n ≤ e.stop := by
  obtain ⟨e, he, hlo, hhi⟩ := hh a le_rfl (by omega)
  refine ⟨e, he, hlo, ?_⟩
  by_contra hlt
  obtain ⟨d, hd, hdlo, hdhi⟩ := hh e.stop (by omega) (by omega)
  have hep : 0 < e.size := by
    simp only [Extent.stop] at *
    omega
  have hdp : 0 < d.size := by
    simp only [Extent.stop] at *
    omega
  have hord := ha.compare he hd
  have hne := hc e he d hd hep hdp
  rcases hord with rfl | hord
  · omega
  · simp only [Extent.Before, Extent.stop] at *
    omega

end Ln882x.Memory
