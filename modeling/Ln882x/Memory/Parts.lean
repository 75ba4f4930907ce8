import Ln882x.Memory.Extents

/-! Regions of memory cut into parts. Some parts are in a list in the order of their
addresses, the others are in hand. Together they cover the regions, no two overlap,
and no two of the list touch. The list may also hold the ends of regions, as empty
ranges. A part goes from the list to the hand, is cut in two there, and goes back,
joined with what it touches. -/

namespace Ln882x.Memory

/-- The addresses from `lo` up to `hi`, with a mark at `hi`. -/
structure Region where
  lo : ℕ
  hi : ℕ
  deriving DecidableEq

def Region.bytes (r : Region) : ℕ := r.hi - r.lo

/-- Regions in the order of their addresses. -/
def Separate (R : List Region) : Prop := (∀ r ∈ R, r.lo < r.hi) ∧ R.Pairwise fun r s => r.hi < s.lo

/-- Two regions with an address in common are the same. -/
theorem Separate.same {R : List Region} (h : Separate R) {r s : Region} (hr : r ∈ R) (hs : s ∈ R) {x : ℕ} (hrl : r.lo ≤ x)
    (hrh : x ≤ r.hi) (hsl : s.lo ≤ x) (hsh : x ≤ s.hi) : r = s := by
  obtain ⟨-, h⟩ := h
  induction R with
  | nil => simp at hr
  | cons q R ih =>
    obtain ⟨hq, hR⟩ := List.pairwise_cons.mp h
    rcases List.mem_cons.mp hr with rfl | hr' <;> rcases List.mem_cons.mp hs with rfl | hs'
    · rfl
    · have := hq s hs'
      omega
    · have := hq r hr'
      omega
    · exact ih hr' hs' hR

/-- A part lies in one region, in whole units. -/
def IsPart (R : List Region) (unit : ℕ) (e : Extent) : Prop :=
  ∃ r ∈ R, r.lo ≤ e.addr ∧ e.stop ≤ r.hi ∧ unit ∣ e.addr ∧ unit ∣ e.size ∧ 0 < e.size

/-- The empty range at the end of a region. -/
def IsMark (R : List Region) (e : Extent) : Prop := ∃ r ∈ R, e = ⟨r.hi, 0⟩

/-- `N` is the list, `A` is in hand. -/
structure Parts (R : List Region) (unit : ℕ) (N A : List Extent) : Prop where
  separate : Separate R
  node : ∀ e ∈ N, IsPart R unit e ∨ IsMark R e
  hand : ∀ a ∈ A, IsPart R unit a
  asc : Ascending N
  apart : ∀ e ∈ N, ∀ a ∈ A, e.Apart a
  handApart : A.Pairwise Extent.Apart
  coalesced : Coalesced N
  cover : ∀ r ∈ R, ∀ x, r.lo ≤ x → x < r.hi → Covers (N ++ A) x

namespace Parts
variable {R : List Region} {unit last : ℕ} {N A B : List Extent} {b e : Extent} {pre post : List Extent} {l r : Option Extent}

theorem perm (h : Parts R unit N A) (hp : A.Perm B) : Parts R unit N B where
  separate := h.separate
  node := h.node
  hand := fun a ha => h.hand a (hp.mem_iff.mpr ha)
  asc := h.asc
  apart := fun e he a ha => h.apart e he a (hp.mem_iff.mpr ha)
  handApart := (hp.pairwise_iff fun hx => hx.symm).mp h.handApart
  coalesced := h.coalesced
  cover := by
    intro r hr x hlo hhi
    obtain ⟨e, he, hx⟩ := h.cover r hr x hlo hhi
    refine ⟨e, ?_, hx⟩
    rw [List.mem_append] at he ⊢
    exact he.imp_right hp.mem_iff.mp

/-- A part of the list is taken in hand. -/
theorem take (h : Parts R unit (pre ++ e :: post) A) (hpos : 0 < e.size) : Parts R unit (pre ++ post) (e :: A) := by
  have hmem : ∀ d ∈ pre ++ post, d ∈ pre ++ e :: post := by simp; tauto
  have he : e ∈ pre ++ e :: post := by simp
  have hasc := h.asc
  rw [Ascending, List.pairwise_append, List.pairwise_cons] at hasc
  obtain ⟨hpre, ⟨hpost, hposts⟩, hcross⟩ := hasc
  refine ⟨h.separate, fun d hd => h.node d (hmem d hd), ?_, ?_, ?_, ?_, h.coalesced.of_subset hmem, ?_⟩
  · refine List.forall_mem_cons.mpr ⟨(h.node e he).resolve_right ?_, h.hand⟩
    rintro ⟨r, -, rfl⟩
    exact absurd hpos (lt_irrefl 0)
  · exact List.pairwise_append.mpr ⟨hpre, hposts, fun d hd c hc => hcross d hd c (by simp [hc])⟩
  · intro d hd
    refine List.forall_mem_cons.mpr ⟨?_, h.apart d (hmem d hd)⟩
    rcases List.mem_append.mp hd with hd | hd
    · exact (hcross d hd e (by simp)).apart
    · exact (hpost d hd).apart.symm
  · exact List.pairwise_cons.mpr ⟨h.apart e he, h.handApart⟩
  · intro r hr x hlo hhi
    have := h.cover r hr x hlo hhi
    simp only [covers_append, covers_cons] at this ⊢
    tauto

/-- A part in hand is cut in two. -/
theorem split (h : Parts R unit N (e :: A)) {w : ℕ} (hw : 0 < w) (hlt : w < e.size) (hd : unit ∣ w) :
    Parts R unit N (⟨e.addr, w⟩ :: ⟨e.addr + w, e.size - w⟩ :: A) := by
  have hsub : ∀ d : Extent, e.Apart d → Extent.Apart ⟨e.addr, w⟩ d ∧ Extent.Apart ⟨e.addr + w, e.size - w⟩ d := by
    intro d hd
    simp only [Extent.Apart, Extent.stop] at *
    omega
  obtain ⟨⟨r, hr, hlo, hhi, ha, hs, -⟩, hA⟩ := List.forall_mem_cons.mp h.hand
  obtain ⟨hap, hAp⟩ := List.pairwise_cons.mp h.handApart
  refine ⟨h.separate, h.node, ?_, h.asc, ?_, ?_, h.coalesced, ?_⟩
  · refine List.forall_mem_cons.mpr ⟨⟨r, hr, hlo, ?_, ha, hd, hw⟩, List.forall_mem_cons.mpr
      ⟨⟨r, hr, ?_, ?_, Nat.dvd_add ha hd, Nat.dvd_sub hs hd, ?_⟩, hA⟩⟩
    all_goals simp only [Extent.stop] at *; omega
  · intro d hdN
    have hde := h.apart d hdN e (by simp)
    refine List.forall_mem_cons.mpr ⟨(hsub d hde.symm).1.symm, List.forall_mem_cons.mpr ⟨(hsub d hde.symm).2.symm, ?_⟩⟩
    exact fun a haA => h.apart d hdN a (by simp [haA])
  · refine List.pairwise_cons.mpr ⟨?_, List.pairwise_cons.mpr ⟨fun a ha => (hsub a (hap a ha)).2, hAp⟩⟩
    refine List.forall_mem_cons.mpr ⟨?_, fun a ha => (hsub a (hap a ha)).1⟩
    simp [Extent.Apart, Extent.stop]
  · intro r hr x hlo hhi
    have := h.cover r hr x hlo hhi
    simp only [covers_append, covers_cons, Extent.Has, Extent.stop] at this ⊢
    rcases this with h | h | h
    · exact .inl h
    · by_cases hx : x < e.addr + w
      · exact .inr (.inl ⟨h.1, hx⟩)
      · exact .inr (.inr (.inl (by omega)))
    · exact .inr (.inr (.inr h))

/-- A part of the list and one in hand have no address in common. -/
theorem addr_ne (h : Parts R unit N A) (he : e ∈ N) (hbA : b ∈ A) : e.addr ≠ b.addr := by
  obtain ⟨r, hr, hlo, hhi, -, -, hb⟩ := h.hand b hbA
  have hap := h.apart e he b hbA
  rcases h.node e he with ⟨-, -, -, -, -, -, hpos⟩ | ⟨s, hs, rfl⟩
  · simp only [Extent.Apart, Extent.stop] at *
    omega
  · intro heq
    simp only [Extent.stop] at *
    have hsep := h.separate.same hr hs (x := s.hi) (by omega) (by omega) (h.separate.1 s hs).le le_rfl
    subst hsep
    omega

/-- A part in hand goes into the list, joined with what it touches. -/
theorem insert (h : Parts R unit (joinList pre l r post) (b :: A)) (hj : Join last b pre l r post)
    (hbelow : ∀ d ∈ pre, d.Before b) (habove : ∀ d ∈ post, b.Before d)
    (hlast : ∀ e ∈ joinList pre l r post, e.addr = last → e.size = 0) : Parts R unit (pre ++ joined b l r :: post) A := by
  obtain ⟨⟨s, hs, hlo, hhi, ha, hsz, hpos⟩, hA⟩ := List.forall_mem_cons.mp h.hand
  obtain ⟨hap, hAp⟩ := List.pairwise_cons.mp h.handApart
  have hleft : s.lo ≤ (joined b l r).addr ∧ unit ∣ (joined b l r).addr ∧ unit ∣ total l.toList := by
    cases l with
    | none => exact ⟨hlo, ha, by simp⟩
    | some d =>
      obtain ⟨hlt, hd⟩ := hj.left d rfl
      rcases h.node d (mem_joinList.mpr (.inr (.inl rfl))) with ⟨q, hq, hqlo, hqhi, hda, hdz, -⟩ | ⟨q, hq, rfl⟩
      · have hsep := h.separate.same hs hq (x := b.addr) hlo (by simp only [Extent.stop] at *; omega)
          (by simp only [Extent.stop] at *; omega) (by omega)
        subst hsep
        exact ⟨hqlo, hda, by simpa using hdz⟩
      · simp only [Extent.stop] at *
        omega
  have hright : (joined b l r).stop ≤ s.hi ∧ unit ∣ total r.toList := by
    rw [hj.stop_joined]
    cases r with
    | none => exact ⟨hhi, by simp⟩
    | some d =>
      have hd : b.stop = d.addr := (hj.right d rfl).1
      rcases h.node d (mem_joinList.mpr (.inr (.inr (.inl rfl)))) with ⟨q, hq, hqlo, hqhi, hda, hdz, hdp⟩ | ⟨q, hq, rfl⟩
      · have hsep := h.separate.same hs hq (x := b.stop) (by simp only [Extent.stop] at *; omega) hhi (by omega)
          (by simp only [Extent.stop] at *; omega)
        subst hsep
        exact ⟨hqhi, by simpa using hdz⟩
      · exact ⟨by simp only [Option.getD_some, Extent.stop] at *; omega, by simp⟩
  have hsize : (joined b l r).size = total l.toList + b.size + total r.toList := rfl
  refine ⟨h.separate, ?_, hA, hj.ascending h.asc hbelow habove, ?_, hAp, hj.coalesced h.asc hbelow habove hpos h.coalesced hlast, ?_⟩
  · intro e he
    rw [List.mem_append, List.mem_cons, or_left_comm] at he
    rcases he with rfl | he
    · refine .inl ⟨s, hs, hleft.1, hright.1, hleft.2.1, ?_, by omega⟩
      rw [hsize]
      exact Nat.dvd_add (Nat.dvd_add hleft.2.2 hsz) hright.2
    · exact h.node e (mem_joinList_of_mem he)
  · intro e he a haA
    obtain ⟨-, -, -, -, -, -, hapos⟩ := hA a haA
    exact hj.apart (hap a haA) (fun d hd => h.apart d hd a (by simp [haA])) hpos hapos e he
  · intro q hq x hqlo hqhi
    have := h.cover q hq x hqlo hqhi
    rw [covers_append, covers_cons] at this
    rw [covers_append, hj.covers]
    tauto

/-- A hole that no part in hand touches lies in one part of the list. -/
theorem hole (h : Parts R unit N A) {q : Region} (hq : q ∈ R) {a n : ℕ} (hn : 0 < n) (hlo : q.lo ≤ a) (hhi : a + n ≤ q.hi)
    (hfree : ∀ d ∈ A, Extent.Apart ⟨a, n⟩ d) : ∃ e ∈ N, e.addr ≤ a ∧ a + n ≤ e.stop := by
  refine h.coalesced.hole h.asc hn fun x hxlo hxhi => ?_
  rcases (covers_append _ _ _).mp (h.cover q hq x (by omega) (by omega)) with hx | ⟨d, hd, hx⟩
  · exact hx
  · have := hfree d hd
    simp only [Extent.Apart, Extent.Has, Extent.stop] at *
    omega

end Parts

end Ln882x.Memory
