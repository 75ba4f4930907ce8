import Ln882x.Kernel.Heap
import Mathlib.Data.List.TakeWhile

/-! The free list in memory. While `Lists h N` holds, the cells from `xStart` on are the
ranges of `N`, the last of them the empty range at `pxEnd`. Putting a block into the list
finds its place and joins it with the ranges it touches; the search of an allocation
finds the first range that is large enough. -/

namespace Ln882x.Kernel

open Memory

variable {h h' : Heap} {N pre post : List Extent} {b e : Extent} {a n x : ℕ}

/-! ### Headers -/

@[simp] theorem Heap.next_setNext (h : Heap) (a n x : ℕ) : (h.setNext a n).next x = if x = a then n else h.next x := by
  by_cases hx : x = a
  · simp [Heap.next, Heap.setNext, hx]
  · simp [Heap.next, Heap.setNext, hx, Function.update_of_ne]

@[simp] theorem Heap.size_setNext (h : Heap) (a n x : ℕ) : (h.setNext a n).size x = h.size x := by
  by_cases hx : x = a
  · simp [Heap.size, Heap.setNext, hx]
  · simp [Heap.size, Heap.setNext, Function.update_of_ne hx]

@[simp] theorem Heap.next_setSize (h : Heap) (a n x : ℕ) : (h.setSize a n).next x = h.next x := by
  by_cases hx : x = a
  · simp [Heap.next, Heap.setSize, hx]
  · simp [Heap.next, Heap.setSize, Function.update_of_ne hx]

@[simp] theorem Heap.size_setSize (h : Heap) (a n x : ℕ) : (h.setSize a n).size x = if x = a then n else h.size x := by
  by_cases hx : x = a
  · simp [Heap.size, Heap.setSize, hx]
  · simp [Heap.size, Heap.setSize, hx, Function.update_of_ne]

@[simp] theorem Heap.next_setBlock (h : Heap) (a : ℕ) (v : BlockLink) (x : ℕ) :
    (h.setBlock a v).next x = if x = a then v.pxNextFreeBlock else h.next x := by
  by_cases hx : x = a
  · simp [Heap.next, Heap.setBlock, hx]
  · simp [Heap.next, Heap.setBlock, hx]

@[simp] theorem Heap.size_setBlock (h : Heap) (a : ℕ) (v : BlockLink) (x : ℕ) :
    (h.setBlock a v).size x = if x = a then v.xBlockSize else h.size x := by
  by_cases hx : x = a
  · simp [Heap.size, Heap.setBlock, hx]
  · simp [Heap.size, Heap.setBlock, hx]

@[simp] theorem Heap.next_setEnd (h : Heap) (a x : ℕ) : (h.setEnd a).next x = h.next x := rfl

@[simp] theorem Heap.size_setEnd (h : Heap) (a x : ℕ) : (h.setEnd a).size x = h.size x := rfl

@[simp] theorem Heap.xStart_setBlock (h : Heap) (a : ℕ) (v : BlockLink) : (h.setBlock a v).xStart = h.xStart := rfl

@[simp] theorem Heap.pxEnd_setBlock (h : Heap) (a : ℕ) (v : BlockLink) : (h.setBlock a v).pxEnd = h.pxEnd := rfl

@[simp] theorem Heap.xStart_setEnd (h : Heap) (a : ℕ) : (h.setEnd a).xStart = h.xStart := rfl

@[simp] theorem Heap.pxEnd_setEnd (h : Heap) (a : ℕ) : (h.setEnd a).pxEnd = a := rfl

@[simp] theorem Heap.xStart_setNext (h : Heap) (a n : ℕ) : (h.setNext a n).xStart = h.xStart := rfl

@[simp] theorem Heap.pxEnd_setNext (h : Heap) (a n : ℕ) : (h.setNext a n).pxEnd = h.pxEnd := rfl

@[simp] theorem Heap.next_setCounters (h : Heap) (f m x : ℕ) : (h.setCounters f m).next x = h.next x := rfl

@[simp] theorem Heap.size_setCounters (h : Heap) (f m x : ℕ) : (h.setCounters f m).size x = h.size x := rfl

@[simp] theorem Heap.bit_setCounters (h : Heap) (f m : ℕ) : (h.setCounters f m).xBlockAllocatedBit = h.xBlockAllocatedBit := rfl

@[simp] theorem Heap.free_setSize (h : Heap) (a n : ℕ) : (h.setSize a n).xFreeBytesRemaining = h.xFreeBytesRemaining := rfl

@[simp] theorem Heap.minimum_setSize (h : Heap) (a n : ℕ) :
    (h.setSize a n).xMinimumEverFreeBytesRemaining = h.xMinimumEverFreeBytesRemaining := rfl

/-- The address of `xStart`, the end of the list and the mark of a block in use, which no update
of a header or a counter touches. -/
def Heap.fixed (h : Heap) : ℕ × ℕ × ℕ := (h.xStart, h.pxEnd, h.xBlockAllocatedBit)

@[simp] theorem Heap.fixed_setNext (h : Heap) (a n : ℕ) : (h.setNext a n).fixed = h.fixed := rfl

@[simp] theorem Heap.fixed_setSize (h : Heap) (a n : ℕ) : (h.setSize a n).fixed = h.fixed := rfl

@[simp] theorem Heap.fixed_setCounters (h : Heap) (f m : ℕ) : (h.setCounters f m).fixed = h.fixed := rfl

/-- The second heap has the same variables as the first. -/
structure SameVars (h h' : Heap) : Prop where
  xStart : h'.xStart = h.xStart
  pxEnd : h'.pxEnd = h.pxEnd
  free : h'.xFreeBytesRemaining = h.xFreeBytesRemaining
  minimum : h'.xMinimumEverFreeBytesRemaining = h.xMinimumEverFreeBytesRemaining
  bit : h'.xBlockAllocatedBit = h.xBlockAllocatedBit

theorem SameVars.refl (h : Heap) : SameVars h h := ⟨rfl, rfl, rfl, rfl, rfl⟩

theorem SameVars.setNext (hs : SameVars h h') : SameVars h (h'.setNext a n) :=
  ⟨hs.xStart, hs.pxEnd, hs.free, hs.minimum, hs.bit⟩

theorem SameVars.setSize (hs : SameVars h h') : SameVars h (h'.setSize a n) :=
  ⟨hs.xStart, hs.pxEnd, hs.free, hs.minimum, hs.bit⟩

/-- The free list of the heap. -/
structure Lists (h : Heap) (N : List Extent) : Prop where
  chained : Chained h.next h.size h.xStart N 0
  start : h.size h.xStart = 0
  last : ∃ N₀, N = N₀ ++ [⟨h.pxEnd, 0⟩]
  asc : Ascending N
  off : ∀ e ∈ N, e.addr ≠ h.xStart
  pos : ∀ e ∈ N, e.addr ≠ 0

theorem Lists.nodup (hl : Lists h N) : (h.xStart :: N.map Extent.addr).Nodup := by
  refine List.nodup_cons.mpr ⟨?_, hl.asc.nodup⟩
  rw [List.mem_map]
  rintro ⟨e, he, heq⟩
  exact hl.off e he heq

/-- The cells of the list are all that counts. -/
theorem Lists.congr (hl : Lists h N) (hx : h'.xStart = h.xStart) (he : h'.pxEnd = h.pxEnd)
    (hs : h'.next h.xStart = h.next h.xStart ∧ h'.size h.xStart = h.size h.xStart)
    (hN : ∀ e ∈ N, h'.next e.addr = h.next e.addr ∧ h'.size e.addr = h.size e.addr) : Lists h' N where
  chained := by
    rw [hx]
    exact hl.chained.move hs.1 hN
  start := by rw [hx, hs.2, hl.start]
  last := by rw [he]; exact hl.last
  asc := hl.asc
  off := by rw [hx]; exact hl.off
  pos := hl.pos

theorem Lists.lastCell_ne (hl : Lists h (pre ++ post)) : ∀ d ∈ post, d.addr ≠ lastCell h.xStart pre := by
  have hnd := hl.nodup
  rw [List.map_append, ← List.cons_append, List.nodup_append] at hnd
  intro d hd heq
  refine hnd.2.2 _ ?_ _ (List.mem_map_of_mem hd) heq.symm
  rcases lastCell_mem h.xStart pre with hx | ⟨c, hc, hx⟩
  · simp [hx]
  · rw [hx]
    exact List.mem_cons_of_mem _ (List.mem_map_of_mem hc)

/-- A block is taken out of the list. -/
theorem Lists.remove (hl : Lists h (pre ++ e :: post)) (he : e.addr ≠ h.pxEnd) :
    Lists (h.setNext (lastCell h.xStart pre) (h.next e.addr)) (pre ++ post) := by
  have hne : post ≠ [] := by
    rintro rfl
    obtain ⟨N₀, hN⟩ := hl.last
    obtain ⟨-, hz⟩ := List.append_inj' hN rfl
    simp only [List.cons.injEq, and_true] at hz
    exact he (by rw [hz])
  obtain ⟨d, post, rfl⟩ := List.exists_cons_of_ne_nil hne
  obtain ⟨hfront, -, hnext, hdsize, hpost⟩ := (chained_append e).mp hl.chained
  have hnd := hl.nodup
  have hlc := hl.lastCell_ne
  have hlast : lastCell h.xStart pre ≠ h.xStart → ∃ c ∈ pre, lastCell h.xStart pre = c.addr :=
    fun hx => (lastCell_mem h.xStart pre).resolve_left hx
  have hmem : ∀ c ∈ pre ++ d :: post, c ∈ pre ++ e :: d :: post := by simp; tauto
  refine ⟨?_, by simpa using hl.start, ?_, ?_, fun c hc => hl.off c (hmem c hc), fun c hc => hl.pos c (hmem c hc)⟩
  · refine (chained_append d).mpr ⟨?_, by simpa using hdsize, ?_⟩
    · refine hfront.relink ?_ ?_ ?_ ?_ ?_
      · show (h.setNext _ _).next (lastCell h.xStart pre) = _
        simp [hnext]
      · intro hx
        simp [show h.xStart ≠ lastCell h.xStart pre from hx]
      · intro c hc hx
        simp [hx]
      · simp
      · rw [List.map_append, ← List.cons_append, List.nodup_append] at hnd
        exact hnd.1
    · refine hpost.move ?_ fun c hc => ?_
      · simp [hlc d (by simp)]
      · simp [hlc c (by simp [hc])]
  · obtain ⟨N₀, hN⟩ := hl.last
    rcases post.eq_nil_or_concat with rfl | ⟨post', z, rfl⟩
    · refine ⟨pre, ?_⟩
      have hz := (List.append_inj' (show (pre ++ [e]) ++ [d] = N₀ ++ [⟨h.pxEnd, 0⟩] by simpa using hN) rfl).2
      simpa [Heap.setNext] using hz
    · refine ⟨pre ++ d :: post', ?_⟩
      rw [List.concat_eq_append] at hN ⊢
      have hz := (List.append_inj' (show (pre ++ e :: d :: post') ++ [z] = N₀ ++ [⟨h.pxEnd, 0⟩] by simpa using hN) rfl).2
      simpa [Heap.setNext] using hz
  · have hasc := hl.asc
    rw [Ascending, List.pairwise_append, List.pairwise_cons] at hasc
    exact List.pairwise_append.mpr ⟨hasc.1, hasc.2.1.2, fun c hc x hx => hasc.2.2 c hc x (by simp [List.mem_cons.mp hx])⟩

/-- The first block that is large enough, or the end. -/
theorem mallocLoop_eq (hc : Chained h.next h.size a N 0) (hne : N ≠ []) (hpos : ∀ e ∈ N, e.addr ≠ 0) {w fuel : ℕ}
    (hf : N.length ≤ fuel) : ∃ pre e post, N = pre ++ e :: post ∧ (∀ d ∈ pre, d.size < w) ∧ (e.size < w → post = []) ∧
      mallocLoop h w fuel a (h.next a) = some (lastCell a pre, e.addr) := by
  induction N generalizing a fuel with
  | nil => exact absurd rfl hne
  | cons d N ih =>
    obtain ⟨hn, hs, ht⟩ := hc
    obtain ⟨fuel, rfl⟩ : ∃ f, fuel = f + 1 := ⟨fuel - 1, by simp at hf; omega⟩
    rw [hn, mallocLoop, hs]
    by_cases hgo : d.size < w ∧ N ≠ []
    · have hnext : h.next d.addr ≠ 0 := by
        obtain ⟨c, N', rfl⟩ := List.exists_cons_of_ne_nil hgo.2
        rw [ht.1]
        exact hpos c (by simp)
      obtain ⟨pre, e, post, rfl, hpre, he, heq⟩ := ih ht hgo.2 (fun c hc => hpos c (by simp [hc])) (by simpa using hf)
      rw [if_pos ⟨hgo.1, hnext⟩]
      exact ⟨d :: pre, e, post, rfl, List.forall_mem_cons.mpr ⟨hgo.1, hpre⟩, he, heq⟩
    · have hstop : ¬(d.size < w ∧ h.next d.addr ≠ 0) := by
        rintro ⟨hlt, hnz⟩
        refine hgo ⟨hlt, ?_⟩
        rintro rfl
        exact hnz ht
      rw [if_neg hstop]
      refine ⟨[], d, N, rfl, by simp, fun hlt => ?_, rfl⟩
      by_contra hN
      exact hgo ⟨hlt, hN⟩

/-! ### The place of a block -/

theorem insertLoop_eq (hc : Chained h.next h.size a (pre ++ e :: post) 0) (hpre : ∀ d ∈ pre, d.addr < n) (he : n ≤ e.addr)
    {fuel : ℕ} (hf : pre.length < fuel) : insertLoop h n fuel a = some (lastCell a pre) := by
  induction pre generalizing a fuel with
  | nil =>
    obtain ⟨fuel, rfl⟩ := Nat.exists_eq_add_of_lt hf
    have hn : h.next a = e.addr := hc.1
    simp [insertLoop, hn, he]
  | cons d pre ih =>
    obtain ⟨fuel, rfl⟩ := Nat.exists_eq_add_of_lt hf
    obtain ⟨hn, -, ht⟩ := hc
    have hd : d.addr < n := hpre d (by simp)
    rw [List.length_cons, insertLoop, hn, if_pos hd]
    exact ih ht (fun c hc => hpre c (by simp [hc])) (by omega)

/-- The ranges in front of a new block and those behind it. -/
theorem Lists.place (hl : Lists h N) (hb : 0 < b.size) (hend : b.addr < h.pxEnd)
    (hap : ∀ e ∈ N, e.Apart b ∧ e.addr ≠ b.addr) : ∃ pre e post, N = pre ++ e :: post ∧ (∀ d ∈ pre, d.Before b) ∧
      ∀ d ∈ e :: post, b.Before d := by
  have hsplit := List.takeWhile_append_dropWhile (p := fun d : Extent => decide (d.addr < b.addr)) (l := N)
  generalize hpre : N.takeWhile (fun d : Extent => decide (d.addr < b.addr)) = pre at hsplit
  generalize hpost : N.dropWhile (fun d : Extent => decide (d.addr < b.addr)) = rest at hsplit
  have hbelow : ∀ d ∈ pre, d.Before b := by
    intro d hd
    have hlt : d.addr < b.addr := by
      have := List.mem_takeWhile_imp (hpre ▸ hd)
      simpa using this
    have := (hap d (hsplit ▸ List.mem_append_left _ hd)).1
    simp only [Extent.Apart, Extent.Before, Extent.stop] at *
    omega
  have hne : rest ≠ [] := by
    obtain ⟨N₀, hN⟩ := hl.last
    intro hnil
    have hmem : (⟨h.pxEnd, 0⟩ : Extent) ∈ pre := by
      rw [hnil, List.append_nil] at hsplit
      simp [hsplit, hN]
    have := (hbelow _ hmem).1
    simp only at this
    omega
  obtain ⟨e, post, rfl⟩ := List.exists_cons_of_ne_nil hne
  have hfirst : ¬e.addr < b.addr := by
    have := List.head?_dropWhile_not (fun d : Extent => decide (d.addr < b.addr)) N
    simpa [hpost] using this
  have hasc := hl.asc
  rw [← hsplit, Ascending, List.pairwise_append, List.pairwise_cons] at hasc
  refine ⟨pre, e, post, hsplit.symm, hbelow, fun d hd => ?_⟩
  have hde : e.addr ≤ d.addr := by
    rcases List.mem_cons.mp hd with rfl | hd
    · exact le_rfl
    · exact (hasc.2.1.1 d hd).1.le
  have := hap d (hsplit ▸ List.mem_append_right _ hd)
  simp only [Extent.Apart, Extent.Before, Extent.stop] at *
  omega

/-! ### Putting a block into the list -/

/-- The block `b` is in the list, joined with what it touched. -/
structure Inserted (h : Heap) (N : List Extent) (b : Extent) (h' : Heap) (pre : List Extent) (l r : Option Extent)
    (post : List Extent) : Prop where
  before : N = joinList pre l r post
  join : Join h.pxEnd b pre l r post
  below : ∀ d ∈ pre, d.Before b
  above : ∀ d ∈ post, b.Before d
  chained : Chained h'.next h'.size h'.xStart (pre ++ joined b l r :: post) 0
  vars : SameVars h h'
  frame : ∀ x, x ≠ h.xStart → x ≠ b.addr → (∀ e ∈ N, x ≠ e.addr) → h'.next x = h.next x ∧ h'.size x = h.size x
  start : h'.size h.xStart = h.size h.xStart

/-- The range behind that is joined, if any. -/
def behind (h : Heap) (stop : ℕ) (e : Extent) : Option Extent :=
  if stop = e.addr ∧ e.addr ≠ h.pxEnd then some e else none

/-- The list behind the block. -/
def restOf (h : Heap) (stop : ℕ) (e : Extent) (post : List Extent) : List Extent :=
  if stop = e.addr ∧ e.addr ≠ h.pxEnd then post else e :: post

theorem behind_append (h : Heap) (stop : ℕ) (e : Extent) (post : List Extent) :
    (behind h stop e).toList ++ restOf h stop e post = e :: post := by
  unfold behind restOf
  split_ifs <;> rfl

theorem mem_behind {stop : ℕ} {d : Extent} : d ∈ behind h stop e ↔ d = e ∧ stop = e.addr ∧ e.addr ≠ h.pxEnd := by
  unfold behind
  split_ifs with hs
  · simp [hs, eq_comm]
  · simp [hs]

/-- The block gets the size of the range behind it, if they are joined, and its link; otherwise
it is linked to that range. -/
theorem insertBehind_spec (it blk : ℕ) (hnext : h.next it = e.addr) (hsize : h.size e.addr = e.size) : SameVars h (insertBehind h it blk) ∧
      (∀ x, (insertBehind h it blk).size x =
        if x = blk then h.size blk + total (behind h (blk + h.size blk) e).toList else h.size x) ∧
      ∀ x, (insertBehind h it blk).next x =
        if x = blk then (behind h (blk + h.size blk) e).elim e.addr (fun d => h.next d.addr) else h.next x := by
  unfold insertBehind behind
  rw [hnext]
  by_cases hs : blk + h.size blk = e.addr
  · by_cases hp : e.addr = h.pxEnd
    · simp only [hs, hp, not_true, if_true, ne_eq, if_false, and_false]
      exact ⟨.setNext (.refl h), fun x => by by_cases hx : x = blk <;> simp [hx], fun x => by simp⟩
    · simp only [hs, hp, not_false_eq_true, if_true, ne_eq, and_true]
      exact ⟨.setNext (.setSize (.refl h)), fun x => by simp [hsize], fun x => by simp⟩
  · simp only [hs, if_false, false_and]
    exact ⟨.setNext (.refl h), fun x => by by_cases hx : x = blk <;> simp [hx], fun x => by simp⟩

/-- From the block the list goes on as before. -/
theorem chained_restOf {stop blk : ℕ} (hsize : h.size e.addr = e.size) (hc : Chained h.next h.size e.addr post 0)
    (hblk : h'.next blk = (behind h stop e).elim e.addr (fun d => h.next d.addr))
    (hsame : ∀ d ∈ e :: post, h'.next d.addr = h.next d.addr ∧ h'.size d.addr = h.size d.addr) :
    Chained h'.next h'.size blk (restOf h stop e post) 0 := by
  obtain ⟨⟨hen, hes⟩, hpost⟩ := List.forall_mem_cons.mp hsame
  unfold behind at hblk
  unfold restOf
  split_ifs with hs
  · rw [if_pos hs] at hblk
    exact hc.move hblk hpost
  · rw [if_neg hs] at hblk
    exact ⟨hblk, hes.trans hsize, hc.move hen hpost⟩

section Insert
variable (habove : ∀ d ∈ e :: post, b.Before d)
include habove

theorem above_restOf : ∀ d ∈ restOf h b.stop e post, b.Before d := by
  intro d hd
  refine habove d ?_
  rw [← behind_append h b.stop e post]
  exact List.mem_append_right _ hd

variable (hl : Lists h (pre ++ e :: post)) (hbelow : ∀ d ∈ pre, d.Before b)
include hl

theorem rightNone_behind (hr : behind h b.stop e = none) : ∀ d ∈ restOf h b.stop e post, b.stop = d.addr → d.addr = h.pxEnd := by
  intro d hd heq
  unfold behind at hr
  unfold restOf at hd
  split_ifs at hr hd with hs
  rcases List.mem_cons.mp hd with rfl | hd
  · by_contra hne
    exact hs ⟨heq, hne⟩
  · have h1 := (habove e (by simp)).2
    have h2 := List.pairwise_append.mp hl.asc
    have h3 := ((List.pairwise_cons.mp h2.2.1).1 d hd).1
    omega

include hbelow

/-- Nothing in front touches the block. -/
theorem inserted_alone (hsize : h.size b.addr = b.size) (hstart : h.xStart ≠ b.addr) (hno : ∀ d ∈ pre, d.stop ≠ b.addr) (hh : h' = (insertBehind h (lastCell h.xStart pre) b.addr).setNext
      (lastCell h.xStart pre) b.addr) :
    Inserted h (pre ++ e :: post) b h' pre none (behind h b.stop e) (restOf h b.stop e post) := by
  obtain ⟨hfront, hesize, hpost⟩ := (chained_append e).mp hl.chained
  obtain ⟨hvars, hsz, hnx⟩ := insertBehind_spec (h := h) (lastCell h.xStart pre) b.addr hfront.last hesize
  rw [hsize] at hsz hnx
  have hnd := hl.nodup
  rw [List.map_append, ← List.cons_append, List.nodup_append] at hnd
  have hlastb : lastCell h.xStart pre ≠ b.addr := by
    rcases lastCell_mem h.xStart pre with heq | ⟨d, hd, heq⟩
    · rwa [heq]
    · rw [heq]
      exact (hbelow d hd).1.ne
  have hlaste := hl.lastCell_ne
  have hnx' : ∀ x, x ≠ b.addr → x ≠ lastCell h.xStart pre → h'.next x = h.next x := by
    intro x hx hxl
    rw [hh, Heap.next_setNext, if_neg hxl, hnx, if_neg hx]
  have hsz' : ∀ x, x ≠ b.addr → h'.size x = h.size x := by
    intro x hx
    rw [hh, Heap.size_setNext, hsz, if_neg hx]
  have hxs : h'.xStart = h.xStart := by
    rw [hh]
    exact hvars.xStart
  refine ⟨?_, ⟨by simp, fun d hd => ?_, fun _ => hno, rightNone_behind habove hl⟩, hbelow, above_restOf habove, ?_, ?_, ?_, ?_⟩
  · rw [joinList, behind_append]
    rfl
  · obtain ⟨rfl, hstop, hne⟩ := mem_behind.mp hd
    exact ⟨hstop, hne⟩
  · rw [hxs, chained_append]
    refine ⟨?_, ?_, ?_⟩
    · refine hfront.relink (by simp [hh, joined]) (hnx' _ hstart) ?_ ?_ hnd.1
      · exact fun d hd hne => hnx' _ (hbelow d hd).1.ne hne
      · exact fun d hd => hsz' _ (hbelow d hd).1.ne
    · show h'.size b.addr = _
      rw [hh, Heap.size_setNext, hsz, if_pos rfl]
      simp [joined, Extent.stop]
    · refine chained_restOf hesize hpost ?_ fun d hd => ⟨hnx' _ (habove d hd).1.ne' (hlaste d hd), hsz' _ (habove d hd).1.ne'⟩
      show h'.next b.addr = _
      rw [hh, Heap.next_setNext, if_neg hlastb.symm, hnx, if_pos rfl]
      rfl
  · rw [hh]
    exact hvars.setNext
  · intro x hxs hxb hxN
    refine ⟨hnx' x hxb ?_, hsz' x hxb⟩
    rcases lastCell_mem h.xStart pre with hx | ⟨c, hc, hx⟩
    · rwa [hx]
    · rw [hx]
      exact hxN c (by simp [hc])
  · exact hsz' _ hstart

/-- The last range in front touches the block. -/
theorem inserted_left {c : Extent} {pre' : List Extent} (hpre : pre = pre' ++ [c]) (hc : c.stop = b.addr)
    (hh : h' = insertBehind (h.setSize c.addr (c.size + b.size)) c.addr c.addr) :
    Inserted h (pre ++ e :: post) b h' pre' (some c) (behind h b.stop e) (restOf h b.stop e post) := by
  subst hpre
  obtain ⟨hfront, hesize, hpost⟩ := (chained_append e).mp hl.chained
  obtain ⟨hfront', hcsize, hcnext⟩ := (chained_append c).mp hfront
  have hcnext' : h.next c.addr = e.addr := hcnext
  have hnd := hl.nodup
  have hasc := hl.asc
  rw [List.append_assoc, Ascending, List.pairwise_append, List.singleton_append, List.pairwise_cons] at hasc
  obtain ⟨-, ⟨hce, -⟩, hcross⟩ := hasc
  have hec : e.addr ≠ c.addr := (hce e (by simp)).1.ne'
  have hfc : h.xStart ≠ c.addr := fun heq => hl.off c (by simp) heq.symm
  obtain ⟨hvars, hsz, hnx⟩ := insertBehind_spec (h := h.setSize c.addr (c.size + b.size)) c.addr c.addr
    (by simpa using hcnext') (by simp [hec, hesize])
  have hstop : c.addr + (c.size + b.size) = b.stop := by
    simp only [Extent.stop] at *
    omega
  have hbehind : behind (h.setSize c.addr (c.size + b.size)) b.stop e = behind h b.stop e := rfl
  simp only [Heap.size_setSize, Heap.next_setSize, if_true, hstop, hbehind] at hsz hnx
  rw [← hh] at hvars hsz hnx
  have hnx' : ∀ x, x ≠ c.addr → h'.next x = h.next x := fun x hx => by rw [hnx, if_neg hx]
  have hsz' : ∀ x, x ≠ c.addr → h'.size x = h.size x := fun x hx => by rw [hsz, if_neg hx, if_neg hx]
  have hprec : ∀ d ∈ pre', d.addr ≠ c.addr := fun d hd => (hcross d hd c (by simp)).1.ne
  have hbc := hbelow c (by simp)
  refine ⟨?_, ⟨?_, fun d hd => ?_, by simp, rightNone_behind habove hl⟩, fun d hd => hbelow d (by simp [hd]),
    above_restOf habove, ?_, ⟨hvars.xStart, hvars.pxEnd, hvars.free, hvars.minimum, hvars.bit⟩, ?_, hsz' _ hfc⟩
  · rw [joinList, behind_append, List.append_assoc]
    rfl
  · rintro d ⟨⟩
    exact ⟨hbc.1, hc⟩
  · obtain ⟨rfl, hstop, hne⟩ := mem_behind.mp hd
    exact ⟨hstop, hne⟩
  · rw [show h'.xStart = h.xStart from hvars.xStart, chained_append]
    refine ⟨hfront'.move (hnx' _ hfc) fun d hd => ⟨hnx' _ (hprec d hd), hsz' _ (hprec d hd)⟩, ?_, ?_⟩
    · show h'.size c.addr = _
      rw [hsz, if_pos rfl]
      simp [joined]
    · refine chained_restOf hesize hpost ?_ fun d hd => ?_
      · show h'.next c.addr = _
        rw [hnx, if_pos rfl]
      · have hdc : d.addr ≠ c.addr := (hce d hd).1.ne'
        exact ⟨hnx' _ hdc, hsz' _ hdc⟩
  · intro x _ _ hxN
    have hxc : x ≠ c.addr := hxN c (by simp)
    exact ⟨hnx' x hxc, hsz' x hxc⟩

end Insert

theorem prvInsertBlockIntoFreeList_alone {fuel it : ℕ} (hloop : insertLoop h n fuel h.xStart = some it)
    (hno : it + h.size it ≠ n) (hne : it ≠ n) :
    prvInsertBlockIntoFreeList fuel h n = some ((insertBehind h it n).setNext it n) := by
  simp [prvInsertBlockIntoFreeList, hloop, insertFront, hno, hne]

theorem prvInsertBlockIntoFreeList_left {fuel it : ℕ} (hloop : insertLoop h n fuel h.xStart = some it)
    (hc : it + h.size it = n) :
    prvInsertBlockIntoFreeList fuel h n = some (insertBehind (h.setSize it (h.size it + h.size n)) it it) := by
  simp [prvInsertBlockIntoFreeList, hloop, insertFront, hc]

/-- A block apart from the list is put into it. -/
theorem Lists.insert (hl : Lists h N) (hb : 0 < b.size) (hsize : h.size b.addr = b.size) (hend : b.addr < h.pxEnd)
    (hstart : h.xStart ≠ b.addr) (hap : ∀ e ∈ N, e.Apart b ∧ e.addr ≠ b.addr) {fuel : ℕ} (hf : N.length ≤ fuel) :
    ∃ h' pre l r post, prvInsertBlockIntoFreeList fuel h b.addr = some h' ∧ Inserted h N b h' pre l r post := by
  obtain ⟨front, e, post, rfl, hbelow, habove⟩ := hl.place hb hend hap
  have hloop : insertLoop h b.addr fuel h.xStart = some (lastCell h.xStart front) :=
    insertLoop_eq hl.chained (fun d hd => (hbelow d hd).1) (habove e (by simp)).1.le (by simp at hf; omega)
  obtain ⟨hfront, -, -⟩ := (chained_append e).mp hl.chained
  rcases front.eq_nil_or_concat with rfl | ⟨front', c, rfl⟩
  · have hno : h.xStart + h.size h.xStart ≠ b.addr := by rwa [hl.start]
    exact ⟨_, _, _, _, _, prvInsertBlockIntoFreeList_alone hloop hno hstart,
      inserted_alone habove hl hbelow hsize hstart (by simp) rfl⟩
  · rw [List.concat_eq_append] at *
    have hlast : lastCell h.xStart (front' ++ [c]) = c.addr := by simp
    have hcsize : h.size c.addr = c.size := hfront.sizes c (by simp)
    have hcb := hbelow c (by simp)
    by_cases hc : c.addr + c.size = b.addr
    · refine ⟨_, _, _, _, _, prvInsertBlockIntoFreeList_left hloop (by rw [hlast, hcsize, hc]),
        inserted_left habove hl hbelow rfl hc ?_⟩
      rw [hlast, hcsize, hsize]
    · refine ⟨_, _, _, _, _, prvInsertBlockIntoFreeList_alone hloop (by rwa [hlast, hcsize]) (by rw [hlast]; exact hcb.1.ne),
        inserted_alone habove hl hbelow hsize hstart ?_ rfl⟩
      have hasc := (List.pairwise_append.mp hl.asc).1
      intro d hd heq
      rcases List.mem_append.mp hd with hd | hd
      · have h1 := (List.pairwise_append.mp hasc).2.2 d hd c (by simp)
        have h2 := hcb.1
        simp only [Extent.Before] at h1
        omega
      · rw [List.mem_singleton.mp hd] at heq
        exact hc heq

end Ln882x.Kernel
