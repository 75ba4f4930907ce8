import Ln882x.Kernel.HeapList
import Ln882x.Memory.Parts
import Mathlib.Data.List.Pairwise
import Mathlib.Data.Nat.Bitwise

/-! What every allocation and every release keeps. The blocks of the free list and the
blocks of the application are the parts that the regions are cut into; the counter of
free bytes is the size of the list. An allocation takes a block in hand, cuts it if it
is much too large and puts the rest back; a release puts its block back. -/

namespace Ln882x.Kernel

open Memory

variable {h h' : Heap} {R : List Region} {N A pre post : List Extent} {b e : Extent} {n w fuel : ℕ}

/-- The bytes of all regions. -/
def regionsBytes (R : List Region) : ℕ := (R.map Region.bytes).sum

/-- Regions that the kernel can use: aligned, apart from `NULL` and from `xStart`, none so large
that a size reaches the top bit. -/
structure Usable (R : List Region) (xStart : ℕ) : Prop where
  separate : Separate R
  lo_pos : ∀ r ∈ R, 0 < r.lo
  lo_aligned : ∀ r ∈ R, 8 ∣ r.lo
  hi_aligned : ∀ r ∈ R, 8 ∣ r.hi
  small : ∀ r ∈ R, r.bytes < 2 ^ 31
  total : regionsBytes R < 2 ^ 32
  off : ∀ r ∈ R, xStart < r.lo ∨ r.hi < xStart

/-- The heap holds the free blocks `N` and has given away the blocks `A`. -/
structure Layout (R : List Region) (h : Heap) (N A : List Extent) : Prop where
  usable : Usable R h.xStart
  lists : Lists h N
  parts : Parts R portByteAlignment N A
  last : ∀ r ∈ R, r.hi ≤ h.pxEnd
  bit : h.xBlockAllocatedBit = 2 ^ 31
  taken : ∀ a ∈ A, h.next a.addr = 0 ∧ h.size a.addr = a.size ||| 2 ^ 31
  free : h.xFreeBytesRemaining = total N
  minimum : h.xMinimumEverFreeBytesRemaining ≤ total N
  all : total N + total A = regionsBytes R

/-! ### Numbers -/

theorem roundedSize_zero : roundedSize 0 = 0 := rfl

/-- A wanted size with the header, rounded up to whole units. -/
theorem roundedSize_spec (hn : 0 < n) : 8 ∣ roundedSize n ∧ n + 8 ≤ roundedSize n ∧ roundedSize n < n + 16 := by
  have hand : ∀ x : ℕ, x &&& 7 = x % 8 := fun x => Nat.and_two_pow_sub_one_eq_mod x 3
  simp only [roundedSize, portByteAlignmentMask, portByteAlignment, xHeapStructSize, hand, if_pos (show n > 0 from hn)]
  split_ifs <;> omega

theorem and_bit_eq_zero (hn : n < 2 ^ 32) : n &&& 2 ^ 31 = 0 ↔ n < 2 ^ 31 := by
  rw [Nat.and_two_pow, Nat.testBit_eq_decide_div_mod_eq]
  by_cases hlt : n < 2 ^ 31
  · simp
    omega
  · simp
    omega

theorem or_bit (hn : n < 2 ^ 31) : n ||| 2 ^ 31 = n + 2 ^ 31 := by
  rw [Nat.or_comm, ← Nat.mul_one (2 ^ 31), ← Nat.two_pow_add_eq_or_of_lt hn 1, Nat.add_comm]

theorem or_bit_and (hn : n < 2 ^ 31) : (n ||| 2 ^ 31) &&& 2 ^ 31 ≠ 0 := by
  rw [or_bit hn, ne_eq, and_bit_eq_zero (by omega)]
  omega

/-- Clearing the bit gives the size back. -/
theorem or_bit_clear (hn : n < 2 ^ 31) : (n ||| 2 ^ 31) &&& (2 ^ 32 - 1 - 2 ^ 31) = n := by
  rw [or_bit hn, show 2 ^ 32 - 1 - 2 ^ 31 = 2 ^ 31 - 1 from rfl, Nat.and_two_pow_sub_one_eq_mod]
  omega

theorem sizeAdd_eq {m : ℕ} (h : m + n < 2 ^ 32) : sizeAdd m n = m + n := Nat.mod_eq_of_lt h

theorem sizeSub_eq {m : ℕ} (h : n ≤ m ∧ m < 2 ^ 32) : sizeSub m n = m - n := by
  rw [sizeSub, show m + 2 ^ 32 - n = m - n + 2 ^ 32 by omega, Nat.add_mod_right, Nat.mod_eq_of_lt (by omega)]

/-! ### Blocks -/

theorem Usable.isPart_lt {x : ℕ} (hu : Usable R x) (he : IsPart R 8 e) : 0 < e.addr ∧ e.size < 2 ^ 31 ∧ e.addr ≠ x := by
  obtain ⟨r, hr, hlo, hhi, -, -, hpos⟩ := he
  have h1 := hu.lo_pos r hr
  have h2 := hu.small r hr
  have h3 := hu.off r hr
  simp only [Region.bytes, Extent.stop] at *
  omega

theorem Usable.node {x : ℕ} (hu : Usable R x) (he : IsPart R 8 e ∨ IsMark R e) : e.addr ≠ x ∧ e.addr ≠ 0 := by
  rcases he with he | ⟨r, hr, rfl⟩
  · obtain ⟨hpos, -, hx⟩ := hu.isPart_lt he
    exact ⟨hx, hpos.ne'⟩
  · have h1 := hu.lo_pos r hr
    have h2 := hu.separate.1 r hr
    have h3 := hu.off r hr
    simp only
    omega

theorem Layout.addr_lt_pxEnd (hl : Layout R h N A) (he : IsPart R 8 e) : e.addr < h.pxEnd := by
  obtain ⟨r, hr, hlo, hhi, -, -, hpos⟩ := he
  have := hl.last r hr
  simp only [Extent.stop] at *
  omega

/-- A free block is a part. -/
theorem Layout.isPart (hl : Layout R h N A) (he : e ∈ N) (hpos : 0 < e.size) : IsPart R 8 e := by
  refine (hl.parts.node e he).resolve_right ?_
  rintro ⟨r, -, rfl⟩
  exact absurd hpos (lt_irrefl 0)

/-- The end of the list stays where it is. -/
theorem last_post {l r : Option Extent} (hl : Lists h (joinList pre l r post)) (hj : Join h.pxEnd b pre l r post)
    (hbelow : ∀ d ∈ pre, d.Before b) (hend : b.addr < h.pxEnd) :
    ∃ N₀, pre ++ joined b l r :: post = N₀ ++ [⟨h.pxEnd, 0⟩] := by
  obtain ⟨N₀, hN⟩ := hl.last
  rcases post.eq_nil_or_concat with rfl | ⟨post', z, rfl⟩
  · have hmem : (⟨h.pxEnd, 0⟩ : Extent) ∈ joinList pre l r [] := by simp [hN]
    rcases mem_joinList.mp hmem with hm | hm | hm | hm
    · have := (hbelow _ hm).1
      simp only at this
      omega
    · have := (hj.left _ hm).1
      simp only at this
      omega
    · exact absurd rfl (hj.right _ hm).2
    · simp at hm
  · rw [List.concat_eq_append, joinList, ← List.append_assoc, ← List.append_assoc, ← List.append_assoc] at hN
    obtain ⟨-, hz⟩ := List.append_inj' hN rfl
    exact ⟨pre ++ joined b l r :: post', by simp [← hz]⟩

/-- What an insertion leaves: the list is as it should be, and the parts too. -/
theorem insert_spec (hu : Usable R h.xStart) (hl : Lists h N) (hp : Parts R 8 N (b :: A)) (hlast : ∀ r ∈ R, r.hi ≤ h.pxEnd)
    (hsize : h.size b.addr = b.size) (hf : N.length ≤ fuel) :
    ∃ h' N', prvInsertBlockIntoFreeList fuel h b.addr = some h' ∧ SameVars h h' ∧ Lists h' N' ∧ Parts R 8 N' A ∧
      total N' = total N + b.size ∧ N'.length ≤ N.length + 1 ∧
      ∀ a ∈ A, h'.next a.addr = h.next a.addr ∧ h'.size a.addr = h.size a.addr := by
  have hb := hp.hand b (by simp)
  obtain ⟨hb0, -, hbx⟩ := hu.isPart_lt hb
  have hend : b.addr < h.pxEnd := by
    obtain ⟨r, hr, -, hhi, -, -, hpos⟩ := hb
    have := hlast r hr
    simp only [Extent.stop] at hhi
    omega
  have hbpos : 0 < b.size := by
    obtain ⟨-, -, -, -, -, -, hpos⟩ := hb
    exact hpos
  obtain ⟨h', pre, l, r, post, heq, hi⟩ := hl.insert hbpos hsize hend hbx.symm
    (fun e he => ⟨hp.apart e he b (by simp), hp.addr_ne he (by simp)⟩) hf
  obtain ⟨hbefore, hjoin, hbelow, habove, hchain, hvars, hframe, hstart⟩ := hi
  have hempty : ∀ e ∈ N, e.addr = h.pxEnd → e.size = 0 := by
    intro e he heq
    rcases hp.node e he with hpart | ⟨r, -, rfl⟩
    · obtain ⟨r, hr, -, hhi, -, -, hpos⟩ := hpart
      have := hlast r hr
      simp only [Extent.stop] at hhi
      omega
    · rfl
  subst hbefore
  have hparts := hp.insert hjoin hbelow habove hempty
  refine ⟨h', pre ++ joined b l r :: post, heq, hvars, ?_, hparts, total_join, ?_, ?_⟩
  · refine ⟨hchain, ?_, ?_, hparts.asc, fun e he => ?_, fun e he => (hu.node (hparts.node e he)).2⟩
    · rw [hvars.xStart, hstart, hl.start]
    · rw [hvars.pxEnd]
      exact last_post hl hjoin hbelow hend
    · rw [hvars.xStart]
      exact (hu.node (hparts.node e he)).1
  · simp only [joinList, List.length_append, List.length_cons]
    omega
  · intro a ha
    refine hframe a.addr (hu.isPart_lt (hp.hand a (by simp [ha]))).2.2 ?_ fun e he => (hp.addr_ne he (by simp [ha])).symm
    obtain ⟨-, -, -, -, -, -, hapos⟩ := hp.hand a (by simp [ha])
    have hap := (List.pairwise_cons.mp hp.handApart).1 a ha
    simp only [Extent.Apart, Extent.stop] at hap
    omega

theorem total_perm {l r : List Extent} (hp : l.Perm r) : total l = total r := (hp.map Extent.size).sum_eq

/-- The order of the blocks in hand does not count. -/
theorem Layout.perm {B : List Extent} (hl : Layout R h N A) (hp : A.Perm B) : Layout R h N B :=
  ⟨hl.usable, hl.lists, hl.parts.perm hp, hl.last, hl.bit, fun a ha => hl.taken a (hp.mem_iff.mpr ha), hl.free, hl.minimum,
    total_perm hp ▸ hl.all⟩

/-- The application writes to a block of its own, behind the header. -/
theorem Layout.write {a : Extent} {x : ℕ} (v : BlockLink) (hl : Layout R h N A) (ha : a ∈ A) (hlo : a.addr < x) (hhi : x < a.stop) :
    Layout R (h.setBlock x v) N A := by
  have hoff : ∀ e ∈ N, e.addr ≠ x := by
    intro e he heq
    have := hl.parts.apart e he a ha
    simp only [Extent.Apart, Extent.stop] at this hhi
    omega
  have hother : ∀ d ∈ A, d.addr ≠ x := by
    intro d hd heq
    obtain ⟨-, -, -, -, -, -, hpos⟩ := hl.parts.hand d hd
    rcases eq_or_ne d a with rfl | hne
    · omega
    · have := hl.parts.handApart.forall hd ha hne
      simp only [Extent.Apart, Extent.stop] at this hhi
      omega
  have hstart : h.xStart ≠ x := by
    obtain ⟨r, hr, hrlo, hrhi, -, -, -⟩ := hl.parts.hand a ha
    have := hl.usable.off r hr
    omega
  refine ⟨hl.usable, hl.lists.congr rfl rfl ?_ fun e he => ?_, hl.parts, hl.last, hl.bit, fun d hd => ?_, hl.free, hl.minimum, hl.all⟩
  · simp [hstart]
  · simp [hoff e he]
  · simpa [hother d hd] using hl.taken d hd

/-! ### Release -/

theorem Layout.total_lt (hl : Layout R h N A) : total N + total A < 2 ^ 32 := hl.all ▸ hl.usable.total

/-- The blocks of the application lie apart. -/
theorem Layout.taken_ne (hp : Parts R 8 N (b :: A)) {a : Extent} (ha : a ∈ A) : a.addr ≠ b.addr := by
  obtain ⟨-, -, -, -, -, -, hpos⟩ := hp.hand b (by simp)
  obtain ⟨-, -, -, -, -, -, hapos⟩ := hp.hand a (by simp [ha])
  have hap := (List.pairwise_cons.mp hp.handApart).1 a ha
  simp only [Extent.Apart, Extent.stop] at hap
  omega

/-- A block of the application is given back. -/
theorem Layout.release {a : Extent} (hl : Layout R h N (a :: A)) (hf : N.length ≤ fuel) :
    ∃ h' N', vPortFree fuel (a.addr + xHeapStructSize) h = some h' ∧ Layout R h' N' A ∧ N'.length ≤ N.length + 1 ∧
      h'.xMinimumEverFreeBytesRemaining = min h.xMinimumEverFreeBytesRemaining h'.xFreeBytesRemaining := by
  have hparts := hl.parts
  obtain ⟨hapos, hasmall, hax⟩ := hl.usable.isPart_lt (hparts.hand a (by simp))
  obtain ⟨hnext, hsize⟩ := hl.taken a (by simp)
  have htotal := hl.total_lt
  rw [total_cons] at htotal
  generalize hu : (h.setSize a.addr a.size).setCounters (total N + a.size) h.xMinimumEverFreeBytesRemaining = u
  have hun : ∀ x, u.next x = h.next x := fun x => by rw [← hu, Heap.next_setCounters, Heap.next_setSize]
  have hus : ∀ x, u.size x = if x = a.addr then a.size else h.size x := fun x => by
    rw [← hu, Heap.size_setCounters, Heap.size_setSize]
  have hus' : ∀ x, x ≠ a.addr → u.size x = h.size x := fun x hx => by rw [hus, if_neg hx]
  have hux : u.xStart = h.xStart := by rw [← hu]; rfl
  have hue : u.pxEnd = h.pxEnd := by rw [← hu]; rfl
  have hlists : Lists u N := by
    refine hl.lists.congr hux hue ⟨hun _, hus' _ hax.symm⟩ fun e he => ⟨hun _, hus' _ ?_⟩
    exact hparts.addr_ne he (by simp)
  obtain ⟨h', N', heq, hvars, hlists', hparts', hsum, hlen, hframe⟩ := insert_spec (hux ▸ hl.usable) hlists hparts
    (hue ▸ hl.last) (by rw [hus, if_pos rfl]) hf
  have hfree' : h'.xFreeBytesRemaining = total N + a.size := by rw [hvars.free, ← hu]; rfl
  have hmin' : h'.xMinimumEverFreeBytesRemaining = h.xMinimumEverFreeBytesRemaining := by rw [hvars.minimum, ← hu]; rfl
  have hmin := hl.minimum
  refine ⟨h', N', ?_, ?_, hlen, by omega⟩
  · have hclear : (h.size a.addr &&& (2 ^ 32 - 1 - 2 ^ 31)) = a.size := by rw [hsize, or_bit_clear hasmall]
    have hbit : h.size a.addr &&& 2 ^ 31 ≠ 0 := by rw [hsize]; exact or_bit_and hasmall
    rw [vPortFree, if_pos (by simp [xHeapStructSize]), Nat.add_sub_cancel]
    simp only [configAssert, hl.bit, hbit, hnext, hclear, ne_eq, not_false_eq_true, if_true, Option.bind_eq_bind, Option.bind_some,
      Heap.size_setSize]
    have hcount : sizeAdd (h.setSize a.addr a.size).xFreeBytesRemaining a.size = total N + a.size := by
      rw [Heap.free_setSize, hl.free]
      exact sizeAdd_eq (by omega)
    rw [← heq, ← hu, hcount, Heap.minimum_setSize]
  · have hbit' : h'.xBlockAllocatedBit = h.xBlockAllocatedBit := by rw [hvars.bit, ← hu]; rfl
    refine ⟨?_, hlists', hparts', ?_, hbit'.trans hl.bit, fun c hc => ?_, hfree'.trans hsum.symm, ?_, ?_⟩
    · rw [hvars.xStart, hux]
      exact hl.usable
    · rw [hvars.pxEnd, hue]
      exact hl.last
    · obtain ⟨hn, hs⟩ := hframe c hc
      have hca := Layout.taken_ne hparts hc
      rw [hn, hs, hun, hus' _ hca]
      exact hl.taken c (by simp [hc])
    · omega
    · have := hl.all
      rw [total_cons] at this
      omega

/-! ### Allocation -/

/-- The block in hand is cut, and what is not wanted goes back into the list. -/
theorem splitBlock_spec (hu : Usable R h.xStart) (hl : Lists h N) (hp : Parts R 8 N (e :: A)) (hlast : ∀ r ∈ R, r.hi ≤ h.pxEnd)
    (hsize : h.size e.addr = e.size) (hw : 0 < w) (hwe : w ≤ e.size) (hd : 8 ∣ w) (hf : N.length ≤ fuel) :
    ∃ h' N' n, splitBlock fuel h e.addr w = some h' ∧ SameVars h h' ∧ Lists h' N' ∧ Parts R 8 N' (⟨e.addr, n⟩ :: A) ∧
      w ≤ n ∧ h'.size e.addr = n ∧ total N' + n = total N + e.size ∧ N'.length ≤ N.length + 1 ∧
      ∀ a ∈ A, h'.next a.addr = h.next a.addr ∧ h'.size a.addr = h.size a.addr := by
  unfold splitBlock
  by_cases hlarge : h.size e.addr - w > heapMinimumBlockSize
  · rw [if_pos hlarge]
    simp only [hsize, heapMinimumBlockSize, xHeapStructSize] at hlarge ⊢
    have hcut := hp.split hw (by omega) hd
    generalize hu' : (h.setSize (e.addr + w) (e.size - w)).setSize e.addr w = u
    have hun : ∀ x, u.next x = h.next x := fun x => by rw [← hu', Heap.next_setSize, Heap.next_setSize]
    have hus : ∀ x, u.size x = if x = e.addr then w else if x = e.addr + w then e.size - w else h.size x := fun x => by
      rw [← hu', Heap.size_setSize, Heap.size_setSize]
    have hux : u.xStart = h.xStart := by rw [← hu']; rfl
    have hue : u.pxEnd = h.pxEnd := by rw [← hu']; rfl
    have hswap := hcut.perm (List.Perm.swap _ _ _)
    -- the new header is at none of the addresses in use
    have hother : ∀ x, x ≠ e.addr → x ≠ e.addr + w → u.size x = h.size x := fun x h1 h2 => by rw [hus, if_neg h1, if_neg h2]
    have hx1 := (hu.isPart_lt (hcut.hand ⟨e.addr, w⟩ (by simp))).2.2
    have hx2 := (hu.isPart_lt (hcut.hand ⟨e.addr + w, e.size - w⟩ (by simp))).2.2
    have hlists : Lists u N := hl.congr hux hue ⟨hun _, hother _ hx1.symm hx2.symm⟩ fun d hd =>
      ⟨hun _, hother _ (hcut.addr_ne hd (by simp) : d.addr ≠ (⟨e.addr, w⟩ : Extent).addr)
        (hcut.addr_ne hd (by simp) : d.addr ≠ (⟨e.addr + w, e.size - w⟩ : Extent).addr)⟩
    obtain ⟨h', N', heq, hvars, hlists', hparts', hsum, hlen, hframe⟩ := insert_spec
      (b := ⟨e.addr + w, e.size - w⟩) (hux ▸ hu) hlists hswap (hue ▸ hlast)
      (by rw [hus, if_neg (show e.addr + w ≠ e.addr by omega), if_pos rfl]) hf
    obtain ⟨-, hne⟩ := List.forall_mem_cons.mp hframe
    refine ⟨h', N', w, heq, ?_, hlists', hparts', le_rfl, ?_, ?_, hlen, fun a ha => ?_⟩
    · exact ⟨hvars.xStart.trans hux, hvars.pxEnd.trans hue, by rw [hvars.free, ← hu']; rfl, by rw [hvars.minimum, ← hu']; rfl,
        by rw [hvars.bit, ← hu']; rfl⟩
    · rw [(hframe ⟨e.addr, w⟩ (by simp)).2, hus, if_pos rfl]
    · rw [hsum]
      simp only
      omega
    · obtain ⟨hn, hs⟩ := hne a ha
      rw [hn, hs, hun]
      refine ⟨rfl, hother _ (Layout.taken_ne hp ha) ?_⟩
      exact Layout.taken_ne hswap (by simp [ha])
  · rw [if_neg hlarge]
    refine ⟨h, N, e.size, rfl, .refl h, hl, hp, hwe, hsize, rfl, by omega, fun a _ => ⟨rfl, rfl⟩⟩

theorem next_takeBlock (h : Heap) (a x : ℕ) : (takeBlock h a).next x = if x = a then 0 else h.next x := by
  unfold takeBlock
  rw [Heap.next_setNext, Heap.next_setSize, Heap.next_setCounters]

theorem size_takeBlock (h : Heap) (a x : ℕ) :
    (takeBlock h a).size x = if x = a then h.size a ||| h.xBlockAllocatedBit else h.size x := by
  unfold takeBlock
  rw [Heap.size_setNext, Heap.size_setSize, Heap.size_setCounters, Heap.size_setCounters, Heap.bit_setCounters]

theorem free_takeBlock (h : Heap) (a : ℕ) :
    (takeBlock h a).xFreeBytesRemaining = sizeSub h.xFreeBytesRemaining (h.size a) := by
  unfold takeBlock
  rfl

theorem minimum_takeBlock (h : Heap) (a : ℕ) : (takeBlock h a).xMinimumEverFreeBytesRemaining =
    if (takeBlock h a).xFreeBytesRemaining < h.xMinimumEverFreeBytesRemaining then (takeBlock h a).xFreeBytesRemaining
    else h.xMinimumEverFreeBytesRemaining := by
  unfold takeBlock
  rfl

theorem vars_takeBlock (h : Heap) (a : ℕ) : (takeBlock h a).xStart = h.xStart ∧ (takeBlock h a).pxEnd = h.pxEnd ∧
    (takeBlock h a).xBlockAllocatedBit = h.xBlockAllocatedBit := by
  have hfix : (takeBlock h a).fixed = h.fixed := by
    unfold takeBlock
    rw [Heap.fixed_setNext, Heap.fixed_setSize, Heap.fixed_setCounters]
  simpa [Heap.fixed] using hfix

/-- The block in hand is given to the application. -/
theorem takeBlock_layout (hu : Usable R h.xStart) (hl : Lists h N) (hp : Parts R 8 N (e :: A)) (hlast : ∀ r ∈ R, r.hi ≤ h.pxEnd)
    (hbit : h.xBlockAllocatedBit = 2 ^ 31) (hsize : h.size e.addr = e.size)
    (htaken : ∀ a ∈ A, h.next a.addr = 0 ∧ h.size a.addr = a.size ||| 2 ^ 31) (hfree : h.xFreeBytesRemaining = total N + e.size)
    (hall : total N + e.size + total A = regionsBytes R) :
    Layout R (takeBlock h e.addr) N (e :: A) := by
  have htotal := hu.total
  obtain ⟨-, -, hex⟩ := hu.isPart_lt (hp.hand e (by simp))
  have hcount : (takeBlock h e.addr).xFreeBytesRemaining = total N := by
    rw [free_takeBlock, hfree, hsize, sizeSub_eq (by omega)]
    omega
  have hsame : ∀ x, x ≠ e.addr → (takeBlock h e.addr).next x = h.next x ∧ (takeBlock h e.addr).size x = h.size x :=
    fun x hx => ⟨by rw [next_takeBlock, if_neg hx], by rw [size_takeBlock, if_neg hx]⟩
  obtain ⟨hx, hend, hb⟩ := vars_takeBlock h e.addr
  refine ⟨by rwa [hx], hl.congr hx hend (hsame _ hex.symm) fun d hd => hsame _ (hp.addr_ne hd (by simp)), hp, by rwa [hend],
    hb.trans hbit, ?_, hcount, ?_, ?_⟩
  · refine List.forall_mem_cons.mpr ⟨⟨by rw [next_takeBlock, if_pos rfl], ?_⟩, fun a ha => ?_⟩
    · rw [size_takeBlock, if_pos rfl, hsize, hbit]
    · obtain ⟨hn, hs⟩ := hsame _ (Layout.taken_ne hp ha)
      rw [hn, hs]
      exact htaken a ha
  · rw [minimum_takeBlock, hcount]
    split_ifs <;> omega
  · rw [total_cons]
    omega

/-- The search ends at a block that is large enough, or at the end of the list. -/
theorem Layout.search (hl : Layout R h N A) (hw : 0 < w) (hf : N.length ≤ fuel) :
    (∃ pre e post, N = pre ++ e :: post ∧ w ≤ e.size ∧ e.addr ≠ h.pxEnd ∧
        mallocLoop h w fuel h.xStart (h.next h.xStart) = some (lastCell h.xStart pre, e.addr)) ∨
      ((∀ e ∈ N, e.size < w) ∧
        ∃ p, mallocLoop h w fuel h.xStart (h.next h.xStart) = some (p, h.pxEnd)) := by
  obtain ⟨N₀, hN⟩ := hl.lists.last
  obtain ⟨pre, e, post, rfl, hpre, hend, heq⟩ := mallocLoop_eq (w := w) hl.lists.chained (by simp [hN]) hl.lists.pos hf
  by_cases hlt : e.size < w
  · right
    obtain rfl := hend hlt
    have hz := (List.append_inj' hN rfl).2
    simp only [List.cons.injEq, and_true] at hz
    refine ⟨fun d hd => ?_, _, by rw [heq, hz]⟩
    rcases List.mem_append.mp hd with hd | hd
    · exact hpre d hd
    · rwa [List.mem_singleton.mp hd]
  · left
    exact ⟨pre, e, post, rfl, by omega, (hl.addr_lt_pxEnd (hl.isPart (by simp) (by omega))).ne, heq⟩

/-- What an allocation gives: a new block, large enough, or `NULL` if there is none. -/
theorem Layout.alloc (hl : Layout R h N A) (hn : n < 2 ^ 32) (hf : N.length ≤ fuel) :
    (∃ h' N' a, pvPortMalloc fuel n h = some (a.addr + xHeapStructSize, h') ∧ Layout R h' N' (a :: A) ∧
        0 < n ∧ roundedSize n ≤ a.size ∧ N'.length ≤ N.length + 1 ∧
        h'.xMinimumEverFreeBytesRemaining = min h.xMinimumEverFreeBytesRemaining h'.xFreeBytesRemaining) ∨
      (pvPortMalloc fuel n h = some (0, h) ∧ (n = 0 ∨ 2 ^ 31 ≤ n ∨ ∀ e ∈ N, e.size < roundedSize n)) := by
  have hend : h.pxEnd ≠ 0 := by
    obtain ⟨N₀, hN⟩ := hl.lists.last
    exact hl.lists.pos ⟨h.pxEnd, 0⟩ (by simp [hN])
  rw [pvPortMalloc, configAssert, if_pos hend, Option.bind_eq_bind, Option.bind_some, hl.bit]
  by_cases hbig : n < 2 ^ 31
  swap
  · right
    rw [if_neg (by rwa [and_bit_eq_zero hn])]
    exact ⟨rfl, .inr (.inl (by omega))⟩
  rw [if_pos ((and_bit_eq_zero hn).mpr hbig)]
  simp only [hl.free]
  by_cases hgo : roundedSize n > 0 ∧ roundedSize n ≤ total N
  swap
  · right
    rw [if_neg hgo]
    refine ⟨rfl, ?_⟩
    rcases Nat.eq_zero_or_pos n with h0 | hpos
    · exact .inl h0
    · refine .inr (.inr fun e he => ?_)
      have := (roundedSize_spec hpos).2.1
      have := size_le_total he
      omega
  rw [if_pos hgo]
  have hpos : 0 < n := by
    rcases Nat.eq_zero_or_pos n with rfl | hpos
    · exact absurd hgo.1 (lt_irrefl 0)
    · exact hpos
  obtain ⟨hdvd, hround, -⟩ := roundedSize_spec hpos
  rcases hl.search hgo.1 hf with ⟨pre, e, post, rfl, hlarge, hne, heq⟩ | ⟨hno, p, heq⟩
  swap
  · right
    rw [heq]
    simp only [Option.bind_eq_bind, Option.bind_some, ne_eq, not_true, if_false]
    exact ⟨rfl, .inr (.inr hno)⟩
  left
  obtain ⟨hfront, hesize, -⟩ := (chained_append e).mp hl.lists.chained
  have hepos : 0 < e.size := by omega
  have hparts := hl.parts.take hepos
  obtain ⟨h', N', m, hsplit, hvars, hlists', hparts', hwm, hm, hsum, hlen, hframe⟩ := splitBlock_spec (w := roundedSize n)
    (h := h.setNext (lastCell h.xStart pre) (h.next e.addr)) hl.usable (hl.lists.remove hne) hparts hl.last
    (by rw [Heap.size_setNext, hesize]) hgo.1 hlarge hdvd (show (pre ++ post).length ≤ fuel by simp at hf ⊢; omega)
  have hall := hl.all
  have hNsum : total (pre ++ post) + e.size = total (pre ++ e :: post) := by
    simp only [total_append, total_cons]
    omega
  refine ⟨takeBlock h' e.addr, N', ⟨e.addr, m⟩, ?_, ?_, hpos, hwm, by simp at hlen ⊢; omega, ?_⟩
  · rw [heq]
    simp only [Option.bind_eq_bind, Option.bind_some, ne_eq, hne, not_false_eq_true, if_true, hfront.last, hsplit]
    rfl
  · refine takeBlock_layout ?_ hlists' hparts' ?_ (hvars.bit.trans hl.bit) hm ?_ ?_ ?_
    · rw [hvars.xStart]
      exact hl.usable
    · rw [hvars.pxEnd]
      exact hl.last
    · intro a ha
      obtain ⟨hn, hs⟩ := hframe a ha
      have hap : a.addr ≠ lastCell h.xStart pre := by
        rcases lastCell_mem h.xStart pre with hx | ⟨c, hc, hx⟩
        · rw [hx]
          exact (hl.usable.isPart_lt (hl.parts.hand a ha)).2.2
        · rw [hx]
          exact (hl.parts.addr_ne (by simp [hc]) ha).symm
      rw [hn, hs, Heap.next_setNext, if_neg hap, Heap.size_setNext]
      exact hl.taken a ha
    · rw [hvars.free]
      show h.xFreeBytesRemaining = _
      rw [hl.free]
      simp only
      omega
    · simp only
      omega
  · have hmin : h'.xMinimumEverFreeBytesRemaining = h.xMinimumEverFreeBytesRemaining := hvars.minimum
    rw [minimum_takeBlock, hmin]
    split_ifs <;> omega

end Ln882x.Kernel
