import Ln882x.Kernel.HeapInvariant

/-! Runs of the heap. The regions are linked into one list, a free block and an end mark for
each. From then on the application allocates and releases, in any order and as often as
it likes, releasing only what it holds. -/

namespace Ln882x.Kernel

open Memory

variable {h h' : Heap} {R Q : List Region} {N A : List Extent} {r : Region} {n fuel : ℕ}

/-! ### The regions -/

/-- The part of a region that is used: from the aligned start to the end mark. -/
def usableRegion (r : HeapRegion) : Region := ⟨alignUp r.pucStartAddress, markerOf r⟩

/-- The free block and the end mark of a region. -/
def regionNodes (r : Region) : List Extent := [⟨r.lo, r.bytes⟩, ⟨r.hi, 0⟩]

def nodes (R : List Region) : List Extent := R.flatMap regionNodes

@[simp] theorem nodes_cons (r : Region) (R : List Region) : nodes (r :: R) = ⟨r.lo, r.bytes⟩ :: ⟨r.hi, 0⟩ :: nodes R := rfl

@[simp] theorem nodes_append (R Q : List Region) : nodes (R ++ Q) = nodes R ++ nodes Q := List.flatMap_append

@[simp] theorem total_nodes (R : List Region) : total (nodes R) = regionsBytes R := by
  induction R with
  | nil => rfl
  | cons r R ih => simp [ih, regionsBytes]

@[simp] theorem length_nodes (R : List Region) : (nodes R).length = 2 * R.length := by
  induction R with
  | nil => rfl
  | cons r R ih =>
    simp [ih]
    omega

theorem mem_nodes {e : Extent} : e ∈ nodes R ↔ ∃ r ∈ R, e = ⟨r.lo, r.bytes⟩ ∨ e = ⟨r.hi, 0⟩ := by
  simp [nodes, regionNodes]

theorem lastCell_nodes (p : ℕ) (R : List Region) (r : Region) : lastCell p (nodes (R ++ [r])) = r.hi := by
  simp [nodes, regionNodes]

theorem ascending_nodes (hR : Separate R) : Ascending (nodes R) := by
  induction R with
  | nil => exact List.Pairwise.nil
  | cons r R ih =>
    obtain ⟨hlt, hp⟩ := hR
    obtain ⟨hr, hp⟩ := List.pairwise_cons.mp hp
    have hrlt : r.lo < r.hi := hlt r (by simp)
    have hlater : ∀ e ∈ nodes R, r.hi < e.addr := by
      intro e he
      obtain ⟨q, hq, rfl | rfl⟩ := mem_nodes.mp he
      · exact hr q hq
      · exact (hr q hq).trans (hlt q (by simp [hq]))
    rw [nodes_cons]
    refine List.pairwise_cons.mpr ⟨List.forall_mem_cons.mpr ⟨?_, fun e he => ?_⟩, List.pairwise_cons.mpr ⟨fun e he => ?_, ?_⟩⟩
    · simp only [Extent.Before, Extent.stop, Region.bytes]
      omega
    · have := hlater e he
      simp only [Extent.Before, Extent.stop, Region.bytes]
      omega
    · have := hlater e he
      simp only [Extent.Before, Extent.stop]
      omega
    · exact ih ⟨fun q hq => hlt q (by simp [hq]), hp⟩

/-- At the start each region is one free part. -/
theorem parts_nodes {x : ℕ} (hu : Usable R x) : Parts R 8 (nodes R) [] := by
  refine ⟨hu.separate, ?_, by simp, ascending_nodes hu.separate, by simp, List.Pairwise.nil, ?_, ?_⟩
  · intro e he
    obtain ⟨r, hr, rfl | rfl⟩ := mem_nodes.mp he
    · have hlt := hu.separate.1 r hr
      refine .inl ⟨r, hr, le_rfl, ?_, hu.lo_aligned r hr, Nat.dvd_sub (hu.hi_aligned r hr) (hu.lo_aligned r hr), ?_⟩
      · simp only [Extent.stop, Region.bytes]
        omega
      · simp only [Region.bytes]
        omega
    · exact .inr ⟨r, hr, rfl⟩
  · intro e he d hd hep hdp heq
    obtain ⟨r, hr, rfl | rfl⟩ := mem_nodes.mp he
    · obtain ⟨q, hq, rfl | rfl⟩ := mem_nodes.mp hd
      · have hlt := hu.separate.1 r hr
        have hlt' := hu.separate.1 q hq
        simp only [Extent.stop, Region.bytes] at *
        have := hu.separate.same hr hq (x := r.hi) hlt.le le_rfl (by omega) (by omega)
        subst this
        omega
      · exact absurd hdp (lt_irrefl 0)
    · exact absurd hep (lt_irrefl 0)
  · intro r hr x hlo hhi
    refine ⟨⟨r.lo, r.bytes⟩, by simp [mem_nodes]; exact ⟨r, hr, .inl ⟨rfl, rfl⟩⟩, hlo, ?_⟩
    simp only [Extent.stop, Region.bytes]
    omega

/-- The regions `R` are in the list; the last one has the end of the list. -/
structure Linked (h : Heap) (R : List Region) : Prop where
  chained : Chained h.next h.size h.xStart (nodes R) 0
  start : h.size h.xStart = 0
  last : ∃ Q r, R = Q ++ [r] ∧ h.pxEnd = r.hi

/-- The first region: `xStart` points to its block. -/
theorem addRegion_first {r : HeapRegion} (h0 : h.pxEnd = 0) (hlt : (usableRegion r).lo < (usableRegion r).hi)
    (hoff : h.xStart < (usableRegion r).lo ∨ (usableRegion r).hi < h.xStart) :
    ∃ h', addRegion true r h = some h' ∧ h'.xStart = h.xStart ∧ Linked h' [usableRegion r] ∧
      h'.size (alignUp r.pucStartAddress) = (usableRegion r).bytes := by
  simp only [usableRegion, Region.bytes] at hlt hoff ⊢
  generalize hlo : alignUp r.pucStartAddress = lo at *
  generalize hhi : markerOf r = hi at *
  have hx : h.xStart ≠ lo ∧ h.xStart ≠ hi ∧ hi ≠ lo := by omega
  refine ⟨(((h.setBlock h.xStart ⟨lo, 0⟩).setEnd hi).setBlock hi ⟨0, 0⟩).setBlock lo ⟨hi, hi - lo⟩, ?_, by simp,
    ⟨?_, ?_, [], ⟨lo, hi⟩, rfl, by simp⟩, by simp⟩
  · simp [addRegion, startRegion, h0, hlo, hhi]
  · simp [nodes, regionNodes, Region.bytes, hx]
  · simp [hx]

/-- A later region: the end mark before it points to its block. -/
theorem addRegion_later {r : HeapRegion} (hL : Linked h R) (hu : Usable (R ++ [usableRegion r]) h.xStart) :
    ∃ h', addRegion false r h = some h' ∧ h'.xStart = h.xStart ∧ Linked h' (R ++ [usableRegion r]) ∧
      h'.size (alignUp r.pucStartAddress) = (usableRegion r).bytes := by
  obtain ⟨Q, q, hR, hq⟩ := hL.last
  have hqmem : q ∈ R ++ [usableRegion r] := by simp [hR]
  have hlt := hu.separate.1 (usableRegion r) (by simp)
  have hqlt := hu.separate.1 q hqmem
  have hoff := hu.off (usableRegion r) (by simp)
  have hqoff := hu.off q hqmem
  have hpos := hu.lo_pos q hqmem
  have hcross := (List.pairwise_append.mp hu.separate.2).2.2
  have hqr : q.hi < (usableRegion r).lo := hcross q (by simp [hR]) _ (by simp)
  have hasc := ascending_nodes hu.separate
  have hnodup : (h.xStart :: (nodes R).map Extent.addr).Nodup := by
    rw [nodes_append] at hasc
    refine List.nodup_cons.mpr ⟨?_, Ascending.nodup (List.pairwise_append.mp hasc).1⟩
    rw [List.mem_map]
    rintro ⟨e, he, heq⟩
    obtain ⟨p, hp, hcell⟩ := mem_nodes.mp he
    have h1 := hu.off p (by simp [hp])
    have h2 := hu.separate.1 p (by simp [hp])
    rcases hcell with rfl | rfl <;> simp only at heq <;> omega
  simp only [usableRegion, Region.bytes] at hlt hoff hqr ⊢
  have hbelow : ∀ e ∈ nodes R, e.addr < alignUp r.pucStartAddress := by
    intro e he
    obtain ⟨p, hp, hcell⟩ := mem_nodes.mp he
    have h1 : p.hi < alignUp r.pucStartAddress := hcross p hp _ (List.mem_singleton.mpr rfl)
    have h2 := hu.separate.1 p (by simp [hp])
    rcases hcell with rfl | rfl <;> simp only <;> omega
  have hlast : lastCell h.xStart (nodes R) = h.pxEnd := by rw [hR, lastCell_nodes, hq]
  generalize hlo : alignUp r.pucStartAddress = lo at *
  generalize hhi : markerOf r = hi at *
  have hx : h.xStart ≠ lo ∧ h.xStart ≠ hi ∧ h.xStart ≠ h.pxEnd ∧ lo ≠ h.pxEnd ∧ hi ≠ h.pxEnd ∧ hi ≠ lo := by omega
  have hend : h.pxEnd ≠ 0 ∧ h.pxEnd < lo := by omega
  refine ⟨(((h.setEnd hi).setBlock hi ⟨0, 0⟩).setBlock lo ⟨hi, hi - lo⟩).setNext h.pxEnd lo, ?_, by simp,
    ⟨?_, ?_, R, ⟨lo, hi⟩, rfl, by simp⟩, by simp⟩
  · simp [addRegion, startRegion, configAssert, hlo, hhi, hend]
  · have hcell : ∀ e ∈ nodes R, e.addr ≠ lo ∧ e.addr ≠ hi := by
      intro e he
      have := hbelow e he
      omega
    rw [nodes_append]
    refine (chained_append _).mpr ⟨hL.chained.relink ?_ ?_ ?_ ?_ hnodup, ?_, ?_⟩
    · simp [hlast]
    · simp [hx]
    · intro e he hne
      rw [hlast] at hne
      simp [hne, hcell e he]
    · intro e he
      simp [hcell e he]
    · simp [Region.bytes]
    · simp [hx]
  · simp [hx, hL.start]

theorem regionsBytes_cons (r : Region) (R : List Region) : regionsBytes (r :: R) = r.bytes + regionsBytes R := by simp [regionsBytes]

theorem regionsBytes_append (R Q : List Region) : regionsBytes (R ++ Q) = regionsBytes R + regionsBytes Q := by simp [regionsBytes]

/-- Regions that are usable are so without the later ones. -/
theorem Usable.left {x : ℕ} (hu : Usable (R ++ Q) x) : Usable R x := by
  have hmem : ∀ r ∈ R, r ∈ R ++ Q := fun r hr => List.mem_append_left Q hr
  have htotal := hu.total
  rw [regionsBytes_append] at htotal
  exact ⟨⟨fun r hr => hu.separate.1 r (hmem r hr), (List.pairwise_append.mp hu.separate.2).1⟩, fun r hr => hu.lo_pos r (hmem r hr),
    fun r hr => hu.lo_aligned r (hmem r hr), fun r hr => hu.hi_aligned r (hmem r hr), fun r hr => hu.small r (hmem r hr),
    by omega, fun r hr => hu.off r (hmem r hr)⟩

theorem defineLoop_later {rs : List HeapRegion} {t : ℕ} (hL : Linked h R) (hu : Usable (R ++ rs.map usableRegion) h.xStart)
    (hpos : ∀ r ∈ rs, 0 < r.xSizeInBytes) (ht : t = regionsBytes R) :
    ∃ h', defineLoop false rs t h = some (regionsBytes (R ++ rs.map usableRegion), h') ∧ h'.xStart = h.xStart ∧
      Linked h' (R ++ rs.map usableRegion) := by
  induction rs generalizing h R t with
  | nil => exact ⟨h, by simp [defineLoop, ht], rfl, by simpa using hL⟩
  | cons r rs ih =>
    have hassoc : R ++ (r :: rs).map usableRegion = (R ++ [usableRegion r]) ++ rs.map usableRegion := by simp
    rw [hassoc] at hu ⊢
    obtain ⟨h₁, hadd, hx, hL₁, hsize⟩ := addRegion_later hL hu.left
    have hsum : sizeAdd t (h₁.size (alignUp r.pucStartAddress)) = regionsBytes (R ++ [usableRegion r]) := by
      have htotal := hu.left.total
      rw [regionsBytes_append] at htotal ⊢
      rw [hsize, ht, sizeAdd_eq] <;> simp [regionsBytes] at htotal ⊢
      exact htotal
    obtain ⟨h', hloop, hx', hL'⟩ := ih hL₁ (hx ▸ hu) (fun q hq => hpos q (by simp [hq])) hsum
    refine ⟨h', ?_, hx'.trans hx, hL'⟩
    simp [defineLoop, hpos r, hadd, hloop]

/-- The kernel's list of usable regions becomes the free list: a block and an end mark for each. -/
theorem vPortDefineHeapRegions_layout {rs : List HeapRegion} {mem : ℕ → BlockLink} {xStart : ℕ} (hne : rs ≠ [])
    (hu : Usable (rs.map usableRegion) xStart) (hpos : ∀ r ∈ rs, 0 < r.xSizeInBytes) :
    ∃ h, vPortDefineHeapRegions rs (Heap.unset mem xStart) = some h ∧
      Layout (rs.map usableRegion) h (nodes (rs.map usableRegion)) [] ∧
      h.xMinimumEverFreeBytesRemaining = h.xFreeBytesRemaining := by
  obtain ⟨r, rs, rfl⟩ := List.exists_cons_of_ne_nil hne
  obtain ⟨h₁, hadd, hx, hL₁, hsize⟩ := addRegion_first (h := Heap.unset mem xStart) rfl
    (hu.separate.1 (usableRegion r) (by simp)) (hu.off (usableRegion r) (by simp))
  have hsum : sizeAdd 0 (h₁.size (alignUp r.pucStartAddress)) = regionsBytes [usableRegion r] := by
    have htotal := hu.left (R := [usableRegion r])
    have := htotal.total
    rw [hsize, sizeAdd_eq] <;> simp [regionsBytes] at this ⊢
    exact this
  obtain ⟨h₂, hloop, hx₂, hL₂⟩ := @defineLoop_later _ _ rs _ hL₁ (hx ▸ hu) (fun q hq => hpos q (by simp [hq])) hsum
  rw [show [usableRegion r] ++ rs.map usableRegion = (r :: rs).map usableRegion from rfl] at hloop hL₂
  generalize hR : (r :: rs).map usableRegion = R at *
  have hstart : h₂.xStart = xStart := hx₂.trans hx
  have hall : defineLoop true (r :: rs) 0 (Heap.unset mem xStart) = some (regionsBytes R, h₂) := by
    simp [defineLoop, hpos r, hadd, hloop]
  have hnz : regionsBytes R ≠ 0 := by
    have hlt := hu.separate.1 (usableRegion r) (by simp [← hR])
    rw [← hR, List.map_cons, regionsBytes_cons]
    simp only [Region.bytes]
    omega
  have hbit : (1 : ℕ) <<< 31 = 2 ^ 31 := by rw [Nat.one_shiftLeft]
  generalize hh : (h₂.setCounters (regionsBytes R) (regionsBytes R)).setBit (1 <<< 31) = h
  have hmem : h.mem = h₂.mem ∧ h.xStart = h₂.xStart ∧ h.pxEnd = h₂.pxEnd := by rw [← hh]; exact ⟨rfl, rfl, rfl⟩
  obtain ⟨Q, q, hQ, hq⟩ := hL₂.last
  have hnode := (parts_nodes hu).node
  refine ⟨h, ?_, ⟨?_, ⟨?_, ?_, ?_, ascending_nodes hu.separate, ?_, ?_⟩, parts_nodes hu, ?_, ?_, by simp, ?_, ?_, by simp⟩, ?_⟩
  · have h0 : (Heap.unset mem xStart).pxEnd = 0 := rfl
    simp only [vPortDefineHeapRegions, configAssert, h0, hall, if_true, hnz, ne_eq, not_false_eq_true, Option.bind_eq_bind,
      Option.bind_some, hh]
    rfl
  · rw [hmem.2.1, hstart]
    exact hu
  · rw [hmem.2.1]
    exact hL₂.chained.move (by simp [Heap.next, hmem.1]) (fun e he => by simp [Heap.next, Heap.size, hmem.1])
  · rw [hmem.2.1, Heap.size, hmem.1]
    exact hL₂.start
  · exact ⟨nodes Q ++ [⟨q.lo, q.bytes⟩], by rw [hQ, nodes_append, hmem.2.2, hq]; simp [nodes, regionNodes]⟩
  · rw [hmem.2.1, hstart]
    exact fun e he => (hu.node (hnode e he)).1
  · exact fun e he => (hu.node (hnode e he)).2
  · rw [hmem.2.2, hq, hQ]
    intro p hp
    rcases List.mem_append.mp hp with hp' | hp'
    · have hsep := hu.separate
      rw [hQ] at hsep
      have h1 := (List.pairwise_append.mp hsep.2).2.2 p hp' q (by simp)
      have h2 := hsep.1 q (by simp)
      omega
    · rw [List.mem_singleton.mp hp']
  · rw [← hh, ← hbit]
    rfl
  · rw [← hh, total_nodes]
    rfl
  · rw [← hh, total_nodes]
    exact le_rfl
  · rw [← hh]
    rfl

/-! ### Runs -/

/-- A call of the application, or its writing anything at all to memory. -/
inductive HeapCall where
  | malloc (xWantedSize : ℕ)
  | free (pv : ℕ)
  | write (xAddress : ℕ) (v : BlockLink)

/-- The heap and what the application holds: addresses, with the sizes that it asked for. -/
structure App where
  heap : Heap
  held : List (ℕ × ℕ)

/-- The block at an address that was given away, as its header tells. -/
def blockOf (h : Heap) (pv : ℕ) : Extent :=
  ⟨pv - xHeapStructSize, h.size (pv - xHeapStructSize) &&& (2 ^ 32 - 1 - h.xBlockAllocatedBit)⟩

def App.blocks (s : App) : List Extent := s.held.map fun c => blockOf s.heap c.1

def App.call (fuel : ℕ) (s : App) : HeapCall → Option App
  | .malloc n => do
    let (pv, h) ← pvPortMalloc fuel n s.heap
    return ⟨h, if pv ≠ 0 then (pv, n) :: s.held else s.held⟩
  | .free pv => do
    let h ← vPortFree fuel pv s.heap
    return ⟨h, s.held.eraseP fun c => decide (c.1 = pv)⟩
  | .write x v => some { s with heap := s.heap.setBlock x v }

def App.calls (fuel : ℕ) : App → List HeapCall → Option App
  | s, [] => some s
  | s, c :: cs => do
    let s ← s.call fuel c
    App.calls fuel s cs

/-- The application asks for a size of its word, releases what it holds, or `NULL`, and
writes to what it holds. -/
def App.Allows (s : App) : HeapCall → Prop
  | .malloc n => n < 2 ^ 32
  | .free pv => pv = 0 ∨ ∃ c ∈ s.held, c.1 = pv
  | .write x _ => ∃ c ∈ s.held, c.1 ≤ x ∧ x + xHeapStructSize ≤ (blockOf s.heap c.1).stop

/-- Every call of a run is allowed when it is made. -/
def App.Legal (fuel : ℕ) : App → List HeapCall → Prop
  | _, [] => True
  | s, c :: cs => s.Allows c ∧ ∀ s', s.call fuel c = some s' → App.Legal fuel s' cs

/-- The heap is in order: its list holds at most `k` ranges, the blocks of the application are
as large as it asked for. -/
structure App.Ordered (R : List Region) (k : ℕ) (s : App) : Prop where
  layout : ∃ N, Layout R s.heap N s.blocks ∧ N.length ≤ k
  held : ∀ c ∈ s.held, xHeapStructSize ≤ c.1 ∧ 0 < c.2 ∧ roundedSize c.2 ≤ (blockOf s.heap c.1).size

/-- The header of a block that was given away tells its size. -/
theorem Layout.blockOf (hl : Layout R h N A) {a : Extent} (ha : a ∈ A) : blockOf h (a.addr + xHeapStructSize) = a := by
  obtain ⟨-, hsize⟩ := hl.taken a ha
  have hsmall := (hl.usable.isPart_lt (hl.parts.hand a ha)).2.1
  rw [Kernel.blockOf, Nat.add_sub_cancel, hl.bit, hsize, or_bit_clear hsmall]

theorem Layout.blockOf_eq (hl : Layout R h' N A) {pv : ℕ} (hpv : xHeapStructSize ≤ pv) (ha : Kernel.blockOf h pv ∈ A) :
    Kernel.blockOf h' pv = Kernel.blockOf h pv := by
  have heq : pv = (Kernel.blockOf h pv).addr + xHeapStructSize := (Nat.sub_add_cancel hpv).symm
  rw [heq]
  exact (hl.blockOf ha).trans (by rw [← heq])

/-- What the application goes on holding is where it was and as large. -/
theorem Layout.blocks_eq {held : List (ℕ × ℕ)} (hl : Layout R h' N A) (hpv : ∀ c ∈ held, xHeapStructSize ≤ c.1)
    (hA : ∀ c ∈ held, Kernel.blockOf h c.1 ∈ A) :
    held.map (fun c => Kernel.blockOf h' c.1) = held.map (fun c => Kernel.blockOf h c.1) :=
  List.map_congr_left fun c hc => hl.blockOf_eq (hpv c hc) (hA c hc)

section Call
variable {s : App} {k : ℕ} (hs : s.Ordered R k) (hk : k ≤ fuel)
include hs hk

theorem App.Ordered.malloc (hn : n < 2 ^ 32) : ∃ s', s.call fuel (.malloc n) = some s' ∧ s'.Ordered R (k + 1) ∧
    s'.heap.xMinimumEverFreeBytesRemaining = min s.heap.xMinimumEverFreeBytesRemaining s'.heap.xFreeBytesRemaining := by
  obtain ⟨⟨N, hl, hN⟩, hheld⟩ := hs
  rcases hl.alloc hn (hN.trans hk) with ⟨h', N', a, heq, hl', hpos, hsize, hlen, hmin⟩ | ⟨heq, -⟩
  · have hmem : ∀ c ∈ s.held, Kernel.blockOf s.heap c.1 ∈ a :: s.blocks := fun c hc =>
      List.mem_cons_of_mem a (List.mem_map_of_mem hc)
    refine ⟨⟨h', (a.addr + xHeapStructSize, n) :: s.held⟩, by simp [App.call, heq, xHeapStructSize], ⟨⟨N', ?_, by omega⟩, ?_⟩, hmin⟩
    · rw [App.blocks, List.map_cons, hl'.blockOf (by simp), hl'.blocks_eq (fun c hc => (hheld c hc).1) hmem]
      exact hl'
    · refine List.forall_mem_cons.mpr ⟨⟨Nat.le_add_left _ _, hpos, ?_⟩, fun c hc => ?_⟩
      · rwa [hl'.blockOf (by simp)]
      · rw [hl'.blockOf_eq (hheld c hc).1 (hmem c hc)]
        exact hheld c hc
  · have hfree := hl.free
    have hmin := hl.minimum
    exact ⟨s, by simp [App.call, heq], ⟨⟨N, hl, by omega⟩, hheld⟩, by omega⟩

theorem App.Ordered.free {pv : ℕ} (hpv : pv = 0 ∨ ∃ c ∈ s.held, c.1 = pv) : ∃ s', s.call fuel (.free pv) = some s' ∧
    s'.Ordered R (k + 1) ∧
    s'.heap.xMinimumEverFreeBytesRemaining = min s.heap.xMinimumEverFreeBytesRemaining s'.heap.xFreeBytesRemaining := by
  obtain ⟨⟨N, hl, hN⟩, hheld⟩ := hs
  rcases hpv with rfl | ⟨c, hc, rfl⟩
  · have hnone : s.held.eraseP (fun c => decide (c.1 = 0)) = s.held := by
      refine List.eraseP_of_forall_not fun c hc => ?_
      have := (hheld c hc).1
      simp only [xHeapStructSize] at this
      simp
      omega
    have hfree := hl.free
    have hmin := hl.minimum
    exact ⟨s, by simp [App.call, vPortFree, hnone], ⟨⟨N, hl, by omega⟩, hheld⟩, by omega⟩
  · obtain ⟨d, front, rear, -, hd, hheldEq, herase⟩ := List.exists_of_eraseP (p := fun d => decide (d.1 = c.1)) hc (by simp)
    have hdc : d.1 = c.1 := by simpa using hd
    have hmem : ∀ e ∈ front ++ rear, e ∈ s.held := by
      rw [hheldEq]
      simp
      tauto
    have hperm : s.blocks.Perm (Kernel.blockOf s.heap c.1 :: (front ++ rear).map fun e => Kernel.blockOf s.heap e.1) := by
      rw [App.blocks, hheldEq, List.map_append, List.map_cons, hdc, List.map_append]
      exact List.perm_middle
    obtain ⟨h', N', heq, hl', hlen, hmin⟩ := (hl.perm hperm).release (hN.trans hk)
    have hcaddr : (Kernel.blockOf s.heap c.1).addr + xHeapStructSize = c.1 := Nat.sub_add_cancel (hheld c hc).1
    rw [hcaddr] at heq
    have hsame := hl'.blocks_eq (show ∀ e ∈ front ++ rear, xHeapStructSize ≤ e.1 from fun e he => (hheld e (hmem e he)).1)
      fun e he => List.mem_map_of_mem he
    refine ⟨⟨h', front ++ rear⟩, by simp [App.call, heq, herase], ⟨⟨N', ?_, by omega⟩, fun e he => ?_⟩, hmin⟩
    · rw [App.blocks, hsame]
      exact hl'
    · rw [hl'.blockOf_eq (hheld e (hmem e he)).1 (List.mem_map_of_mem he)]
      exact hheld e (hmem e he)

/-- What one call keeps. -/
theorem App.Ordered.call {c : HeapCall} (hc : s.Allows c) : ∃ s', s.call fuel c = some s' ∧ s'.Ordered R (k + 1) ∧
    s'.heap.xMinimumEverFreeBytesRemaining = min s.heap.xMinimumEverFreeBytesRemaining s'.heap.xFreeBytesRemaining := by
  cases c with
  | malloc n => exact hs.malloc hk hc
  | free pv => exact hs.free hk hc
  | write x v =>
    obtain ⟨⟨N, hl, hN⟩, hheld⟩ := hs
    obtain ⟨c, hc, hlo, hhi⟩ := hc
    have hcaddr : (blockOf s.heap c.1).addr + xHeapStructSize = c.1 := Nat.sub_add_cancel (hheld c hc).1
    simp only [xHeapStructSize] at hhi hcaddr
    have hl' := hl.write v (List.mem_map_of_mem hc) (x := x) (by omega) (by omega)
    have hmem : ∀ d ∈ s.held, blockOf s.heap d.1 ∈ s.blocks := fun d hd => List.mem_map_of_mem hd
    have hfree := hl.free
    have hmin := hl.minimum
    refine ⟨⟨s.heap.setBlock x v, s.held⟩, rfl, ⟨⟨N, ?_, by omega⟩, fun d hd => ?_⟩, ?_⟩
    · rw [App.blocks, hl'.blocks_eq (fun d hd => (hheld d hd).1) hmem]
      exact hl'
    · rw [hl'.blockOf_eq (hheld d hd).1 (hmem d hd)]
      exact hheld d hd
    · show s.heap.xMinimumEverFreeBytesRemaining = min s.heap.xMinimumEverFreeBytesRemaining s.heap.xFreeBytesRemaining
      omega

end Call

/-- What every run keeps. -/
theorem App.Ordered.calls {s : App} {k : ℕ} {cs : List HeapCall} (hs : s.Ordered R k) (hk : k + cs.length ≤ fuel)
    (hc : s.Legal fuel cs) : ∃ s', s.calls fuel cs = some s' ∧ s'.Ordered R (k + cs.length) := by
  induction cs generalizing s k with
  | nil => exact ⟨s, rfl, hs⟩
  | cons c cs ih =>
    rw [List.length_cons] at hk
    obtain ⟨s₁, heq, hs₁, -⟩ := hs.call (show k ≤ fuel by omega) hc.1
    obtain ⟨s', hrun, hs'⟩ := ih hs₁ (by omega) (hc.2 s₁ heq)
    refine ⟨s', by simp [App.calls, heq, hrun], ?_⟩
    rwa [List.length_cons, Nat.add_comm cs.length, ← Nat.add_assoc]

/-- The kernel's heap at the start: all that is usable is free. -/
theorem vPortDefineHeapRegions_ordered {rs : List HeapRegion} {mem : ℕ → BlockLink} {xStart : ℕ} (hne : rs ≠ [])
    (hu : Usable (rs.map usableRegion) xStart) (hpos : ∀ r ∈ rs, 0 < r.xSizeInBytes) :
    ∃ h, vPortDefineHeapRegions rs (Heap.unset mem xStart) = some h ∧
      App.Ordered (rs.map usableRegion) (2 * rs.length) ⟨h, []⟩ ∧ h.xMinimumEverFreeBytesRemaining = h.xFreeBytesRemaining := by
  obtain ⟨h, heq, hl, hmin⟩ := @vPortDefineHeapRegions_layout rs mem xStart hne hu hpos
  exact ⟨h, heq, ⟨⟨_, hl, by simp⟩, by simp⟩, hmin⟩

/-- What the application relies on: each block that it holds lies in one region and has the room
that it asked for, no two have a byte in common, and the counter tells what is left. -/
structure App.Sound (R : List Region) (s : App) : Prop where
  inside : ∀ c ∈ s.held, IsPart R portByteAlignment (blockOf s.heap c.1)
  room : ∀ c ∈ s.held, c.1 = (blockOf s.heap c.1).addr + xHeapStructSize ∧ 0 < c.2 ∧ c.1 + c.2 ≤ (blockOf s.heap c.1).stop
  apart : s.blocks.Pairwise Extent.Apart
  count : xPortGetFreeHeapSize s.heap + total s.blocks = regionsBytes R

theorem App.Ordered.sound {s : App} {k : ℕ} (hs : s.Ordered R k) : s.Sound R := by
  obtain ⟨⟨N, hl, -⟩, hheld⟩ := hs
  refine ⟨fun c hc => hl.parts.hand _ (List.mem_map_of_mem hc), fun c hc => ?_, hl.parts.handApart, ?_⟩
  · obtain ⟨hpv, hpos, hsize⟩ := hheld c hc
    have hround := (roundedSize_spec hpos).2.1
    have haddr : c.1 = (blockOf s.heap c.1).addr + xHeapStructSize := (Nat.sub_add_cancel hpv).symm
    refine ⟨haddr, hpos, ?_⟩
    simp only [Extent.stop, xHeapStructSize] at *
    omega
  · rw [xPortGetFreeHeapSize, hl.free]
    exact hl.all

/-- Whatever the application does with the heap, in any order, what it holds stays its own. -/
theorem heap_run_sound {rs : List HeapRegion} {mem : ℕ → BlockLink} {xStart : ℕ} (hne : rs ≠ [])
    (hu : Usable (rs.map usableRegion) xStart) (hpos : ∀ r ∈ rs, 0 < r.xSizeInBytes) :
    ∃ h, vPortDefineHeapRegions rs (Heap.unset mem xStart) = some h ∧
      ∀ cs fuel, 2 * rs.length + cs.length ≤ fuel → App.Legal fuel ⟨h, []⟩ cs →
        ∃ s, App.calls fuel ⟨h, []⟩ cs = some s ∧ s.Sound (rs.map usableRegion) := by
  obtain ⟨h, heq, hs, -⟩ := @vPortDefineHeapRegions_ordered rs mem xStart hne hu hpos
  refine ⟨h, heq, fun cs fuel hk hc => ?_⟩
  obtain ⟨s, hrun, hs'⟩ := hs.calls hk hc
  exact ⟨s, hrun, hs'.sound⟩

/-- Two regions, neither of them aligned, make a usable heap. -/
theorem usable_two : Usable ([⟨0x20001004, 0x200⟩, ⟨0x20003000, 0x101⟩].map usableRegion) 0x20000008 where
  separate := by simp [Separate, usableRegion, alignUp, markerOf, portByteAlignment, portByteAlignmentMask, xHeapStructSize]
  lo_pos := by simp [usableRegion, alignUp, portByteAlignment, portByteAlignmentMask]
  lo_aligned := by simp [usableRegion, alignUp, portByteAlignment, portByteAlignmentMask]
  hi_aligned := by simp [usableRegion, alignUp, markerOf, portByteAlignment, portByteAlignmentMask, xHeapStructSize]
  small := by simp [Region.bytes, usableRegion, alignUp, markerOf, portByteAlignment, portByteAlignmentMask, xHeapStructSize]
  total := by
    simp [regionsBytes, Region.bytes, usableRegion, alignUp, markerOf, portByteAlignment, portByteAlignmentMask, xHeapStructSize]
  off := by simp [usableRegion, alignUp, markerOf, portByteAlignment, portByteAlignmentMask, xHeapStructSize]

theorem heap_run_sound_two : ∃ h, vPortDefineHeapRegions [⟨0x20001004, 0x200⟩, ⟨0x20003000, 0x101⟩]
      (Heap.unset (fun _ => ⟨0, 0⟩) 0x20000008) = some h ∧
    ∀ cs fuel, 4 + cs.length ≤ fuel → App.Legal fuel ⟨h, []⟩ cs →
      ∃ s, App.calls fuel ⟨h, []⟩ cs = some s ∧ s.Sound ([⟨0x20001004, 0x200⟩, ⟨0x20003000, 0x101⟩].map usableRegion) :=
  heap_run_sound (by simp) usable_two (by simp)

/-- There is room for an allocation: in one region, apart from all that the application holds. -/
def App.HasRoom (R : List Region) (s : App) (n : ℕ) : Prop :=
  ∃ r ∈ R, ∃ a, r.lo ≤ a ∧ a + roundedSize n ≤ r.hi ∧ ∀ b ∈ s.blocks, Extent.Apart ⟨a, roundedSize n⟩ b

theorem App.Ordered.malloc_iff {s : App} {k : ℕ} (hs : s.Ordered R k) (hk : k ≤ fuel) (hn : n < 2 ^ 32) :
    ∃ pv h', pvPortMalloc fuel n s.heap = some (pv, h') ∧ (pv ≠ 0 ↔ 0 < n ∧ s.HasRoom R n) := by
  obtain ⟨⟨N, hl, hN⟩, -⟩ := hs
  rcases hl.alloc hn (hN.trans hk) with ⟨h', N', a, heq, hl', hpos, hsize, -, -⟩ | ⟨heq, hnone⟩
  · refine ⟨_, h', heq, iff_of_true (by simp [xHeapStructSize]) ⟨hpos, ?_⟩⟩
    -- the new block itself is the room
    obtain ⟨r, hr, hlo, hhi, -⟩ := hl'.parts.hand a (by simp)
    refine ⟨r, hr, a.addr, hlo, ?_, fun b hb => ?_⟩
    · simp only [Extent.stop] at hhi
      omega
    · have := (List.pairwise_cons.mp hl'.parts.handApart).1 b hb
      simp only [Extent.Apart, Extent.stop] at *
      omega
  · refine ⟨0, s.heap, heq, iff_of_false (by simp) ?_⟩
    rintro ⟨hpos, r, hr, a, hlo, hhi, hfree⟩
    obtain ⟨-, hround, -⟩ := roundedSize_spec hpos
    rcases hnone with h0 | hbig | hsmall
    · omega
    · have := hl.usable.small r hr
      simp only [Region.bytes] at this
      omega
    · obtain ⟨e, he, hea, hes⟩ := hl.parts.hole hr (by omega) hlo hhi hfree
      have := hsmall e he
      simp only [Extent.stop] at hes
      omega

/-- After any run an allocation fails only if no region has room for it: however the blocks
were given back, the free memory between what is held is in one piece. -/
theorem heap_run_malloc_iff {rs : List HeapRegion} {mem : ℕ → BlockLink} {xStart : ℕ} (hne : rs ≠ [])
    (hu : Usable (rs.map usableRegion) xStart) (hpos : ∀ r ∈ rs, 0 < r.xSizeInBytes) :
    ∃ h, vPortDefineHeapRegions rs (Heap.unset mem xStart) = some h ∧
      ∀ cs fuel, 2 * rs.length + cs.length ≤ fuel → App.Legal fuel ⟨h, []⟩ cs →
        ∃ s, App.calls fuel ⟨h, []⟩ cs = some s ∧ ∀ n < 2 ^ 32, ∃ pv h', pvPortMalloc fuel n s.heap = some (pv, h') ∧
          (pv ≠ 0 ↔ 0 < n ∧ s.HasRoom (rs.map usableRegion) n) := by
  obtain ⟨h, heq, hs, -⟩ := @vPortDefineHeapRegions_ordered rs mem xStart hne hu hpos
  refine ⟨h, heq, fun cs fuel hk hc => ?_⟩
  obtain ⟨s, hrun, hs'⟩ := hs.calls hk hc
  exact ⟨s, hrun, fun n hn => hs'.malloc_iff hk hn⟩

theorem heap_run_malloc_iff_two : ∃ h, vPortDefineHeapRegions [⟨0x20001004, 0x200⟩, ⟨0x20003000, 0x101⟩]
      (Heap.unset (fun _ => ⟨0, 0⟩) 0x20000008) = some h ∧
    ∀ cs fuel, 4 + cs.length ≤ fuel → App.Legal fuel ⟨h, []⟩ cs →
      ∃ s, App.calls fuel ⟨h, []⟩ cs = some s ∧ ∀ n < 2 ^ 32, ∃ pv h', pvPortMalloc fuel n s.heap = some (pv, h') ∧
        (pv ≠ 0 ↔ 0 < n ∧ s.HasRoom ([⟨0x20001004, 0x200⟩, ⟨0x20003000, 0x101⟩].map usableRegion) n) :=
  heap_run_malloc_iff (by simp) usable_two (by simp)

/-- The low-water mark goes down with the free bytes and never up. -/
theorem App.Ordered.low {s s' : App} {k : ℕ} {cs : List HeapCall} (hs : s.Ordered R k) (hk : k + cs.length ≤ fuel)
    (hc : s.Legal fuel cs) (hrun : s.calls fuel cs = some s') :
    s'.heap.xMinimumEverFreeBytesRemaining ≤ s.heap.xMinimumEverFreeBytesRemaining ∧
      (∀ front rear t, cs = front ++ rear → s.calls fuel front = some t →
        s'.heap.xMinimumEverFreeBytesRemaining ≤ t.heap.xFreeBytesRemaining) ∧
      (s'.heap.xMinimumEverFreeBytesRemaining = s.heap.xMinimumEverFreeBytesRemaining ∨
        ∃ front rear t, cs = front ++ rear ∧ s.calls fuel front = some t ∧
          t.heap.xFreeBytesRemaining = s'.heap.xMinimumEverFreeBytesRemaining) := by
  have hmin : s.heap.xMinimumEverFreeBytesRemaining ≤ s.heap.xFreeBytesRemaining := by
    obtain ⟨⟨N, hl, -⟩, -⟩ := hs
    rw [hl.free]
    exact hl.minimum
  induction cs generalizing s k with
  | nil =>
    obtain rfl : s = s' := by simpa [App.calls] using hrun
    refine ⟨le_rfl, fun front rear t hcs ht => ?_, .inl rfl⟩
    obtain ⟨rfl, -⟩ := List.append_eq_nil_iff.mp hcs.symm
    obtain rfl : s = t := by simpa [App.calls] using ht
    exact hmin
  | cons c cs ih =>
    rw [List.length_cons] at hk
    obtain ⟨s₁, heq, hs₁, hlow⟩ := hs.call (show k ≤ fuel by omega) hc.1
    have hrun₁ : s₁.calls fuel cs = some s' := by simpa [App.calls, heq] using hrun
    have hmin₁ : s₁.heap.xMinimumEverFreeBytesRemaining ≤ s₁.heap.xFreeBytesRemaining := by omega
    obtain ⟨hle, hall, hex⟩ := ih hs₁ (by omega) (hc.2 s₁ heq) hrun₁ hmin₁
    refine ⟨by omega, fun front rear t hcs ht => ?_, ?_⟩
    · cases front with
      | nil =>
        obtain rfl : s = t := by simpa [App.calls] using ht
        omega
      | cons d front =>
        rw [List.cons_append, List.cons_eq_cons] at hcs
        obtain ⟨rfl, hcs⟩ := hcs
        exact hall front rear t hcs (by simpa [App.calls, heq] using ht)
    · rcases hex with hex | ⟨front, rear, t, hcs, ht, hfree⟩
      · by_cases hnew : s.heap.xMinimumEverFreeBytesRemaining ≤ s₁.heap.xFreeBytesRemaining
        · exact .inl (by omega)
        · exact .inr ⟨[c], cs, s₁, rfl, by simp [App.calls, heq], by omega⟩
      · exact .inr ⟨c :: front, rear, t, by simp [hcs], by simp [App.calls, heq, ht], hfree⟩

/-- After any run `xPortGetMinimumEverFreeHeapSize` is the least number of free bytes that there
was between two calls. -/
theorem heap_run_minimum {rs : List HeapRegion} {mem : ℕ → BlockLink} {xStart : ℕ} (hne : rs ≠ [])
    (hu : Usable (rs.map usableRegion) xStart) (hpos : ∀ r ∈ rs, 0 < r.xSizeInBytes) :
    ∃ h, vPortDefineHeapRegions rs (Heap.unset mem xStart) = some h ∧
      ∀ cs fuel, 2 * rs.length + cs.length ≤ fuel → App.Legal fuel ⟨h, []⟩ cs →
        ∃ s, App.calls fuel ⟨h, []⟩ cs = some s ∧
          (∀ front rear t, cs = front ++ rear → App.calls fuel ⟨h, []⟩ front = some t →
            xPortGetMinimumEverFreeHeapSize s.heap ≤ xPortGetFreeHeapSize t.heap) ∧
          ∃ front rear t, cs = front ++ rear ∧ App.calls fuel ⟨h, []⟩ front = some t ∧
            xPortGetFreeHeapSize t.heap = xPortGetMinimumEverFreeHeapSize s.heap := by
  obtain ⟨h, heq, hs, hmin⟩ := @vPortDefineHeapRegions_ordered rs mem xStart hne hu hpos
  refine ⟨h, heq, fun cs fuel hk hc => ?_⟩
  obtain ⟨s, hrun, -⟩ := hs.calls hk hc
  obtain ⟨-, hall, hex⟩ := hs.low hk hc hrun
  refine ⟨s, hrun, hall, ?_⟩
  rcases hex with hex | hex
  · exact ⟨[], cs, ⟨h, []⟩, rfl, rfl, (hex.trans hmin).symm⟩
  · exact hex

theorem heap_run_minimum_two : ∃ h, vPortDefineHeapRegions [⟨0x20001004, 0x200⟩, ⟨0x20003000, 0x101⟩]
      (Heap.unset (fun _ => ⟨0, 0⟩) 0x20000008) = some h ∧
    ∀ cs fuel, 4 + cs.length ≤ fuel → App.Legal fuel ⟨h, []⟩ cs →
      ∃ s, App.calls fuel ⟨h, []⟩ cs = some s ∧
        (∀ front rear t, cs = front ++ rear → App.calls fuel ⟨h, []⟩ front = some t →
          xPortGetMinimumEverFreeHeapSize s.heap ≤ xPortGetFreeHeapSize t.heap) ∧
        ∃ front rear t, cs = front ++ rear ∧ App.calls fuel ⟨h, []⟩ front = some t ∧
          xPortGetFreeHeapSize t.heap = xPortGetMinimumEverFreeHeapSize s.heap :=
  heap_run_minimum (by simp) usable_two (by simp)

end Ln882x.Kernel
