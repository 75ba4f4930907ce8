import Mathlib.Data.List.Nodup
import Mathlib.Data.List.Range
import Mathlib.Data.UInt
import Ln882x.Runtime.Machine

/-! The memory pool of `ln_mem_pool.h`. A free chunk is on a stack of pointers and says so in the
second of its two header bytes; the clients own every other chunk. The buffers on the stack and
the buffers of the clients are, in some order, all buffers, each of them once. -/

namespace Ln882x.MemPool

open Ln882x.Runtime (Machine)

/-! ### The pool -/

def chunkBufFlagAlloc : UInt8 := 0xAA

def chunkBufFlagFree : UInt8 := 0x55

def memPoolChunkInfoSize : ℕ := 2

def lnFalse : ℕ := 0

def lnTrue : ℕ := 1

/-- `ln_mem_pool_t` and the memory at its addresses, of which 0 is the null pointer. The array
`free_chunk_ptr` lies outside of that memory. -/
structure LnMemPool where
  freeChunkCnt : ℕ
  totalChunkCnt : ℕ
  chunkSize : ℕ
  memBase : ℕ
  freeChunkPtr : ℕ → ℕ
  mem : ℕ → UInt8

/-- The loop body of `ln_mem_pool_init`, with the pointer `chunk`. -/
def initChunk (s : LnMemPool × ℕ) (i : ℕ) : LnMemPool × ℕ :=
  let pool := s.1
  let chunk := s.2
  ({ pool with
      mem := Function.update (Function.update pool.mem chunk (UInt8.ofNat i)) (chunk + 1) chunkBufFlagFree
      freeChunkPtr := Function.update pool.freeChunkPtr pool.freeChunkCnt chunk
      freeChunkCnt := (pool.freeChunkCnt + 1) % 2 ^ 16 },
    chunk + pool.chunkSize)

def lnMemPoolInit (pool : LnMemPool) : LnMemPool :=
  ((List.range pool.totalChunkCnt).foldl initChunk ({ pool with freeChunkCnt := 0 }, pool.memBase)).1

/-- A pointer behind the header, or the null pointer. -/
def lnMemPoolAlloc (pool : LnMemPool) : ℕ × LnMemPool :=
  if pool.freeChunkCnt = 0 then (0, pool)
  else
    let freeChunkCnt := pool.freeChunkCnt - 1
    let chunk := pool.freeChunkPtr freeChunkCnt
    if pool.mem (chunk + 1) = chunkBufFlagFree then
      (chunk + memPoolChunkInfoSize,
        { pool with freeChunkCnt := freeChunkCnt, mem := Function.update pool.mem (chunk + 1) chunkBufFlagAlloc })
    -- the chunk itself is returned, and stays off the stack
    else (chunk, { pool with freeChunkCnt := freeChunkCnt })

def lnMemPoolFree (pool : LnMemPool) (addr : ℕ) : ℕ × LnMemPool :=
  if addr = 0 then (lnFalse, pool)
  else
    let chunk := addr - memPoolChunkInfoSize
    if pool.mem (chunk + 1) ≠ chunkBufFlagAlloc then (lnFalse, pool)
    else if pool.totalChunkCnt ≤ pool.freeChunkCnt then (lnFalse, pool)
    else
      (lnTrue,
        { pool with
          freeChunkPtr := Function.update pool.freeChunkPtr pool.freeChunkCnt chunk
          freeChunkCnt := (pool.freeChunkCnt + 1) % 2 ^ 16
          mem := Function.update pool.mem (chunk + 1) chunkBufFlagFree })

/-- The pointers below `free_chunk_cnt`. -/
def freeStack (pool : LnMemPool) : List ℕ := (List.range pool.freeChunkCnt).map pool.freeChunkPtr

def chunkAt (pool : LnMemPool) (i : ℕ) : ℕ := pool.memBase + i * pool.chunkSize

/-- Chunk id or chunk flag. -/
def IsHeader (pool : LnMemPool) (addr : ℕ) : Prop :=
  ∃ i < pool.totalChunkCnt, addr = chunkAt pool i ∨ addr = chunkAt pool i + 1

/-! ### Clients -/

inductive Use
  | alloc
  | free (addr : ℕ)
  | write (addr : ℕ) (value : UInt8)

/-- The pool and its clients: every pointer they were ever given, and those they have not given
back with success. -/
structure Clients where
  pool : LnMemPool
  returned : List ℕ
  allocated : List ℕ

/-- A client frees what it was given, and does not write to a header. -/
def clients : Machine Clients Use ℕ where
  step c
    | .alloc =>
      let r := lnMemPoolAlloc c.pool
      (r.1, if r.1 = 0 then { c with pool := r.2 } else ⟨r.2, r.1 :: c.returned, r.1 :: c.allocated⟩)
    | .free addr =>
      let r := lnMemPoolFree c.pool addr
      (r.1, { c with pool := r.2, allocated := if r.1 = lnTrue then c.allocated.erase addr else c.allocated })
    | .write addr value => (0, { c with pool := { c.pool with mem := Function.update c.pool.mem addr value } })
  may c
    | .alloc => True
    | .free addr => addr = 0 ∨ addr ∈ c.returned
    | .write addr _ => ¬IsHeader c.pool addr

/-- After the initialisation. -/
def opened (pool : LnMemPool) : Clients := ⟨lnMemPoolInit pool, [], []⟩

/-- What can be relied on: nothing is given out twice, the stack is the chunks that are flagged
free, the counter is right, the null pointer means that everything is given out, and only what
is given out can be freed. -/
structure Sound (c : Clients) : Prop where
  once : c.allocated.Nodup
  fresh : (lnMemPoolAlloc c.pool).1 ∉ c.allocated
  stack_nodup : (freeStack c.pool).Nodup
  mem_stack : ∀ chunk, chunk ∈ freeStack c.pool ↔
    (∃ i < c.pool.totalChunkCnt, chunk = chunkAt c.pool i) ∧ c.pool.mem (chunk + 1) = chunkBufFlagFree
  counted : c.pool.freeChunkCnt + c.allocated.length = c.pool.totalChunkCnt
  null_iff : (lnMemPoolAlloc c.pool).1 = 0 ↔
    ∀ i < c.pool.totalChunkCnt, chunkAt c.pool i + memPoolChunkInfoSize ∈ c.allocated
  freed : ∀ addr ∈ c.allocated, (lnMemPoolFree c.pool addr).1 = lnTrue
  refused : ∀ addr, addr = 0 ∨ addr ∈ c.returned → addr ∉ c.allocated → lnMemPoolFree c.pool addr = (lnFalse, c.pool)

/-! ### The buffers -/

def bufferAt (pool : LnMemPool) (i : ℕ) : ℕ := chunkAt pool i + memPoolChunkInfoSize

def buffers (pool : LnMemPool) : List ℕ := (List.range pool.totalChunkCnt).map (bufferAt pool)

theorem mem_buffers {pool : LnMemPool} {addr : ℕ} :
    addr ∈ buffers pool ↔ ∃ i < pool.totalChunkCnt, addr = bufferAt pool i := by
  simp only [buffers, List.mem_map, List.mem_range, eq_comm (a := addr)]

theorem nodup_buffers {pool : LnMemPool} (hsize : 3 ≤ pool.chunkSize) : (buffers pool).Nodup := by
  refine List.nodup_range.map fun i j hij => ?_
  have hmul : i * pool.chunkSize = j * pool.chunkSize := by
    rw [bufferAt, bufferAt, chunkAt, chunkAt] at hij
    omega
  exact Nat.eq_of_mul_eq_mul_right (by omega) hmul

/-! ### The stack -/

/-- The pool without its top chunk. -/
def popped (pool : LnMemPool) (n : ℕ) : LnMemPool :=
  { pool with freeChunkCnt := n, mem := Function.update pool.mem (pool.freeChunkPtr n + 1) chunkBufFlagAlloc }

/-- The pool with one more chunk on the stack. -/
def pushed (pool : LnMemPool) (chunk : ℕ) : LnMemPool :=
  { pool with
    freeChunkPtr := Function.update pool.freeChunkPtr pool.freeChunkCnt chunk
    freeChunkCnt := pool.freeChunkCnt + 1
    mem := Function.update pool.mem (chunk + 1) chunkBufFlagFree }

theorem alloc_of_empty {pool : LnMemPool} (hcnt : pool.freeChunkCnt = 0) :
    lnMemPoolAlloc pool = (0, pool) := by
  rw [lnMemPoolAlloc, if_pos hcnt]

theorem freeStack_succ {pool : LnMemPool} {n : ℕ} (hcnt : pool.freeChunkCnt = n + 1) :
    freeStack pool = (List.range n).map pool.freeChunkPtr ++ [pool.freeChunkPtr n] := by
  rw [freeStack, hcnt, List.range_succ, List.map_append, List.map_singleton]

theorem freeStack_pushed (pool : LnMemPool) (chunk : ℕ) :
    freeStack (pushed pool chunk) = freeStack pool ++ [chunk] := by
  rw [freeStack_succ (n := pool.freeChunkCnt) rfl]
  congr 1
  · refine List.map_congr_left fun k hk => Function.update_of_ne ?_ _ _
    exact (List.mem_range.mp hk).ne
  · exact congrArg (fun top => [top]) (Function.update_self _ _ _)

/-- The buffers of the free chunks and those of the clients are all buffers, and the flags of the
chunks tell which is which. -/
structure Inv (c : Clients) : Prop where
  size : 3 ≤ c.pool.chunkSize
  total : c.pool.totalChunkCnt ≤ 65535
  split : ((freeStack c.pool).map (· + memPoolChunkInfoSize) ++ c.allocated).Perm (buffers c.pool)
  free : ∀ chunk ∈ freeStack c.pool, c.pool.mem (chunk + 1) = chunkBufFlagFree
  alloc : ∀ addr ∈ c.allocated, c.pool.mem (addr - memPoolChunkInfoSize + 1) = chunkBufFlagAlloc
  returned : ∀ addr ∈ c.returned, addr ∈ buffers c.pool

namespace Inv

variable {c : Clients} (h : Inv c)
include h

theorem nodup : ((freeStack c.pool).map (· + memPoolChunkInfoSize) ++ c.allocated).Nodup :=
  h.split.nodup_iff.mpr (nodup_buffers h.size)

theorem stack_nodup : (freeStack c.pool).Nodup := (List.nodup_append.mp h.nodup).1.of_map _

theorem counted : c.pool.freeChunkCnt + c.allocated.length = c.pool.totalChunkCnt := by
  have hlength := h.split.length_eq
  rwa [List.length_append, List.length_map, freeStack, List.length_map, List.length_range, buffers, List.length_map,
    List.length_range] at hlength

theorem mem_buffers_iff (addr : ℕ) :
    addr ∈ buffers c.pool ↔
      (∃ chunk ∈ freeStack c.pool, chunk + memPoolChunkInfoSize = addr) ∨ addr ∈ c.allocated := by
  rw [← h.split.mem_iff, List.mem_append, List.mem_map]

theorem two_le {addr : ℕ} (ha : addr ∈ c.allocated) : memPoolChunkInfoSize ≤ addr := by
  obtain ⟨i, -, rfl⟩ := mem_buffers.mp ((h.mem_buffers_iff addr).mpr (.inr ha))
  exact Nat.le_add_left _ _

/-- A free chunk is not one of the clients'. -/
theorem not_allocated {chunk : ℕ} (hc : chunk ∈ freeStack c.pool) : chunk + memPoolChunkInfoSize ∉ c.allocated :=
  fun ha => (List.nodup_append.mp h.nodup).2.2 _ (List.mem_map_of_mem hc) _ ha rfl

/-! ### Alloc -/

theorem alloc_of_succ {n : ℕ} (hcnt : c.pool.freeChunkCnt = n + 1) :
    lnMemPoolAlloc c.pool = (c.pool.freeChunkPtr n + memPoolChunkInfoSize, popped c.pool n) := by
  have hfree : c.pool.mem (c.pool.freeChunkPtr n + 1) = chunkBufFlagFree :=
    h.free _ (by rw [freeStack_succ hcnt]; exact List.mem_append_right _ (List.mem_singleton_self _))
  rw [lnMemPoolAlloc, if_neg (by omega), hcnt, Nat.add_sub_cancel]
  simp only [if_pos hfree]
  rfl

theorem popped_inv {n : ℕ} (hcnt : c.pool.freeChunkCnt = n + 1) :
    Inv ⟨popped c.pool n, (c.pool.freeChunkPtr n + memPoolChunkInfoSize) :: c.returned,
      (c.pool.freeChunkPtr n + memPoolChunkInfoSize) :: c.allocated⟩ := by
  have hstack := freeStack_succ hcnt
  have htop : c.pool.freeChunkPtr n ∈ freeStack c.pool := by
    rw [hstack]
    exact List.mem_append_right _ (List.mem_singleton_self _)
  have hrest : freeStack (popped c.pool n) = (List.range n).map c.pool.freeChunkPtr := rfl
  have hnodup := h.stack_nodup
  rw [hstack] at hnodup
  refine ⟨h.size, h.total, ?_, ?_, ?_, ?_⟩
  · have hsplit := h.split
    rwa [hstack, List.map_append, List.map_singleton, List.append_assoc, List.singleton_append] at hsplit
  · intro chunk hchunk
    rw [hrest] at hchunk
    have hne : chunk ≠ c.pool.freeChunkPtr n :=
      (List.nodup_append.mp hnodup).2.2 _ hchunk _ (List.mem_singleton_self _)
    refine (Function.update_of_ne (by omega) _ _).trans (h.free _ ?_)
    rw [hstack]
    exact List.mem_append_left _ hchunk
  · intro addr haddr
    rcases List.mem_cons.mp haddr with rfl | haddr
    · exact Function.update_self _ _ _
    · have hne : addr ≠ c.pool.freeChunkPtr n + memPoolChunkInfoSize := fun heq =>
        h.not_allocated htop (heq ▸ haddr)
      have hle := h.two_le haddr
      exact (Function.update_of_ne (by omega) _ _).trans (h.alloc _ haddr)
  · intro addr haddr
    rcases List.mem_cons.mp haddr with rfl | haddr
    · exact (h.mem_buffers_iff _).mpr (.inl ⟨_, htop, rfl⟩)
    · exact h.returned _ haddr

/-! ### Free -/

theorem free_of_not_allocated {addr : ℕ} (ha : addr = 0 ∨ addr ∈ c.returned) (hn : addr ∉ c.allocated) :
    lnMemPoolFree c.pool addr = (lnFalse, c.pool) := by
  rcases ha with rfl | ha
  · rw [lnMemPoolFree, if_pos rfl]
  obtain ⟨chunk, hchunk, rfl⟩ := ((h.mem_buffers_iff addr).mp (h.returned _ ha)).resolve_right hn
  have hflag : c.pool.mem (chunk + memPoolChunkInfoSize - memPoolChunkInfoSize + 1) ≠ chunkBufFlagAlloc := by
    rw [Nat.add_sub_cancel, h.free _ hchunk]
    decide
  rw [lnMemPoolFree, if_neg (by rw [memPoolChunkInfoSize]; omega)]
  exact if_pos hflag

theorem free_of_allocated {addr : ℕ} (ha : addr ∈ c.allocated) :
    lnMemPoolFree c.pool addr = (lnTrue, pushed c.pool (addr - memPoolChunkInfoSize)) := by
  have hle := h.two_le ha
  have hcounted := h.counted
  have hpos := List.length_pos_of_mem ha
  have hroom : ¬c.pool.totalChunkCnt ≤ c.pool.freeChunkCnt := by omega
  have hfits : (c.pool.freeChunkCnt + 1) % 2 ^ 16 = c.pool.freeChunkCnt + 1 := by
    have htotal := h.total
    omega
  rw [lnMemPoolFree, if_neg (by rw [memPoolChunkInfoSize] at hle; omega)]
  simp only [h.alloc _ ha, ne_eq, not_true_eq_false, if_false, hroom, hfits]
  rfl

theorem pushed_inv {addr : ℕ} (ha : addr ∈ c.allocated) :
    Inv { c with pool := pushed c.pool (addr - memPoolChunkInfoSize), allocated := c.allocated.erase addr } := by
  have hle := h.two_le ha
  have hcancel : addr - memPoolChunkInfoSize + memPoolChunkInfoSize = addr := Nat.sub_add_cancel hle
  refine ⟨h.size, h.total, ?_, ?_, ?_, h.returned⟩
  · change ((freeStack (pushed c.pool (addr - memPoolChunkInfoSize))).map _ ++ _).Perm _
    rw [freeStack_pushed, List.map_append, List.map_singleton, hcancel, List.append_assoc, List.singleton_append]
    exact ((List.perm_cons_erase ha).symm.append_left _).trans h.split
  · intro chunk hchunk
    change chunk ∈ freeStack (pushed c.pool (addr - memPoolChunkInfoSize)) at hchunk
    rw [freeStack_pushed, List.mem_append, List.mem_singleton] at hchunk
    rcases hchunk with hchunk | rfl
    · have hne : chunk ≠ addr - memPoolChunkInfoSize := by
        rintro rfl
        exact h.not_allocated hchunk (by rwa [hcancel])
      exact (Function.update_of_ne (by omega) _ _).trans (h.free _ hchunk)
    · exact Function.update_self _ _ _
  · intro other hother
    have hne : other ≠ addr := fun heq => (List.nodup_append.mp h.nodup).2.1.not_mem_erase (heq ▸ hother)
    have hin := List.mem_of_mem_erase hother
    have hle' := h.two_le hin
    exact (Function.update_of_ne (by omega) _ _).trans (h.alloc _ hin)

end Inv

/-! ### Initialisation -/

/-- The loop of the initialisation after `k` rounds. -/
structure Filled (pool : LnMemPool) (k : ℕ) (s : LnMemPool × ℕ) : Prop where
  cnt : s.1.freeChunkCnt = k
  total : s.1.totalChunkCnt = pool.totalChunkCnt
  size : s.1.chunkSize = pool.chunkSize
  base : s.1.memBase = pool.memBase
  chunk : s.2 = chunkAt pool k
  stack : ∀ j < k, s.1.freeChunkPtr j = chunkAt pool j
  flags : ∀ j < k, s.1.mem (chunkAt pool j + 1) = chunkBufFlagFree

variable {pool : LnMemPool}

theorem chunkAt_lt (hsize : 3 ≤ pool.chunkSize) {j k : ℕ} (hjk : j < k) : chunkAt pool j + 2 < chunkAt pool k := by
  have hmul : (j + 1) * pool.chunkSize ≤ k * pool.chunkSize := Nat.mul_le_mul_right _ hjk
  rw [Nat.succ_mul] at hmul
  rw [chunkAt, chunkAt]
  omega

theorem Filled.next (htotal : pool.totalChunkCnt ≤ 65535) (hsize : 3 ≤ pool.chunkSize) {k : ℕ}
    (hk : k < pool.totalChunkCnt) {s : LnMemPool × ℕ} (h : Filled pool k s) :
    Filled pool (k + 1) (initChunk s k) := by
  refine ⟨?_, h.total, h.size, h.base, ?_, ?_, ?_⟩
  · change (s.1.freeChunkCnt + 1) % 2 ^ 16 = k + 1
    rw [h.cnt, Nat.mod_eq_of_lt (by omega)]
  · change s.2 + s.1.chunkSize = chunkAt pool (k + 1)
    rw [h.chunk, h.size, chunkAt, chunkAt, Nat.succ_mul, Nat.add_assoc]
  · intro j hj
    change Function.update s.1.freeChunkPtr s.1.freeChunkCnt s.2 j = chunkAt pool j
    rw [h.cnt, h.chunk]
    rcases Nat.lt_succ_iff_lt_or_eq.mp hj with hlt | rfl
    · rw [Function.update_of_ne hlt.ne, h.stack j hlt]
    · exact Function.update_self _ _ _
  · intro j hj
    change Function.update (Function.update s.1.mem s.2 (UInt8.ofNat k)) (s.2 + 1) chunkBufFlagFree
      (chunkAt pool j + 1) = chunkBufFlagFree
    rw [h.chunk]
    rcases Nat.lt_succ_iff_lt_or_eq.mp hj with hlt | rfl
    · have hbelow := chunkAt_lt hsize hlt
      rw [Function.update_of_ne (by omega), Function.update_of_ne (by omega), h.flags j hlt]
    · exact Function.update_self _ _ _

theorem filled (htotal : pool.totalChunkCnt ≤ 65535) (hsize : 3 ≤ pool.chunkSize) {k : ℕ}
    (hk : k ≤ pool.totalChunkCnt) :
    Filled pool k ((List.range k).foldl initChunk ({ pool with freeChunkCnt := 0 }, pool.memBase)) := by
  induction k with
  | zero =>
    have hbase : pool.memBase = chunkAt pool 0 := by rw [chunkAt, Nat.zero_mul, Nat.add_zero]
    exact ⟨rfl, rfl, rfl, rfl, hbase, fun _ hj => absurd hj (Nat.not_lt_zero _),
      fun _ hj => absurd hj (Nat.not_lt_zero _)⟩
  | succ k ih =>
    rw [List.range_succ, List.foldl_append]
    exact (ih (by omega)).next htotal hsize hk

theorem opened_inv (htotal : pool.totalChunkCnt ≤ 65535) (hsize : 3 ≤ pool.chunkSize) : Inv (opened pool) := by
  have h : Filled pool pool.totalChunkCnt _ := filled htotal hsize le_rfl
  have hstack : freeStack (lnMemPoolInit pool) = (List.range pool.totalChunkCnt).map (chunkAt pool) := by
    rw [freeStack, lnMemPoolInit, h.cnt]
    exact List.map_congr_left fun j hj => h.stack j (List.mem_range.mp hj)
  have hbuffers : buffers (lnMemPoolInit pool) = (List.range pool.totalChunkCnt).map (bufferAt pool) := by
    rw [buffers, lnMemPoolInit, h.total]
    refine List.map_congr_left fun j _ => ?_
    rw [bufferAt, bufferAt, chunkAt, chunkAt, h.base, h.size]
  refine ⟨h.size ▸ hsize, h.total ▸ htotal, ?_, ?_, fun _ ha => absurd ha List.not_mem_nil,
    fun _ ha => absurd ha List.not_mem_nil⟩
  · change ((freeStack (lnMemPoolInit pool)).map _ ++ []).Perm (buffers (lnMemPoolInit pool))
    rw [List.append_nil, hstack, hbuffers, List.map_map]
    rfl
  · intro chunk hchunk
    change chunk ∈ freeStack (lnMemPoolInit pool) at hchunk
    rw [hstack, List.mem_map] at hchunk
    obtain ⟨j, hj, rfl⟩ := hchunk
    exact h.flags j (List.mem_range.mp hj)

/-! ### Runs -/

theorem Inv.write {c : Clients} (h : Inv c) {addr : ℕ} (hheader : ¬IsHeader c.pool addr) (value : UInt8) :
    Inv { c with pool := { c.pool with mem := Function.update c.pool.mem addr value } } := by
  have hflag : ∀ buffer ∈ buffers c.pool, buffer - memPoolChunkInfoSize + 1 ≠ addr := by
    rintro _ hbuffer rfl
    obtain ⟨i, hi, rfl⟩ := mem_buffers.mp hbuffer
    exact hheader ⟨i, hi, .inr (by rw [bufferAt, Nat.add_sub_cancel])⟩
  refine ⟨h.size, h.total, h.split, fun chunk hchunk => ?_, fun other hother => ?_, h.returned⟩
  · have hne := hflag _ ((h.mem_buffers_iff _).mpr (.inl ⟨chunk, hchunk, rfl⟩))
    rw [Nat.add_sub_cancel] at hne
    exact (Function.update_of_ne hne _ _).trans (h.free _ hchunk)
  · have hne := hflag _ ((h.mem_buffers_iff _).mpr (.inr hother))
    exact (Function.update_of_ne hne _ _).trans (h.alloc _ hother)

theorem clients_keeps : clients.Keeps Inv := by
  intro c use h hmay
  cases use with
  | alloc =>
    change Inv (if (lnMemPoolAlloc c.pool).1 = 0 then _ else _)
    cases hcnt : c.pool.freeChunkCnt with
    | zero =>
      rw [alloc_of_empty hcnt, if_pos rfl]
      exact h
    | succ n =>
      rw [h.alloc_of_succ hcnt, if_neg (by rw [memPoolChunkInfoSize]; omega)]
      exact h.popped_inv hcnt
  | free addr =>
    change Inv ⟨(lnMemPoolFree c.pool addr).2, _, if (lnMemPoolFree c.pool addr).1 = lnTrue then _ else _⟩
    by_cases ha : addr ∈ c.allocated
    · rw [h.free_of_allocated ha, if_pos rfl]
      exact h.pushed_inv ha
    · rw [h.free_of_not_allocated hmay ha, if_neg (show ¬lnFalse = lnTrue by decide)]
      exact h
  | write addr value => exact h.write hmay value

theorem Inv.sound {c : Clients} (h : Inv c) : Sound c := by
  have hcounted := h.counted
  refine ⟨(List.nodup_append.mp h.nodup).2.1, ?_, h.stack_nodup, ?_, hcounted, ?_, ?_, ?_⟩
  · cases hcnt : c.pool.freeChunkCnt with
    | zero =>
      rw [alloc_of_empty hcnt]
      exact fun ha => absurd (h.two_le ha) (show ¬memPoolChunkInfoSize ≤ 0 by decide)
    | succ n =>
      rw [h.alloc_of_succ hcnt]
      refine h.not_allocated ?_
      rw [freeStack_succ hcnt]
      exact List.mem_append_right _ (List.mem_singleton_self _)
  · intro chunk
    constructor
    · intro hchunk
      obtain ⟨i, hi, heq⟩ := mem_buffers.mp ((h.mem_buffers_iff _).mpr (.inl ⟨chunk, hchunk, rfl⟩))
      exact ⟨⟨i, hi, Nat.add_right_cancel heq⟩, h.free _ hchunk⟩
    · rintro ⟨⟨i, hi, rfl⟩, hflag⟩
      rcases (h.mem_buffers_iff _).mp (mem_buffers.mpr ⟨i, hi, rfl⟩) with ⟨chunk, hchunk, heq⟩ | ha
      · exact Nat.add_right_cancel heq ▸ hchunk
      · have halloc := h.alloc _ ha
        rw [bufferAt, Nat.add_sub_cancel, hflag] at halloc
        exact absurd halloc (by decide)
  · constructor
    · intro hnull i hi
      cases hcnt : c.pool.freeChunkCnt with
      | zero =>
        refine ((h.mem_buffers_iff _).mp (mem_buffers.mpr ⟨i, hi, rfl⟩)).resolve_left ?_
        rintro ⟨chunk, hchunk, -⟩
        rw [freeStack, hcnt] at hchunk
        exact List.not_mem_nil hchunk
      | succ n =>
        rw [h.alloc_of_succ hcnt, memPoolChunkInfoSize] at hnull
        omega
    · intro hall
      have hsub : buffers c.pool ⊆ c.allocated := by
        intro addr haddr
        obtain ⟨i, hi, rfl⟩ := mem_buffers.mp haddr
        exact hall i hi
      have hlength := ((nodup_buffers h.size).subperm hsub).length_le
      rw [buffers, List.length_map, List.length_range] at hlength
      rw [alloc_of_empty (by omega)]
  · intro addr ha
    rw [h.free_of_allocated ha]
  · exact fun addr hreturned ha => h.free_of_not_allocated hreturned ha

/-- After the initialisation, in every run of clients that free what they were given and leave the
headers alone. -/
theorem memPool_sound (pool : LnMemPool) (htotal : pool.totalChunkCnt ≤ 65535) (hsize : 3 ≤ pool.chunkSize)
    (uses : List Use) (huses : clients.Allowed (opened pool) uses) : Sound (clients.after (opened pool) uses) :=
  (clients_keeps.after (opened_inv htotal hsize) huses).sound

/-- Two chunks of three bytes; one is freed twice. -/
theorem memPool_sound_two : Sound (clients.after (opened ⟨0, 2, 3, 0x2000, fun _ => 0, fun _ => 0⟩)
    [.alloc, .free 0x2005, .free 0x2005, .alloc, .alloc, .alloc]) :=
  memPool_sound _ (by decide) (by decide) _
    ⟨trivial, .inr (by decide), .inr (by decide), trivial, trivial, trivial, trivial⟩

end Ln882x.MemPool
