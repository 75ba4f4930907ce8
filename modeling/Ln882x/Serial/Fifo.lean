import Mathlib.Logic.Function.Basic
import Mathlib.Data.Int.Notation
import Mathlib.Data.List.Basic
import Mathlib.Tactic.SplitIfs
import Ln882x.Runtime.Machine

/-! The ring buffer of `fifobuf.c`, each call in its critical section. One slot stays free, so
that a full buffer differs from an empty one; the bytes between head and tail, over the end of
the buffer if need be, are a queue. -/

namespace Ln882x.Serial

open Ln882x.Runtime (Machine)

/-! ### The buffer -/

/-- `FIFOBuffer` and the memory at its addresses; `asserted` says that an `ART_ASSERT` failed. -/
structure FifoBuffer where
  head : ℤ
  tail : ℤ
  beginPtr : ℤ
  endPtr : ℤ
  mem : ℤ → UInt8
  asserted : Bool

def fifoIsempty (fb : FifoBuffer) : Bool := fb.head = fb.tail

def fifoIsfull (fb : FifoBuffer) : Bool :=
  (fb.head = fb.beginPtr && fb.tail = fb.endPtr) || fb.tail = fb.head - 1

def fifoPush (fb : FifoBuffer) (c : UInt8) : FifoBuffer :=
  if fifoIsfull fb then fb
  else if fb.beginPtr ≤ fb.tail ∧ fb.tail < fb.endPtr then
    { fb with mem := Function.update fb.mem fb.tail c, tail := fb.tail + 1 }
  else if fb.tail = fb.endPtr then
    { fb with mem := Function.update fb.mem fb.tail c, tail := fb.beginPtr }
  else { fb with asserted := true }

/-- The byte is 0 if there is none. -/
def fifoPop (fb : FifoBuffer) : UInt8 × FifoBuffer :=
  if fifoIsempty fb then (0, fb)
  else if fb.beginPtr ≤ fb.head ∧ fb.head < fb.endPtr then (fb.mem fb.head, { fb with head := fb.head + 1 })
  else if fb.head = fb.endPtr then (fb.mem fb.endPtr, { fb with head := fb.beginPtr })
  else (0, { fb with asserted := true })

def fifoFlush (fb : FifoBuffer) : FifoBuffer := { fb with head := fb.beginPtr, tail := fb.beginPtr }

def fifoInit (fb : FifoBuffer) (buf : ℤ) (size : ℕ) : FifoBuffer :=
  { fb with
    head := buf, tail := buf, beginPtr := buf, endPtr := buf + size - 1
    asserted := fb.asserted || !decide (size > 1) }

def fifoLen (fb : FifoBuffer) : ℤ := fb.endPtr - fb.beginPtr + 1

/-! ### The queue -/

inductive FifoCall
  | push (c : UInt8)
  | pop
  | flush
  | isempty
  | isfull

inductive FifoReply
  | done
  | byte (c : UInt8)
  | flag (b : Bool)

def fifo : Machine FifoBuffer FifoCall FifoReply where
  step fb
    | .push c => (.done, fifoPush fb c)
    | .pop => (.byte (fifoPop fb).1, (fifoPop fb).2)
    | .flush => (.done, fifoFlush fb)
    | .isempty => (.flag (fifoIsempty fb), fb)
    | .isfull => (.flag (fifoIsfull fb), fb)
  may _ _ := True

/-- A queue that drops what does not fit. -/
def queue (capacity : ℕ) : Machine (List UInt8) FifoCall FifoReply where
  step q
    | .push c => (.done, if q.length < capacity then q ++ [c] else q)
    | .pop => (.byte (q.headD 0), q.tail)
    | .flush => (.done, [])
    | .isempty => (.flag q.isEmpty, q)
    | .isfull => (.flag (decide (q.length = capacity)), q)
  may _ _ := True

/-! ### Slots -/

/-- Slot `k` of a buffer that is walked around once. -/
def slot (size k : ℕ) : ℕ := if k < size then k else k - size

theorem slot_lt {size k : ℕ} (h : k < 2 * size) : slot size k < size := by
  unfold slot
  split_ifs <;> omega

theorem slot_inj {size h i j : ℕ} (hi : i < size) (hj : j < size)
    (heq : slot size (h + i) = slot size (h + j)) : i = j := by
  unfold slot at heq
  split_ifs at heq <;> omega

theorem slot_slot {size h i : ℕ} (hh : h < size) (hi : i + 1 < size) :
    slot size (slot size (h + 1) + i) = slot size (h + (i + 1)) := by
  unfold slot
  split_ifs <;> omega

/-- The buffer at `buf` holds the bytes `q` from slot `h` on. -/
structure HoldsAt (size : ℕ) (buf : ℤ) (fb : FifoBuffer) (h : ℕ) (q : List UInt8) : Prop where
  asserted : fb.asserted = false
  beginPtr : fb.beginPtr = buf
  endPtr : fb.endPtr = buf + size - 1
  lt : h < size
  room : q.length < size
  head : fb.head = buf + h
  tail : fb.tail = buf + slot size (h + q.length)
  bytes : ∀ i (hi : i < q.length), fb.mem (buf + slot size (h + i)) = q[i]

/-- The buffer holds the bytes of a queue. -/
def Holds (size : ℕ) (buf : ℤ) (fb : FifoBuffer) (q : List UInt8) : Prop := ∃ h, HoldsAt size buf fb h q

namespace HoldsAt

variable {size : ℕ} {buf : ℤ} {fb : FifoBuffer} {h : ℕ} {q : List UInt8} (hq : HoldsAt size buf fb h q)
include hq

theorem isempty_eq : fifoIsempty fb = q.isEmpty := by
  have hlt := hq.lt
  have hroom := hq.room
  rw [fifoIsempty, hq.head, hq.tail, Bool.eq_iff_iff, decide_eq_true_eq, List.isEmpty_iff_length_eq_zero]
  unfold slot
  split_ifs <;> omega

theorem isfull_eq : fifoIsfull fb = decide (q.length = size - 1) := by
  have hlt := hq.lt
  have hroom := hq.room
  rw [fifoIsfull, hq.head, hq.tail, hq.beginPtr, hq.endPtr, Bool.eq_iff_iff]
  simp only [Bool.or_eq_true, Bool.and_eq_true, decide_eq_true_eq]
  unfold slot
  split_ifs <;> omega

/-- A full buffer stays as it is. -/
theorem push_full (hfull : ¬q.length < size - 1) (c : UInt8) : fifoPush fb c = fb := by
  have hroom := hq.room
  rw [fifoPush, hq.isfull_eq, if_pos (decide_eq_true (by omega))]

theorem push_room (hroom : q.length < size - 1) (c : UInt8) : HoldsAt size buf (fifoPush fb c) h (q ++ [c]) := by
  have hlt := hq.lt
  have htail := hq.tail
  have hslot : slot size (h + q.length) < size := slot_lt (by omega)
  have hbytes : ∀ i (hi : i < (q ++ [c]).length),
      Function.update fb.mem fb.tail c (buf + slot size (h + i)) = (q ++ [c])[i] := by
    intro i hi
    rw [List.length_append, List.length_singleton] at hi
    rcases Nat.lt_succ_iff_lt_or_eq.mp hi with hlt' | rfl
    · rw [List.getElem_append_left hlt', ← hq.bytes i hlt', Function.update_of_ne]
      intro heq
      rw [htail] at heq
      have hslots : slot size (h + i) = slot size (h + q.length) := by omega
      exact absurd (slot_inj (by omega) (by omega) hslots) (Nat.ne_of_lt hlt')
    · rw [List.getElem_concat_length rfl, htail, Function.update_self]
  have hnext : ((q ++ [c]).length : ℕ) = q.length + 1 := by rw [List.length_append, List.length_singleton]
  rw [fifoPush, hq.isfull_eq, if_neg (by rw [decide_eq_true_eq]; omega)]
  by_cases hend : fb.tail < fb.endPtr
  · have hin : fb.beginPtr ≤ fb.tail ∧ fb.tail < fb.endPtr := ⟨by rw [hq.beginPtr, htail]; omega, hend⟩
    rw [if_pos hin]
    refine ⟨hq.asserted, hq.beginPtr, hq.endPtr, hlt, by rw [hnext]; omega, hq.head, ?_, hbytes⟩
    change fb.tail + 1 = _
    rw [hq.endPtr, htail] at hend
    rw [htail, hnext]
    unfold slot at hend ⊢
    split_ifs at hend ⊢ <;> omega
  · have heq : fb.tail = fb.endPtr := by
      rw [hq.endPtr, htail] at hend ⊢
      omega
    rw [if_neg (fun hin => hend hin.2), if_pos heq]
    refine ⟨hq.asserted, hq.beginPtr, hq.endPtr, hlt, by rw [hnext]; omega, hq.head, ?_, hbytes⟩
    change fb.beginPtr = _
    rw [hq.endPtr, htail] at heq
    rw [hq.beginPtr, hnext]
    unfold slot at heq ⊢
    split_ifs at heq ⊢ <;> omega

theorem pop_empty (hnil : q = []) : fifoPop fb = (0, fb) := by
  rw [fifoPop, hq.isempty_eq, hnil, List.isEmpty_nil, if_pos rfl]

end HoldsAt

theorem HoldsAt.pop_cons {size : ℕ} {buf : ℤ} {fb : FifoBuffer} {h : ℕ} {c : UInt8} {q : List UInt8}
    (hq : HoldsAt size buf fb h (c :: q)) :
    (fifoPop fb).1 = c ∧ HoldsAt size buf (fifoPop fb).2 (slot size (h + 1)) q := by
  have hlt := hq.lt
  have hroom := hq.room
  have hhead := hq.head
  rw [List.length_cons] at hroom
  have hfirst : fb.mem fb.head = c := by
    have hbyte := hq.bytes 0 (Nat.succ_pos _)
    rwa [Nat.add_zero, slot, if_pos hlt, ← hhead] at hbyte
  have htail : fb.tail = buf + slot size (slot size (h + 1) + q.length) := by
    rw [hq.tail, List.length_cons, slot_slot hlt hroom]
  have hbytes : ∀ i (hi : i < q.length), fb.mem (buf + slot size (slot size (h + 1) + i)) = q[i] := by
    intro i hi
    rw [slot_slot hlt (by omega), hq.bytes (i + 1) (Nat.succ_lt_succ hi), List.getElem_cons_succ]
  rw [fifoPop, hq.isempty_eq, List.isEmpty_cons, if_neg Bool.false_ne_true]
  by_cases hend : fb.head < fb.endPtr
  · have hin : fb.beginPtr ≤ fb.head ∧ fb.head < fb.endPtr := ⟨by rw [hq.beginPtr, hhead]; omega, hend⟩
    rw [if_pos hin]
    rw [hq.endPtr, hhead] at hend
    refine ⟨hfirst, hq.asserted, hq.beginPtr, hq.endPtr, slot_lt (by omega), by omega, ?_, htail, hbytes⟩
    change fb.head + 1 = _
    rw [hhead, slot, if_pos (by omega)]
    omega
  · have heq : fb.head = fb.endPtr := by
      rw [hq.endPtr, hhead] at hend ⊢
      omega
    rw [if_neg (fun hin => hend hin.2), if_pos heq]
    refine ⟨heq ▸ hfirst, hq.asserted, hq.beginPtr, hq.endPtr, slot_lt (by omega), by omega, ?_, htail, hbytes⟩
    change fb.beginPtr = _
    rw [hq.endPtr, hhead] at heq
    rw [hq.beginPtr, slot, if_neg (by omega)]
    omega

section Buffer

variable {size : ℕ} {buf : ℤ} {fb : FifoBuffer} {q : List UInt8}

theorem holds_flush (h : Holds size buf fb q) : Holds size buf (fifoFlush fb) [] := by
  obtain ⟨h, hq⟩ := h
  have hlt := hq.lt
  refine ⟨0, hq.asserted, hq.beginPtr, hq.endPtr, by omega, by rw [List.length_nil]; omega, ?_, ?_, ?_⟩
  · change fb.beginPtr = _
    rw [hq.beginPtr, Int.natCast_zero, Int.add_zero]
  · change fb.beginPtr = _
    rw [hq.beginPtr, List.length_nil, slot, if_pos (by omega), Int.natCast_zero, Int.add_zero]
  · exact fun i hi => absurd hi (Nat.not_lt_zero _)

theorem holds_init (hsize : 2 ≤ size) (hfb : fb.asserted = false) : Holds size buf (fifoInit fb buf size) [] := by
  refine ⟨0, ?_, rfl, rfl, by omega, by rw [List.length_nil]; omega, ?_, ?_, ?_⟩
  · change (fb.asserted || !decide (size > 1)) = false
    rw [hfb, decide_eq_true (by omega)]
    rfl
  · change buf = _
    rw [Int.natCast_zero, Int.add_zero]
  · change buf = _
    rw [List.length_nil, slot, if_pos (by omega), Int.natCast_zero, Int.add_zero]
  · exact fun i hi => absurd hi (Nat.not_lt_zero _)

theorem holds_push (h : Holds size buf fb q) (c : UInt8) :
    Holds size buf (fifoPush fb c) (if q.length < size - 1 then q ++ [c] else q) := by
  obtain ⟨h, hq⟩ := h
  by_cases hroom : q.length < size - 1
  · rw [if_pos hroom]
    exact ⟨h, hq.push_room hroom c⟩
  · rw [if_neg hroom, hq.push_full hroom]
    exact ⟨h, hq⟩

theorem holds_pop (h : Holds size buf fb q) : (fifoPop fb).1 = q.headD 0 ∧ Holds size buf (fifoPop fb).2 q.tail := by
  obtain ⟨h, hq⟩ := h
  cases q with
  | nil =>
    rw [hq.pop_empty rfl]
    exact ⟨rfl, h, hq⟩
  | cons c q => exact ⟨hq.pop_cons.1, _, hq.pop_cons.2⟩

theorem isempty_of_holds (h : Holds size buf fb q) : fifoIsempty fb = q.isEmpty := by
  obtain ⟨_, hq⟩ := h
  exact hq.isempty_eq

theorem isfull_of_holds (h : Holds size buf fb q) : fifoIsfull fb = decide (q.length = size - 1) := by
  obtain ⟨_, hq⟩ := h
  exact hq.isfull_eq

/-- One call, in any position of head and tail. -/
theorem fifo_refines : fifo.Refines (queue (size - 1)) (Holds size buf) := by
  intro fb q call h _
  refine ⟨trivial, ?_⟩
  cases call with
  | push c => exact ⟨rfl, holds_push h c⟩
  | pop => exact ⟨congrArg FifoReply.byte (holds_pop h).1, (holds_pop h).2⟩
  | flush => exact ⟨rfl, holds_flush h⟩
  | isempty => exact ⟨congrArg FifoReply.flag (isempty_of_holds h), h⟩
  | isfull => exact ⟨congrArg FifoReply.flag (isfull_of_holds h), h⟩

theorem holds_after (buf : ℤ) (hsize : 2 ≤ size) (hfb : fb.asserted = false) (calls : List FifoCall) :
    fifo.answers (fifoInit fb buf size) calls = (queue (size - 1)).answers [] calls ∧
      Holds size buf (fifo.after (fifoInit fb buf size) calls) ((queue (size - 1)).after [] calls) :=
  (fifo_refines.run (holds_init hsize hfb) (Machine.allowed_of_free (fun _ _ => trivial) calls)).2

end Buffer

end Ln882x.Serial
