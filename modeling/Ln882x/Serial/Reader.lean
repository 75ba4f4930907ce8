import Ln882x.Serial.Fifo

/-! `serial_read` against the receive interrupt, from `serial.c` and `serial_hw.c`. The loop of
the reader asks whether the buffer is empty and then takes a byte, each in its own critical
section, and bytes may arrive before either. Until the buffer is purged, what the calls have
returned, what the call under way has stored and what the buffer holds are the bytes received,
in order. -/

namespace Ln882x.Serial

open Ln882x.Runtime (Machine)

/-! ### Reader and interrupt -/

def eof : ℤ := -1

/-- A call of `serial_read` under way: what it has stored, and whether `serial_getchar_nowait` has
found the buffer not empty and has yet to take the byte. -/
structure Reading where
  size : ℕ
  buf : List UInt8
  found : Bool

/-- `Serial_t`, the receiving side. -/
structure RxPort where
  rxfifo : FifoBuffer
  reading : Option Reading

/-- What `serial_getchar_nowait` does up to the first critical section. -/
def getcharIsempty (port : RxPort) (r : Reading) : Option (List UInt8) × RxPort :=
  if fifoIsempty port.rxfifo then (some r.buf, { port with reading := none })
  else (none, { port with reading := some { r with found := true } })

/-- What it does then, and what `serial_read` does with the value. -/
def getcharPop (port : RxPort) (r : Reading) : Option (List UInt8) × RxPort :=
  let popped := fifoPop port.rxfifo
  let c : ℤ := popped.1.toNat
  if c = eof then (some r.buf, ⟨popped.2, none⟩)
  else (none, ⟨popped.2, some { r with buf := r.buf ++ [UInt8.ofNat c.toNat], found := false }⟩)

/-- One step of the call under way; the buffer of a call that returns. -/
def serialReadStep (port : RxPort) : Option (List UInt8) × RxPort :=
  match port.reading with
  | none => (none, port)
  | some r =>
    if r.found then getcharPop port r
    else if r.buf.length < r.size then getcharIsempty port r
    else (some r.buf, { port with reading := none })

def serialPurgeRx (port : RxPort) : RxPort := { port with rxfifo := fifoFlush port.rxfifo }

/-- `uart0_RecvDataIrqCallback` and `uart1_RecvDataIrqCallback`; the former asks again after the
purge, when the buffer is empty. -/
def recvDataIrqCallback (port : RxPort) (ch : UInt8) : RxPort :=
  let port := if fifoIsfull port.rxfifo then serialPurgeRx port else port
  { port with rxfifo := fifoPush port.rxfifo ch }

inductive RxEvent
  | receive (ch : UInt8)
  | purgeRx
  | read (size : ℕ)
  | step

/-- Until the next purge: no event may purge the buffer. There is one reader. -/
def rx : Machine RxPort RxEvent (Option (List UInt8)) where
  step port
    | .receive ch => (none, recvDataIrqCallback port ch)
    | .purgeRx => (none, serialPurgeRx port)
    | .read size => (none, { port with reading := some ⟨size, [], false⟩ })
    | .step => serialReadStep port
  may port
    | .receive _ => fifoIsfull port.rxfifo = false
    | .purgeRx => False
    | .read _ => port.reading = none
    | .step => True

def RxEvent.received : RxEvent → List UInt8
  | .receive ch => [ch]
  | _ => []

/-- What the call under way has stored. -/
def stored : Option Reading → List UInt8
  | some r => r.buf
  | none => []

/-- A reader that is about to take a byte finds one. -/
def Steady (reading : Option Reading) (q : List UInt8) : Prop := ∀ r ∈ reading, r.found = true → q ≠ []

/-! ### Conservation -/

section Rx

variable {size : ℕ} {buf : ℤ} {port : RxPort} {q : List UInt8}

/-- The bytes `held` are stored by the call under way or in the buffer. -/
def HeldBy (size : ℕ) (buf : ℤ) (port : RxPort) (held : List UInt8) : Prop :=
  ∃ q, Holds size buf port.rxfifo q ∧ Steady port.reading q ∧ held = stored port.reading ++ q

theorem steady_of_not_found {r : Reading} (h : r.found = false) : Steady (some r) q := by
  rintro _ ⟨⟩ hfound
  rw [h] at hfound
  cases hfound

theorem steady_none : Steady none q := fun _ hr => absurd hr (by simp)

theorem heldBy_receive (h : Holds size buf port.rxfifo q) (hroom : fifoIsfull port.rxfifo = false)
    (ch : UInt8) : HeldBy size buf (recvDataIrqCallback port ch) (stored port.reading ++ q ++ [ch]) := by
  rw [isfull_of_holds h, decide_eq_false_iff_not] at hroom
  have hpush := holds_push h ch
  obtain ⟨_, hq⟩ := h
  have hlt := hq.room
  rw [if_pos (by omega)] at hpush
  have hnot : fifoIsfull port.rxfifo = false := by rw [hq.isfull_eq, decide_eq_false hroom]
  rw [recvDataIrqCallback, hnot, if_neg Bool.false_ne_true]
  exact ⟨q ++ [ch], hpush, fun r hr hfound => by simp, List.append_assoc _ _ _⟩

theorem heldBy_step (h : Holds size buf port.rxfifo q) (hsteady : Steady port.reading q) :
    ∃ held, HeldBy size buf (serialReadStep port).2 held ∧
      ((serialReadStep port).1.getD []) ++ held = stored port.reading ++ q := by
  obtain ⟨rxfifo, reading⟩ := port
  unfold serialReadStep
  cases reading with
  | none => exact ⟨q, ⟨q, h, steady_none, rfl⟩, rfl⟩
  | some r =>
    by_cases hfound : r.found = true
    · -- the buffer was not empty, and no byte has left it since
      cases q with
      | nil => exact absurd rfl (hsteady r rfl hfound)
      | cons ch q =>
        obtain ⟨hch, hpop⟩ := holds_pop h
        have hbyte : ((fifoPop rxfifo).1.toNat : ℤ) ≠ eof := by
          rw [eof]
          omega
        simp only [hfound, if_true, getcharPop, if_neg hbyte]
        refine ⟨r.buf ++ [ch] ++ q, ⟨q, hpop, steady_of_not_found rfl, ?_⟩, ?_⟩
        · rw [stored, hch, List.headD_cons, Int.toNat_natCast, UInt8.ofNat_toNat]
        · rw [Option.getD_none, List.nil_append, stored, List.append_assoc, List.singleton_append]
    · simp only [hfound]
      by_cases hmore : r.buf.length < r.size
      · simp only [hmore, if_true, getcharIsempty]
        by_cases hempty : fifoIsempty rxfifo = true
        · rw [if_pos hempty]
          exact ⟨q, ⟨q, h, steady_none, rfl⟩, rfl⟩
        · rw [if_neg hempty]
          refine ⟨r.buf ++ q, ⟨q, h, ?_, rfl⟩, rfl⟩
          rintro _ ⟨⟩ - rfl
          exact hempty (by rw [isempty_of_holds h, List.isEmpty_nil])
      · simp only [hmore, if_false]
        exact ⟨q, ⟨q, h, steady_none, rfl⟩, rfl⟩

theorem rx_conserves : rx.Conserves (HeldBy size buf) RxEvent.received (fun answer => answer.getD []) := by
  rintro port _ event ⟨q, h, hsteady, rfl⟩ hmay
  cases event with
  | receive ch => exact ⟨_, heldBy_receive h hmay ch, rfl⟩
  | purgeRx => exact hmay.elim
  | read n =>
    have hnone : port.reading = none := hmay
    rw [hnone]
    exact ⟨q, ⟨q, h, steady_of_not_found rfl, rfl⟩, (List.append_nil q).symm⟩
  | step =>
    obtain ⟨held, hheld, heq⟩ := heldBy_step h hsteady
    exact ⟨held, hheld, heq.trans (List.append_nil _).symm⟩

end Rx

end Ln882x.Serial
