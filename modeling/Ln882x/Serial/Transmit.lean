import Ln882x.Serial.Fifo

/-! Transmission, from `serial_hw.c`: by the interrupt that asks for the next byte, and by a loop
that empties the buffer. The callbacks of the two ports differ in what they hand to the UART:
that of `UART1` stores the byte behind the pointer it is given and hands over a zero. -/

namespace Ln882x.Serial

open Ln882x.Runtime (Machine)

/-! ### The sending side -/

inductive PortId
  | uart0
  | uart1
  deriving DecidableEq

/-- The sending side of `Serial_t` and of its hardware: the buffer, the busy flag, the switch of the
interrupt, and the byte behind the pointer that the callback is given. -/
structure TxPort where
  txfifo : FifoBuffer
  isSending : Bool
  transmitHoldingRegEmpty : Bool
  ch : UInt8

-- each returns the bytes passed to `HAL_UART_WriteOneChar`

def uart0SendDataIrqCallback (port : TxPort) : List UInt8 × TxPort :=
  if fifoIsempty port.txfifo then ([], { port with transmitHoldingRegEmpty := false, isSending := false })
  else
    let popped := fifoPop port.txfifo
    let txChar := popped.1
    ([txChar], { port with txfifo := popped.2 })

def uart1SendDataIrqCallback (port : TxPort) : List UInt8 × TxPort :=
  let txChar := 0
  if fifoIsempty port.txfifo then ([], { port with transmitHoldingRegEmpty := false, isSending := false })
  else
    let popped := fifoPop port.txfifo
    ([txChar], { port with txfifo := popped.2, ch := popped.1 })

def sendDataIrqCallback : PortId → TxPort → List UInt8 × TxPort
  | .uart0 => uart0SendDataIrqCallback
  | .uart1 => uart1SendDataIrqCallback

def hwUartTxStartIsr (port : TxPort) : List UInt8 × TxPort :=
  if port.isSending then ([], port)
  else if !fifoIsempty port.txfifo then ([], { port with isSending := true, transmitHoldingRegEmpty := true })
  else ([], port)

/-- The loop, for some rounds. -/
def pollingLoop : ℕ → TxPort → List UInt8 × TxPort
  | 0, port => ([], port)
  | rounds + 1, port =>
    if fifoIsempty port.txfifo then ([], port)
    else
      let popped := fifoPop port.txfifo
      let rest := pollingLoop rounds { port with txfifo := popped.2 }
      (popped.1 :: rest.1, rest.2)

/-- No buffer holds more bytes than it has slots. -/
def hwUartTxStartPolling (port : TxPort) : List UInt8 × TxPort := pollingLoop (fifoLen port.txfifo).toNat port

inductive TxEvent
  | push (c : UInt8)
  | txStart
  | callback

/-- Pushes while there is room, with one way to start and one callback. -/
def tx (txStart callback : TxPort → List UInt8 × TxPort) : Machine TxPort TxEvent (List UInt8) where
  step port
    | .push c => ([], { port with txfifo := fifoPush port.txfifo c })
    | .txStart => txStart port
    | .callback => callback port
  may port
    | .push _ => fifoIsfull port.txfifo = false
    | .txStart => True
    | .callback => True

/-- By interrupt. -/
def txIsr (id : PortId) : Machine TxPort TxEvent (List UInt8) := tx hwUartTxStartIsr (sendDataIrqCallback id)

/-- By the polling loop, after every byte. -/
def txPolled (id : PortId) : Machine TxPort TxEvent (List UInt8) := tx hwUartTxStartPolling (sendDataIrqCallback id)

def TxPort.opened (fb : FifoBuffer) (buf : ℤ) (size : ℕ) (ch : UInt8) : TxPort :=
  ⟨fifoInit fb buf size, false, false, ch⟩

def pushed (events : List TxEvent) : List UInt8 :=
  events.flatMap fun
    | .push c => [c]
    | _ => []

/-- What a run passes to `HAL_UART_WriteOneChar`. -/
def written (M : Machine TxPort TxEvent (List UInt8)) (port : TxPort) (events : List TxEvent) : List UInt8 :=
  (M.answers port events).flatten

/-- The pushes of some bytes, each with a start of the loop. -/
def polled (bytes : List UInt8) : List TxEvent := bytes.flatMap fun c => [.push c, .txStart]

/-- What a callback hands over for a byte. -/
def handed : PortId → UInt8 → UInt8
  | .uart0, c => c
  | .uart1, _ => 0

section Tx

variable {id : PortId} {size : ℕ} {buf : ℤ} {port : TxPort} {q : List UInt8}

/-! ### By interrupt -/

/-- In the buffer are the bytes that will be handed over as `held`. -/
def HandsOver (id : PortId) (size : ℕ) (buf : ℤ) (port : TxPort) (held : List UInt8) : Prop :=
  ∃ q, Holds size buf port.txfifo q ∧ held = q.map (handed id)

theorem callback_nil (h : Holds size buf port.txfifo []) :
    sendDataIrqCallback id port = ([], { port with transmitHoldingRegEmpty := false, isSending := false }) := by
  have hempty : fifoIsempty port.txfifo = true := isempty_of_holds h
  cases id
  · rw [sendDataIrqCallback, uart0SendDataIrqCallback, if_pos hempty]
  · rw [sendDataIrqCallback, uart1SendDataIrqCallback, if_pos hempty]

theorem callback_cons (id : PortId) {c : UInt8} (h : Holds size buf port.txfifo (c :: q)) :
    (sendDataIrqCallback id port).1 = [handed id c] ∧ Holds size buf (sendDataIrqCallback id port).2.txfifo q := by
  have hempty : fifoIsempty port.txfifo = false := isempty_of_holds h
  obtain ⟨hpop, hrest⟩ := holds_pop h
  cases id
  · rw [sendDataIrqCallback, uart0SendDataIrqCallback, hempty, if_neg Bool.false_ne_true]
    exact ⟨congrArg (fun b => [b]) hpop, hrest⟩
  · rw [sendDataIrqCallback, uart1SendDataIrqCallback, hempty, if_neg Bool.false_ne_true]
    exact ⟨rfl, hrest⟩

theorem txStartIsr_frame (port : TxPort) :
    (hwUartTxStartIsr port).1 = [] ∧ (hwUartTxStartIsr port).2.txfifo = port.txfifo := by
  unfold hwUartTxStartIsr
  split_ifs <;> exact ⟨rfl, rfl⟩

theorem txIsr_conserves :
    (txIsr id).Conserves (HandsOver id size buf) (fun event => (pushed [event]).map (handed id))
      fun answer => answer := by
  rintro port _ event ⟨q, h, rfl⟩ hmay
  cases event with
  | push c =>
    have hroom : fifoIsfull port.txfifo = false := hmay
    rw [isfull_of_holds h, decide_eq_false_iff_not] at hroom
    have hpush := holds_push h c
    obtain ⟨_, hq⟩ := h
    have hlt := hq.room
    rw [if_pos (by omega)] at hpush
    exact ⟨_, ⟨q ++ [c], hpush, rfl⟩, List.map_append⟩
  | txStart =>
    obtain ⟨hnone, hframe⟩ := txStartIsr_frame port
    refine ⟨_, ⟨q, ?_, rfl⟩, ?_⟩
    · change Holds size buf (hwUartTxStartIsr port).2.txfifo q
      rwa [hframe]
    · change (hwUartTxStartIsr port).1 ++ _ = _ ++ []
      rw [hnone, List.nil_append, List.append_nil]
  | callback =>
    cases q with
    | nil =>
      refine ⟨[], ⟨[], ?_, rfl⟩, ?_⟩
      · change Holds size buf (sendDataIrqCallback id port).2.txfifo []
        rwa [callback_nil h]
      · change (sendDataIrqCallback id port).1 ++ [] = []
        rw [callback_nil h, List.append_nil]
    | cons c q =>
      obtain ⟨hout, hrest⟩ := callback_cons id h
      refine ⟨_, ⟨q, hrest, rfl⟩, ?_⟩
      change (sendDataIrqCallback id port).1 ++ _ = _ ++ []
      rw [hout, List.append_nil, List.singleton_append, List.map_cons]

theorem map_pushed (events : List TxEvent) :
    (events.flatMap fun event => (pushed [event]).map (handed id)) = (pushed events).map (handed id) := by
  rw [pushed, List.map_flatMap]
  refine List.flatMap_congr fun event _ => ?_
  rw [pushed, List.flatMap_singleton]

/-! ### By the loop -/

theorem pollingLoop_eq {rounds : ℕ} (port : TxPort) (h : Holds size buf port.txfifo q) (hrounds : q.length ≤ rounds) :
    (pollingLoop rounds port).1 = q ∧ Holds size buf (pollingLoop rounds port).2.txfifo [] := by
  induction rounds generalizing port q with
  | zero =>
    obtain rfl : q = [] := List.eq_nil_of_length_eq_zero (Nat.le_zero.mp hrounds)
    exact ⟨rfl, h⟩
  | succ rounds ih =>
    have hempty := isempty_of_holds h
    rw [pollingLoop, hempty]
    cases q with
    | nil => exact ⟨rfl, h⟩
    | cons c q =>
      obtain ⟨hpop, hrest⟩ := holds_pop h
      obtain ⟨hwritten, hdone⟩ := ih { port with txfifo := (fifoPop port.txfifo).2 } hrest
        (Nat.le_of_succ_le_succ hrounds)
      rw [List.isEmpty_cons, if_neg Bool.false_ne_true]
      exact ⟨congrArg₂ List.cons hpop hwritten, hdone⟩

theorem txStartPolling_eq (port : TxPort) (h : Holds size buf port.txfifo q) :
    (hwUartTxStartPolling port).1 = q ∧ Holds size buf (hwUartTxStartPolling port).2.txfifo [] := by
  refine pollingLoop_eq port h ?_
  obtain ⟨_, hq⟩ := h
  have hroom := hq.room
  rw [fifoLen, hq.beginPtr, hq.endPtr]
  omega

/-- The loop writes what was pushed. -/
theorem written_polled (hsize : 2 ≤ size) (h : Holds size buf port.txfifo []) (bytes : List UInt8) :
    (txPolled id).Allowed port (polled bytes) ∧ written (txPolled id) port (polled bytes) = bytes := by
  induction bytes generalizing port with
  | nil => exact ⟨trivial, rfl⟩
  | cons c bytes ih =>
    have hroom : fifoIsfull port.txfifo = false := by
      rw [isfull_of_holds h]
      exact decide_eq_false (by rw [List.length_nil]; omega)
    have hpush := holds_push h c
    rw [if_pos (by rw [List.length_nil]; omega)] at hpush
    obtain ⟨hone, hempty⟩ := txStartPolling_eq { port with txfifo := fifoPush port.txfifo c } hpush
    obtain ⟨hallowed, hrest⟩ := ih hempty
    refine ⟨⟨hroom, trivial, hallowed⟩, ?_⟩
    change [] ++ ((hwUartTxStartPolling { port with txfifo := fifoPush port.txfifo c }).1 ++ written (txPolled id)
      (hwUartTxStartPolling { port with txfifo := fifoPush port.txfifo c }).2 (polled bytes)) = c :: bytes
    rw [hone, hrest]
    rfl

theorem map_handed_eq_iff (bytes : List UInt8) :
    bytes.map (handed id) = bytes ↔ id = .uart0 ∨ ∀ c ∈ bytes, c = 0 := by
  cases id with
  | uart0 => exact iff_of_true (List.map_id _) (.inl rfl)
  | uart1 =>
    have hmap : bytes.map (handed .uart1) = bytes.map id ↔ ∀ c ∈ bytes, 0 = c := List.map_inj_left
    rw [List.map_id] at hmap
    rw [hmap]
    exact ⟨fun h => .inr fun c hc => (h c hc).symm, fun h c hc => (h.resolve_left (by decide) c hc).symm⟩

end Tx

/-- Any run by interrupt that ends with an empty buffer: it writes what was pushed, as the loop
does, and a callback that finds the buffer empty leaves the port not sending, exactly if the
port is `UART0` or every byte is a zero. -/
theorem transmission_iff (id : PortId) (fb : FifoBuffer) (buf : ℤ) (size : ℕ) (ch : UInt8) (hsize : 2 ≤ size)
    (hfb : fb.asserted = false) (events : List TxEvent)
    (hallowed : (txIsr id).Allowed (.opened fb buf size ch) events)
    (hempty : fifoIsempty ((txIsr id).after (.opened fb buf size ch) events).txfifo = true) :
    (written (txIsr id) (.opened fb buf size ch) events = pushed events ∧
        written (txIsr id) (.opened fb buf size ch) events =
          written (txPolled id) (.opened fb buf size ch) (polled (pushed events)) ∧
        (sendDataIrqCallback id ((txIsr id).after (.opened fb buf size ch) events)).2.isSending = false) ↔
      id = .uart0 ∨ ∀ c ∈ pushed events, c = 0 := by
  have hopened : Holds size buf (TxPort.opened fb buf size ch).txfifo [] := holds_init hsize hfb
  obtain ⟨_, ⟨q, hq, rfl⟩, hrun⟩ := txIsr_conserves.run ⟨[], hopened, rfl⟩ hallowed
  obtain rfl : q = [] := by rwa [isempty_of_holds hq, List.isEmpty_iff] at hempty
  have hwritten : written (txIsr id) (.opened fb buf size ch) events = (pushed events).map (handed id) := by
    rw [List.map_nil, List.append_nil, List.nil_append, map_pushed] at hrun
    rw [← hrun, written, List.flatMap_id']
  have hidle : (sendDataIrqCallback id ((txIsr id).after (.opened fb buf size ch) events)).2.isSending = false := by
    rw [callback_nil hq]
  rw [hwritten, (written_polled hsize hopened _).2, and_iff_left hidle, and_self_iff, map_handed_eq_iff]

/-- `UART0` sends one byte. -/
theorem transmission_iff_uart0 :
    written (txIsr .uart0) (.opened ⟨0, 0, 0, 0, fun _ => 0, false⟩ 0x100 4 0)
      [.push 0x41, .txStart, .callback] = [0x41] :=
  ((transmission_iff .uart0 ⟨0, 0, 0, 0, fun _ => 0, false⟩ 0x100 4 0 (by decide) rfl [.push 0x41, .txStart, .callback]
    ⟨rfl, trivial, trivial, trivial⟩ rfl).mpr (.inl rfl)).1

/-- `UART1` does not. -/
theorem uart1_sends_zero :
    fifoIsempty ((txIsr .uart1).after (.opened ⟨0, 0, 0, 0, fun _ => 0, false⟩ 0x100 4 0)
        [.push 0x41, .txStart, .callback]).txfifo = true ∧
      written (txIsr .uart1) (.opened ⟨0, 0, 0, 0, fun _ => 0, false⟩ 0x100 4 0)
        [.push 0x41, .txStart, .callback] = [0] ∧
      pushed [.push 0x41, .txStart, .callback] = [0x41] :=
  ⟨rfl, rfl, rfl⟩

end Ln882x.Serial
