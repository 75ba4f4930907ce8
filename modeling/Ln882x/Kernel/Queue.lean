import Ln882x.Kernel.Delay
import Ln882x.Memory.Ring

/-! Queues (`queue.c`), and the tasks and interrupts that use one. A call of a task is a sequence
of critical sections. A task that finds the queue full, or empty, suspends the scheduler, locks
the queue and looks again before it waits in the event list; interrupts that come in between
do not touch the event lists of a locked queue but count, and the count is made good when the
queue is unlocked. A step below is one critical section. The queue is not a mutex. -/

namespace Ln882x.Kernel

open Memory

/-- An item of a queue. -/
abbrev Item := List UInt8

def configMaxPriorities : ℕ := 8

def queueUnlocked : ℤ := -1

def queueLockedUnmodified : ℤ := 0

/-- `xCopyPosition`. -/
inductive CopyPosition where
  | sendToBack | sendToFront | overwrite
  deriving DecidableEq

/-! ### The storage -/

/-- The part of `Queue_t` that concerns the items. Pointers are offsets from `pcHead`. -/
structure Buffer where
  storage : List UInt8
  pcTail : ℕ
  pcWriteTo : ℕ
  pcReadFrom : ℕ
  uxMessagesWaiting : ℕ
  uxLength : ℕ
  uxItemSize : ℕ

namespace Buffer
variable (b : Buffer)

/-- A queue that was never reset. -/
def allocated (storage : List UInt8) (uxLength uxItemSize : ℕ) : Buffer := ⟨storage, 0, 0, 0, 0, uxLength, uxItemSize⟩

def reset : Buffer :=
  { b with
    pcTail := b.uxLength * b.uxItemSize
    uxMessagesWaiting := 0
    pcWriteTo := 0
    pcReadFrom := (b.uxLength - 1) * b.uxItemSize }

def prvCopyDataToQueue (pvItemToQueue : Item) (xPosition : CopyPosition) : Buffer :=
  if b.uxItemSize = 0 then { b with uxMessagesWaiting := b.uxMessagesWaiting + 1 }
  else if xPosition = .sendToBack then
    { b with
      storage := writeAt b.storage b.pcWriteTo pvItemToQueue
      pcWriteTo := if b.pcWriteTo + b.uxItemSize ≥ b.pcTail then 0 else b.pcWriteTo + b.uxItemSize
      uxMessagesWaiting := b.uxMessagesWaiting + 1 }
  else
    { b with
      storage := writeAt b.storage b.pcReadFrom pvItemToQueue
      pcReadFrom := if b.pcReadFrom < b.uxItemSize then b.pcTail - b.uxItemSize else b.pcReadFrom - b.uxItemSize
      uxMessagesWaiting :=
        (if xPosition = .overwrite ∧ b.uxMessagesWaiting > 0 then b.uxMessagesWaiting - 1 else b.uxMessagesWaiting) + 1 }

/-- The item and the buffer with its new read position. -/
def prvCopyDataFromQueue : Item × Buffer :=
  if b.uxItemSize ≠ 0 then
    let pcReadFrom := if b.pcReadFrom + b.uxItemSize ≥ b.pcTail then 0 else b.pcReadFrom + b.uxItemSize
    ((b.storage.drop pcReadFrom).take b.uxItemSize, { b with pcReadFrom := pcReadFrom })
  else ([], b)

/-- The condition of `xQueueGenericSend` and `xQueueGenericSendFromISR`. -/
def Accepts (xCopyPosition : CopyPosition) : Prop := b.uxMessagesWaiting < b.uxLength ∨ xCopyPosition = .overwrite

instance (xCopyPosition : CopyPosition) : Decidable (b.Accepts xCopyPosition) := inferInstanceAs (Decidable (_ ∨ _))

/-- The item that is removed, and the buffer without it. -/
def receive : Item × Buffer :=
  let r := b.prvCopyDataFromQueue
  (r.1, { r.2 with uxMessagesWaiting := b.uxMessagesWaiting - 1 })

/-- The item that is looked at; the read position is put back. -/
def peek : Item × Buffer :=
  let r := b.prvCopyDataFromQueue
  (r.1, { r.2 with pcReadFrom := b.pcReadFrom })

end Buffer

/-! ### Locks and event lists -/

structure Queue extends Buffer where
  xTasksWaitingToSend : List ListItem
  xTasksWaitingToReceive : List ListItem
  cRxLock : ℤ
  cTxLock : ℤ

/-- A count in an `int8_t`. -/
def int8 (x : ℤ) : ℤ := Int.bmod x 256

/-- The loop of `prvUnlockQueue`: as many tasks are woken as the lock counted. -/
def wakeLoop : ℤ → List ListItem → List ListItem
  | _, [] => []
  | cLock, i :: l => if cLock > queueLockedUnmodified then wakeLoop (cLock - 1) l else i :: l

namespace Queue
variable (q : Queue)

def xQueueGenericReset : Queue :=
  { q with
    toBuffer := q.toBuffer.reset
    cRxLock := queueUnlocked
    cTxLock := queueUnlocked
    xTasksWaitingToSend := q.xTasksWaitingToSend.tail }

/-- The queue that `xQueueGenericCreate` leaves. -/
def create (storage : List UInt8) (uxLength uxItemSize : ℕ) : Queue :=
  ⟨(Buffer.allocated storage uxLength uxItemSize).reset, [], [], queueUnlocked, queueUnlocked⟩

def prvLockQueue : Queue :=
  { q with
    cRxLock := if q.cRxLock = queueUnlocked then queueLockedUnmodified else q.cRxLock
    cTxLock := if q.cTxLock = queueUnlocked then queueLockedUnmodified else q.cTxLock }

/-- The first critical section of `prvUnlockQueue`. -/
def prvUnlockTx : Queue :=
  { q with xTasksWaitingToReceive := wakeLoop q.cTxLock q.xTasksWaitingToReceive, cTxLock := queueUnlocked }

/-- The second critical section of `prvUnlockQueue`. -/
def prvUnlockRx : Queue :=
  { q with xTasksWaitingToSend := wakeLoop q.cRxLock q.xTasksWaitingToSend, cRxLock := queueUnlocked }

def prvIsQueueEmpty : Bool := q.uxMessagesWaiting = 0

def prvIsQueueFull : Bool := q.uxMessagesWaiting = q.uxLength

/-- The task at the head of the list is woken, if there is one. -/
def wakeReceiver : Queue := { q with xTasksWaitingToReceive := q.xTasksWaitingToReceive.tail }

def wakeSender : Queue := { q with xTasksWaitingToSend := q.xTasksWaitingToSend.tail }

/-- A sent item, in an interrupt: a locked queue counts it. -/
def noteSent : Queue :=
  if q.cTxLock = queueUnlocked then q.wakeReceiver else { q with cTxLock := int8 (q.cTxLock + 1) }

def noteReceived : Queue :=
  if q.cRxLock = queueUnlocked then q.wakeSender else { q with cRxLock := int8 (q.cRxLock + 1) }

end Queue

/-! ### Calls -/

/-- What a task asks of the queue. -/
inductive Request where
  | send (pvItemToQueue : Item) (xCopyPosition : CopyPosition)
  | receive (xJustPeeking : Bool)
  deriving DecidableEq

/-- Where a task is in `xQueueGenericSend` or `xQueueGenericReceive`: before which critical section. -/
inductive Pc where
  | idle
  | retry
  | suspendAll
  | lock
  | checkForTimeOut
  | look
  | place
  | unlockTx (expired : Bool)
  | unlockRx (expired : Bool)
  | resumeAll (expired : Bool)
  | lookAgain
  deriving DecidableEq

/-- A task with its local variables; the last three are `xTimeOut` and `xEntryTimeSet`. -/
structure Task where
  pc : Pc
  request : Request
  xTicksToWait : ℕ
  xOverflowCount : ℕ
  xTimeOnEntering : ℕ
  xEntryTimeSet : Bool

/-- What a call or an interrupt did. -/
inductive Outcome where
  | send (item : Item) (xCopyPosition : CopyPosition)
  | receive (item : Item)
  | peek (item : Item)
  | sendFailed (expired : Bool)
  | receiveFailed
  | reset
  deriving DecidableEq

/-- The tasks, the tick count and the queue. The scheduler is suspended by a task or by none;
`trace` says which task (or an interrupt, `none`) did what. -/
structure System where
  queue : Queue
  task : ℕ → Task
  uxPriority : ℕ → ℕ
  suspendedBy : Option ℕ
  xTickCount : ℕ
  xNumOfOverflows : ℕ
  trace : List (Option ℕ × Outcome)

namespace System
variable (s : System) (t : ℕ)

def setTask (r : Task) : System := { s with task := Function.update s.task t r }

def goto (pc : Pc) : System := s.setTask t { s.task t with pc := pc }

def traced (who : Option ℕ) (o : Outcome) : System := { s with trace := s.trace ++ [(who, o)] }

/-- The call ends. -/
def finish (o : Outcome) : System := (s.traced (some t) o).goto t .idle

def setTimeOutState (r : Task) : Task := { r with xOverflowCount := s.xNumOfOverflows, xTimeOnEntering := s.xTickCount }

/-- The ticks since a time, as a `TickType_t`. -/
def ticksSince (xConstTickCount xTimeOnEntering : ℕ) : ℕ := (xConstTickCount + 2 ^ 32 - xTimeOnEntering) % 2 ^ 32

/-- `xTaskCheckForTimeOut`: if the time has expired, and the variables of the task. -/
def xTaskCheckForTimeOut (r : Task) : Bool × Task :=
  if r.xTicksToWait = portMaxDelay then (false, r)
  else if s.xNumOfOverflows ≠ r.xOverflowCount ∧ s.xTickCount ≥ r.xTimeOnEntering then (true, r)
  else if ticksSince s.xTickCount r.xTimeOnEntering < r.xTicksToWait then
    (false, s.setTimeOutState { r with xTicksToWait := r.xTicksToWait - ticksSince s.xTickCount r.xTimeOnEntering })
  else (true, r)

/-- The item of a task in an event list. -/
def eventListItem : ListItem := ⟨configMaxPriorities - s.uxPriority t, t⟩

/-- The end of the critical section of a call that cannot go on. -/
def refused (failed : Outcome) : System :=
  let r := s.task t
  if r.xTicksToWait = 0 then s.finish t failed
  else s.setTask t { (if r.xEntryTimeSet then r else s.setTimeOutState r) with xEntryTimeSet := true, pc := .suspendAll }

/-- The critical section at the head of the loop. -/
def retry : System :=
  match (s.task t).request with
  | .send item pos =>
    if s.queue.Accepts pos then
      { s with queue := { s.queue with toBuffer := s.queue.toBuffer.prvCopyDataToQueue item pos }.wakeReceiver }.finish t
        (.send item pos)
    else s.refused t (.sendFailed false)
  | .receive false =>
    if s.queue.uxMessagesWaiting > 0 then
      { s with queue := { s.queue with toBuffer := s.queue.toBuffer.receive.2 }.wakeSender }.finish t
        (.receive s.queue.toBuffer.receive.1)
    else s.refused t .receiveFailed
  | .receive true =>
    if s.queue.uxMessagesWaiting > 0 then
      { s with queue := { s.queue with toBuffer := s.queue.toBuffer.peek.2 }.wakeReceiver }.finish t
        (.peek s.queue.toBuffer.peek.1)
    else s.refused t .receiveFailed

/-- The queue stands in the way of the request. -/
def blocked (r : Request) : Bool :=
  match r with
  | .send _ _ => s.queue.prvIsQueueFull
  | .receive _ => s.queue.prvIsQueueEmpty

/-- `vTaskPlaceOnEventList`, in the list that the request waits in. -/
def vTaskPlaceOnEventList : System :=
  match (s.task t).request with
  | .send _ _ =>
    { s with queue := { s.queue with
      xTasksWaitingToSend := vListInsert s.queue.xTasksWaitingToSend (s.eventListItem t) } }
  | .receive _ =>
    { s with queue := { s.queue with
      xTasksWaitingToReceive := vListInsert s.queue.xTasksWaitingToReceive (s.eventListItem t) } }

/-- A call whose time has expired: one that receives looks once more. -/
def expire : System :=
  match (s.task t).request with
  | .send _ _ => s.finish t (.sendFailed true)
  | .receive _ => s.goto t .lookAgain

/-- The next critical section of a task. -/
def stepTask : System :=
  match (s.task t).pc with
  | .idle => s
  | .retry => s.retry t
  | .suspendAll => { s with suspendedBy := some t }.goto t .lock
  | .lock => { s with queue := s.queue.prvLockQueue }.goto t .checkForTimeOut
  | .checkForTimeOut =>
    let r := s.xTaskCheckForTimeOut (s.task t)
    s.setTask t { r.2 with pc := if r.1 then .unlockTx true else .look }
  | .look => s.goto t (if s.blocked (s.task t).request then .place else .unlockTx false)
  | .place => (s.vTaskPlaceOnEventList t).goto t (.unlockTx false)
  | .unlockTx expired => { s with queue := s.queue.prvUnlockTx }.goto t (.unlockRx expired)
  | .unlockRx expired => { s with queue := s.queue.prvUnlockRx }.goto t (.resumeAll expired)
  | .resumeAll false => { s with suspendedBy := none }.goto t .retry
  | .resumeAll true => { s with suspendedBy := none }.expire t
  | .lookAgain => if s.queue.prvIsQueueEmpty then s.finish t .receiveFailed else s.goto t .retry

/-! ### Interrupts -/

def xQueueGenericSendFromISR (item : Item) (pos : CopyPosition) : System :=
  if s.queue.Accepts pos then
    { s with queue := { s.queue with toBuffer := s.queue.toBuffer.prvCopyDataToQueue item pos }.noteSent }.traced none
      (.send item pos)
  else s.traced none (.sendFailed false)

/-- For a queue of items of size zero. -/
def xQueueGiveFromISR : System :=
  if s.queue.uxMessagesWaiting < s.queue.uxLength then
    { s with queue := { s.queue with
      toBuffer := { s.queue.toBuffer with uxMessagesWaiting := s.queue.uxMessagesWaiting + 1 } }.noteSent }.traced none
      (.send [] .sendToBack)
  else s.traced none (.sendFailed false)

def xQueueReceiveFromISR : System :=
  if s.queue.uxMessagesWaiting > 0 then
    { s with queue := { s.queue with toBuffer := s.queue.toBuffer.receive.2 }.noteReceived }.traced none
      (.receive s.queue.toBuffer.receive.1)
  else s.traced none .receiveFailed

def xQueuePeekFromISR : System :=
  if s.queue.uxMessagesWaiting > 0 then
    { s with queue := { s.queue with toBuffer := s.queue.toBuffer.peek.2 } }.traced none (.peek s.queue.toBuffer.peek.1)
  else s.traced none .receiveFailed

/-- A tick, with `comp` ticks added to it. -/
def tick (comp : ℕ) : System :=
  let xConstTickCount := (s.xTickCount + 1 + comp) % 2 ^ 32
  { s with
    xTickCount := xConstTickCount
    xNumOfOverflows := if xConstTickCount < s.xTickCount then (s.xNumOfOverflows + 1) % 2 ^ 32 else s.xNumOfOverflows }

/-- The wake time of a waiting task has come. -/
def timeOut : System :=
  { s with queue := { s.queue with
    xTasksWaitingToSend := s.queue.xTasksWaitingToSend.filter fun i => i.pvOwner ≠ t
    xTasksWaitingToReceive := s.queue.xTasksWaitingToReceive.filter fun i => i.pvOwner ≠ t } }

/-- What can happen next. -/
inductive Act where
  | call (t : ℕ) (request : Request) (xTicksToWait : ℕ)
  | step (t : ℕ)
  | reset (t : ℕ)
  | sendFromISR (item : Item) (pos : CopyPosition)
  | giveFromISR
  | receiveFromISR
  | peekFromISR
  | tick (comp : ℕ)
  | timeOut (t : ℕ)

def act : Act → System
  | .call t request xTicksToWait => s.setTask t ⟨.retry, request, xTicksToWait, 0, 0, false⟩
  | .step t => s.stepTask t
  | .reset t => { s with queue := s.queue.xQueueGenericReset }.traced (some t) .reset
  | .sendFromISR item pos => s.xQueueGenericSendFromISR item pos
  | .giveFromISR => s.xQueueGiveFromISR
  | .receiveFromISR => s.xQueueReceiveFromISR
  | .peekFromISR => s.xQueuePeekFromISR
  | .tick comp => s.tick comp
  | .timeOut t => s.timeOut t

def acts (s : System) (as : List Act) : System := as.foldl act s

/-- The tasks in an event list. -/
def waiting (l : List ListItem) : List ℕ := l.map ListItem.pvOwner

end System

end Ln882x.Kernel
