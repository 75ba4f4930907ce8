import Ln882x.Kernel.QueueItems

/-! Runs of tasks and interrupts on a queue. The critical sections of the calls come in any
order, with interrupts between them; each that changes the queue is an operation of an ideal
double-ended queue, and each that refuses to says the truth about that queue. -/

namespace Ln882x.Kernel

namespace System
variable {s s' : System} {t u : ℕ}

/-! ### What may happen -/

/-- A task waits in an event list. -/
def Waits (s : System) (t : ℕ) : Prop :=
  t ∈ waiting s.queue.xTasksWaitingToSend ∨ t ∈ waiting s.queue.xTasksWaitingToReceive

/-- The preconditions of the functions, and when a task runs: only the one that has suspended the
scheduler, or else any that does not wait. A lock count must not leave the `int8_t`, and a reset
wakes one sender only. -/
def Allowed (s : System) : Act → Prop
  | .call t request _ => s.suspendedBy = none ∧ (s.task t).pc = .idle ∧
      ∀ item pos, request = .send item pos → Sendable s.queue.toBuffer item pos
  | .step t => (s.task t).pc ≠ .idle ∧ (s.suspendedBy = some t ∨ s.suspendedBy = none ∧ ¬s.Waits t)
  | .reset t => s.suspendedBy = none ∧ (s.task t).pc = .idle ∧
      (s.queue.xTasksWaitingToSend.length ≤ 1 ∨ s.queue.uxLength = 1)
  | .sendFromISR item pos => Sendable s.queue.toBuffer item pos ∧ s.queue.cTxLock < 127
  | .giveFromISR => s.queue.uxItemSize = 0 ∧ s.queue.cTxLock < 127
  | .receiveFromISR => s.queue.cRxLock < 127
  | .peekFromISR => s.queue.uxItemSize ≠ 0
  | .tick _ => s.suspendedBy = none
  | .timeOut t => s.suspendedBy = none ∧ (s.task t).xTicksToWait ≠ portMaxDelay

def Legal (s : System) : List Act → Prop
  | [] => True
  | a :: as => s.Allowed a ∧ (s.act a).Legal as

/-- The system after the queue was created. -/
def start (storage : List UInt8) (uxLength uxItemSize : ℕ) (uxPriority : ℕ → ℕ) (xTickCount xNumOfOverflows : ℕ) : System :=
  ⟨.create storage uxLength uxItemSize, fun _ => ⟨.idle, .receive false, 0, 0, 0, false⟩, uxPriority, none, xTickCount,
    xNumOfOverflows, []⟩

/-! ### Fields -/

@[simp] theorem setTask_self (r : Task) : (s.setTask t r).task t = r := by simp [setTask]
theorem setTask_of_ne (h : u ≠ t) (r : Task) : (s.setTask t r).task u = s.task u := by simp [setTask, h]

@[simp] theorem goto_queue (pc : Pc) : (s.goto t pc).queue = s.queue := rfl
@[simp] theorem goto_self (pc : Pc) : (s.goto t pc).task t = { s.task t with pc := pc } := setTask_self _
theorem goto_of_ne (h : u ≠ t) (pc : Pc) : (s.goto t pc).task u = s.task u := setTask_of_ne h _

@[simp] theorem finish_self (o : Outcome) : (s.finish t o).task t = { s.task t with pc := .idle } := setTask_self _
theorem finish_of_ne (h : u ≠ t) (o : Outcome) : (s.finish t o).task u = s.task u := setTask_of_ne h _

theorem refused_of_ne (hut : u ≠ t) (failed : Outcome) : (s.refused t failed).task u = s.task u := by
  unfold refused
  dsimp only
  split_ifs
  · exact finish_of_ne hut _
  · exact setTask_of_ne hut _
  · exact setTask_of_ne hut _

@[simp] theorem noteSent_toBuffer (q : Queue) : q.noteSent.toBuffer = q.toBuffer := by
  unfold Queue.noteSent
  split_ifs <;> rfl

@[simp] theorem noteReceived_toBuffer (q : Queue) : q.noteReceived.toBuffer = q.toBuffer := by
  unfold Queue.noteReceived
  split_ifs <;> rfl

theorem copyTo_sizes (b : Buffer) (item : Item) (pos : CopyPosition) :
    (b.prvCopyDataToQueue item pos).uxLength = b.uxLength ∧ (b.prvCopyDataToQueue item pos).uxItemSize = b.uxItemSize := by
  unfold Buffer.prvCopyDataToQueue
  split_ifs <;> exact ⟨rfl, rfl⟩

theorem receive_sizes (b : Buffer) : b.receive.2.uxLength = b.uxLength ∧ b.receive.2.uxItemSize = b.uxItemSize := by
  unfold Buffer.receive Buffer.prvCopyDataFromQueue
  split_ifs <;> exact ⟨rfl, rfl⟩

/-! ### What a step does to the items -/

/-- A step leaves the items alone, or does what it reports. -/
inductive Effect (s s' : System) : Prop
  | quiet (buffer : s'.queue.toBuffer = s.queue.toBuffer) (trace : s'.trace = s.trace)
  | did (who : Option ℕ) (o : Outcome) (trace : s'.trace = s.trace ++ [(who, o)])
      (length : s'.queue.uxLength = s.queue.uxLength) (itemSize : s'.queue.uxItemSize = s.queue.uxItemSize)
      (holds : ∀ items, Holds s.queue.toBuffer items →
        ∃ items', o.on s.queue.uxLength items = some items' ∧ Holds s'.queue.toBuffer items')

variable {items : List Item} {item : Item} {pos : CopyPosition} {b : Buffer}

theorem on_send (h : Holds b items) (hs : Sendable b item pos) (hacc : b.Accepts pos) :
    ∃ items', (Outcome.send item pos).on b.uxLength items = some items' ∧ Holds (b.prvCopyDataToQueue item pos) items' := by
  refine ⟨pos.place item items, ?_, h.copyTo hs hacc⟩
  have hroom : pos ≠ .overwrite → items.length < b.uxLength := by
    intro hpos
    rw [← h.count]
    exact hacc.resolve_right hpos
  cases pos with
  | sendToBack => exact if_pos (hroom (by simp))
  | sendToFront => exact if_pos (hroom (by simp))
  | overwrite => rfl

theorem on_receive (h : Holds b items) (hany : b.uxMessagesWaiting > 0) :
    ∃ items', (Outcome.receive b.receive.1).on b.uxLength items = some items' ∧ Holds b.receive.2 items' := by
  cases items with
  | nil => exact absurd h.count (Nat.ne_of_gt hany)
  | cons x items =>
    obtain ⟨hitem, hrest⟩ := h.receive
    exact ⟨items, if_pos (by rw [hitem]; rfl), hrest⟩

theorem on_peek (h : Holds b items) (hany : b.uxMessagesWaiting > 0) :
    ∃ items', (Outcome.peek b.peek.1).on b.uxLength items = some items' ∧ Holds b.peek.2 items' := by
  cases items with
  | nil => exact absurd h.count (Nat.ne_of_gt hany)
  | cons x items =>
    rw [b.peek_snd, h.peek]
    exact ⟨x :: items, if_pos rfl, h⟩

theorem on_sendFailed (h : Holds b items) (hfull : b.uxMessagesWaiting = b.uxLength) :
    (Outcome.sendFailed false).on b.uxLength items = some items := if_pos (h.count.symm.trans hfull)

theorem on_receiveFailed (h : Holds b items) (hempty : b.uxMessagesWaiting = 0) :
    Outcome.receiveFailed.on b.uxLength items = some items := by
  have hnil := List.length_eq_zero_iff.mp (h.count.symm.trans hempty)
  rw [hnil]
  rfl

/-- A refusal is a report about a queue that stays as it is. -/
theorem Effect.report {who : Option ℕ} {o : Outcome} (htrace : s'.trace = s.trace ++ [(who, o)])
    (hbuffer : s'.queue.toBuffer = s.queue.toBuffer)
    (hon : ∀ items, Holds s.queue.toBuffer items → o.on s.queue.uxLength items = some items) : Effect s s' := by
  refine .did who o htrace (by rw [hbuffer]) (by rw [hbuffer]) ?_
  intro items h
  exact ⟨items, hon items h, hbuffer ▸ h⟩

theorem refused_effect (failed : Outcome)
    (hon : ∀ items, Holds s.queue.toBuffer items → failed.on s.queue.uxLength items = some items) :
    Effect s (s.refused t failed) := by
  unfold refused
  dsimp only
  split_ifs
  · exact .report rfl rfl hon
  · exact .quiet rfl rfl
  · exact .quiet rfl rfl

theorem full_of_refused (h : Holds b items) (hacc : ¬b.Accepts pos) : b.uxMessagesWaiting = b.uxLength := by
  have hle := h.fits
  have hge : ¬b.uxMessagesWaiting < b.uxLength := fun hlt => hacc (.inl hlt)
  omega

theorem retry_effect (hreq : ∀ item pos, (s.task t).request = .send item pos → Sendable s.queue.toBuffer item pos) :
    Effect s (s.retry t) := by
  unfold retry
  cases hr : (s.task t).request with
  | send item pos =>
    dsimp only
    split_ifs with hacc
    · refine .did (some t) (.send item pos) rfl (copyTo_sizes _ item pos).1 (copyTo_sizes _ item pos).2 ?_
      intro items h
      exact on_send h (hreq item pos hr) hacc
    · apply refused_effect
      intro items h
      exact on_sendFailed h (full_of_refused h hacc)
  | receive peek =>
    cases peek with
    | false =>
      dsimp only
      split_ifs with hany
      · refine .did (some t) (.receive s.queue.toBuffer.receive.1) rfl (receive_sizes _).1 (receive_sizes _).2 ?_
        intro items h
        exact on_receive h hany
      · apply refused_effect
        intro items h
        exact on_receiveFailed h (Nat.eq_zero_of_not_pos hany)
    | true =>
      dsimp only
      split_ifs with hany
      · refine .did (some t) (.peek s.queue.toBuffer.peek.1) rfl ?_ ?_ ?_
        · exact congrArg Buffer.uxLength (Buffer.peek_snd _)
        · exact congrArg Buffer.uxItemSize (Buffer.peek_snd _)
        · intro items h
          exact on_peek h hany
      · apply refused_effect
        intro items h
        exact on_receiveFailed h (Nat.eq_zero_of_not_pos hany)

theorem stepTask_effect (hreq : ∀ item pos, (s.task t).request = .send item pos → Sendable s.queue.toBuffer item pos) :
    Effect s (s.stepTask t) := by
  unfold stepTask
  cases hpc : (s.task t).pc with
  | idle => exact .quiet rfl rfl
  | retry => exact retry_effect hreq
  | suspendAll => exact .quiet rfl rfl
  | lock => exact .quiet rfl rfl
  | checkForTimeOut => exact .quiet rfl rfl
  | look => exact .quiet rfl rfl
  | place =>
    dsimp only [vTaskPlaceOnEventList]
    split <;> exact .quiet rfl rfl
  | unlockTx expired => exact .quiet rfl rfl
  | unlockRx expired => exact .quiet rfl rfl
  | resumeAll expired =>
    cases expired with
    | false => exact .quiet rfl rfl
    | true =>
      dsimp only [expire]
      split
      · exact .report rfl rfl fun items _ => rfl
      · exact .quiet rfl rfl
  | lookAgain =>
    dsimp only
    split_ifs with hempty
    · exact .report rfl rfl fun items h => on_receiveFailed h (by simpa [Queue.prvIsQueueEmpty] using hempty)
    · exact .quiet rfl rfl

theorem sendFromISR_effect (hs : Sendable s.queue.toBuffer item pos) : Effect s (s.xQueueGenericSendFromISR item pos) := by
  unfold xQueueGenericSendFromISR
  split_ifs with hacc
  · refine .did none (.send item pos) rfl ?_ ?_ ?_
    · exact (congrArg Buffer.uxLength (noteSent_toBuffer _)).trans (copyTo_sizes _ item pos).1
    · exact (congrArg Buffer.uxItemSize (noteSent_toBuffer _)).trans (copyTo_sizes _ item pos).2
    · intro items h
      simpa [traced] using on_send h hs hacc
  · exact .report rfl rfl fun items h => on_sendFailed h (full_of_refused h hacc)

/-- Giving a semaphore is sending an item of size zero. -/
theorem give_eq_send (hsize : s.queue.uxItemSize = 0) : s.xQueueGiveFromISR = s.xQueueGenericSendFromISR [] .sendToBack := by
  have hcopy : s.queue.toBuffer.prvCopyDataToQueue [] .sendToBack =
      { s.queue.toBuffer with uxMessagesWaiting := s.queue.uxMessagesWaiting + 1 } := by
    rw [Buffer.prvCopyDataToQueue, if_pos hsize]
  unfold xQueueGiveFromISR xQueueGenericSendFromISR
  rw [hcopy]
  by_cases hroom : s.queue.uxMessagesWaiting < s.queue.uxLength
  · rw [if_pos hroom, if_pos (.inl hroom)]
  · rw [if_neg hroom, if_neg (by simpa [Buffer.Accepts] using hroom)]

/-- Every task asks for something that the queue can do. -/
def Requests (s : System) : Prop :=
  ∀ t, (s.task t).pc ≠ .idle → ∀ item pos, (s.task t).request = .send item pos → Sendable s.queue.toBuffer item pos

theorem act_effect (hreq : Requests s) {a : Act} (ha : s.Allowed a) : Effect s (s.act a) := by
  cases a with
  | call t request ticks => exact .quiet rfl rfl
  | step t => exact stepTask_effect (hreq t ha.1)
  | reset t =>
    refine .did (some t) .reset rfl rfl rfl ?_
    intro items h
    exact ⟨[], rfl, .reset h.length_pos h.size⟩
  | sendFromISR item pos =>
    exact sendFromISR_effect ha.1
  | giveFromISR =>
    show Effect s s.xQueueGiveFromISR
    rw [give_eq_send ha.1]
    exact sendFromISR_effect ⟨ha.1.symm, by simp⟩
  | receiveFromISR =>
    show Effect s s.xQueueReceiveFromISR
    unfold xQueueReceiveFromISR
    split_ifs with hany
    · refine .did none (.receive s.queue.toBuffer.receive.1) rfl ?_ ?_ ?_
      · exact (congrArg Buffer.uxLength (noteReceived_toBuffer _)).trans (receive_sizes _).1
      · exact (congrArg Buffer.uxItemSize (noteReceived_toBuffer _)).trans (receive_sizes _).2
      · intro items h
        simpa [traced] using on_receive h hany
    · exact .report rfl rfl fun items h => on_receiveFailed h (Nat.eq_zero_of_not_pos hany)
  | peekFromISR =>
    show Effect s s.xQueuePeekFromISR
    unfold xQueuePeekFromISR
    split_ifs with hany
    · refine .did none (.peek s.queue.toBuffer.peek.1) rfl ?_ ?_ ?_
      · exact congrArg Buffer.uxLength (Buffer.peek_snd _)
      · exact congrArg Buffer.uxItemSize (Buffer.peek_snd _)
      · intro items h
        exact on_peek h hany
    · exact .report rfl rfl fun items h => on_receiveFailed h (Nat.eq_zero_of_not_pos hany)
  | tick comp => exact .quiet rfl rfl
  | timeOut t => exact .quiet rfl rfl

/-! ### Requests -/

theorem Effect.sizes (h : Effect s s') :
    s'.queue.uxLength = s.queue.uxLength ∧ s'.queue.uxItemSize = s.queue.uxItemSize := by
  cases h with
  | quiet buffer trace => exact ⟨congrArg Buffer.uxLength buffer, congrArg Buffer.uxItemSize buffer⟩
  | did who o trace length itemSize holds => exact ⟨length, itemSize⟩

/-- Tasks keep their requests, or end their calls. -/
def SameRequests (s s' : System) : Prop :=
  ∀ t, (s'.task t).pc ≠ .idle → (s.task t).pc ≠ .idle ∧ (s'.task t).request = (s.task t).request

theorem sameRequests_setTask {r : Task} (hpc : (s.task t).pc ≠ .idle) (hr : r.request = (s.task t).request) :
    SameRequests s (s.setTask t r) := by
  intro u hu
  by_cases hut : u = t
  · subst hut
    rw [setTask_self]
    exact ⟨hpc, hr⟩
  · rw [setTask_of_ne hut] at hu ⊢
    exact ⟨hu, rfl⟩

theorem setTimeOutState_request (s : System) (r : Task) : (s.setTimeOutState r).request = r.request := rfl

theorem xTaskCheckForTimeOut_request (s : System) (r : Task) : (s.xTaskCheckForTimeOut r).2.request = r.request := by
  unfold xTaskCheckForTimeOut
  by_cases hmax : r.xTicksToWait = portMaxDelay
  · rw [if_pos hmax]
  rw [if_neg hmax]
  by_cases hround : s.xNumOfOverflows ≠ r.xOverflowCount ∧ s.xTickCount ≥ r.xTimeOnEntering
  · rw [if_pos hround]
  rw [if_neg hround]
  generalize ticksSince s.xTickCount r.xTimeOnEntering = n
  by_cases hleft : n < r.xTicksToWait
  · rw [if_pos hleft]
    exact s.setTimeOutState_request _
  · rw [if_neg hleft]

theorem refused_requests (hpc : (s.task t).pc ≠ .idle) (failed : Outcome) : SameRequests s (s.refused t failed) := by
  unfold refused
  dsimp only
  split_ifs
  · exact sameRequests_setTask hpc rfl
  · exact sameRequests_setTask hpc rfl
  · exact sameRequests_setTask hpc rfl

theorem retry_requests (hpc : (s.task t).pc ≠ .idle) : SameRequests s (s.retry t) := by
  unfold retry
  split
  · split_ifs
    · exact sameRequests_setTask hpc rfl
    · exact refused_requests hpc _
  · split_ifs
    · exact sameRequests_setTask hpc rfl
    · exact refused_requests hpc _
  · split_ifs
    · exact sameRequests_setTask hpc rfl
    · exact refused_requests hpc _

theorem stepTask_requests (hpc : (s.task t).pc ≠ .idle) : SameRequests s (s.stepTask t) := by
  unfold stepTask
  cases hc : (s.task t).pc with
  | idle => exact absurd hc hpc
  | retry => exact retry_requests hpc
  | suspendAll => exact sameRequests_setTask hpc rfl
  | lock => exact sameRequests_setTask hpc rfl
  | checkForTimeOut =>
    have hr := s.xTaskCheckForTimeOut_request (s.task t)
    dsimp only
    generalize s.xTaskCheckForTimeOut (s.task t) = r at hr ⊢
    exact sameRequests_setTask hpc hr
  | look => exact sameRequests_setTask hpc rfl
  | place =>
    dsimp only [vTaskPlaceOnEventList]
    split
    · exact sameRequests_setTask hpc rfl
    · exact sameRequests_setTask hpc rfl
  | unlockTx expired => exact sameRequests_setTask hpc rfl
  | unlockRx expired => exact sameRequests_setTask hpc rfl
  | resumeAll expired =>
    cases expired with
    | false => exact sameRequests_setTask hpc rfl
    | true =>
      dsimp only [expire]
      split
      · exact sameRequests_setTask hpc rfl
      · exact sameRequests_setTask hpc rfl
  | lookAgain =>
    dsimp only
    split_ifs
    · exact sameRequests_setTask hpc rfl
    · exact sameRequests_setTask hpc rfl

/-! ### Runs -/

theorem act_requests (hreq : Requests s) {a : Act} (ha : s.Allowed a) : Requests (s.act a) := by
  obtain ⟨hlen, hsize⟩ := (act_effect hreq ha).sizes
  have hkept (hsame : SameRequests s (s.act a)) : Requests (s.act a) := by
    intro u hu item pos hr
    obtain ⟨hpc, heq⟩ := hsame u hu
    exact (hreq u hpc item pos (heq ▸ hr)).congr hlen hsize
  have hquiet (htask : (s.act a).task = s.task) : Requests (s.act a) := by
    apply hkept
    intro u hu
    rw [htask] at hu ⊢
    exact ⟨hu, rfl⟩
  cases a with
  | call t request ticks =>
    intro u hu item pos hr
    by_cases hut : u = t
    · subst hut
      have hself : ((s.act (.call u request ticks)).task u).request = request := congrArg Task.request (setTask_self _)
      exact (ha.2.2 item pos (hself.symm.trans hr)).congr hlen hsize
    · have hother : (s.act (.call t request ticks)).task u = s.task u := setTask_of_ne hut _
      rw [hother] at hu hr
      exact (hreq u hu item pos hr).congr hlen hsize
  | step t => exact hkept (stepTask_requests ha.1)
  | reset t => exact hquiet rfl
  | sendFromISR item pos =>
    apply hquiet
    show (s.xQueueGenericSendFromISR item pos).task = s.task
    unfold xQueueGenericSendFromISR
    split_ifs <;> rfl
  | giveFromISR =>
    apply hquiet
    show s.xQueueGiveFromISR.task = s.task
    unfold xQueueGiveFromISR
    split_ifs <;> rfl
  | receiveFromISR =>
    apply hquiet
    show s.xQueueReceiveFromISR.task = s.task
    unfold xQueueReceiveFromISR
    split_ifs <;> rfl
  | peekFromISR =>
    apply hquiet
    show s.xQueuePeekFromISR.task = s.task
    unfold xQueuePeekFromISR
    split_ifs <;> rfl
  | tick comp => exact hquiet rfl
  | timeOut t => exact hquiet rfl

/-- The storage holds what an ideal queue would after all that was reported. -/
structure Faithful (cap : ℕ) (s : System) : Prop where
  length : s.queue.uxLength = cap
  requests : Requests s
  items : ∃ items, replay cap [] s.trace = some items ∧ Holds s.queue.toBuffer items

theorem Faithful.act {cap : ℕ} (h : Faithful cap s) {a : Act} (ha : s.Allowed a) : Faithful cap (s.act a) := by
  have heff := act_effect h.requests ha
  refine ⟨heff.sizes.1.trans h.length, act_requests h.requests ha, ?_⟩
  obtain ⟨items, hreplay, hholds⟩ := h.items
  cases heff with
  | quiet buffer trace =>
    rw [trace, buffer]
    exact ⟨items, hreplay, hholds⟩
  | did who o trace length itemSize holds =>
    obtain ⟨items', hon, hholds'⟩ := holds items hholds
    refine ⟨items', ?_, hholds'⟩
    rw [h.length] at hon
    rw [trace, replay_append, hreplay, Option.bind_some, replay, hon]
    rfl

theorem Faithful.acts {cap : ℕ} {as : List Act} (h : Faithful cap s) (hl : s.Legal as) : Faithful cap (s.acts as) := by
  induction as generalizing s with
  | nil => exact h
  | cons a as ih => exact ih (h.act hl.1) hl.2

theorem faithful_start {storage : List UInt8} {uxLength uxItemSize : ℕ} (hpos : 0 < uxLength)
    (hsize : storage.length = uxLength * uxItemSize) (uxPriority : ℕ → ℕ) (xTickCount xNumOfOverflows : ℕ) :
    Faithful uxLength (start storage uxLength uxItemSize uxPriority xTickCount xNumOfOverflows) := by
  refine ⟨rfl, ?_, [], rfl, .reset hpos hsize⟩
  intro u hu
  exact absurd rfl hu

/-- A task sends an item, an interrupt takes it. -/
def sampleActs : List Act := [.call 1 (.send [5] .sendToBack) 0, .step 1, .receiveFromISR]

theorem legal_sampleActs : (start [0] 1 1 (fun _ => 0) 0 0).Legal sampleActs := by
  refine ⟨⟨rfl, rfl, ?_⟩, ⟨by decide, .inr ⟨rfl, ?_⟩⟩, ?_, trivial⟩
  · intro item pos h
    cases h
    decide
  · unfold Waits
    decide
  · show (_ : ℤ) < 127
    decide

end System

end Ln882x.Kernel
