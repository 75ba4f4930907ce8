import Ln882x.Kernel.Heap
import Ln882x.Memory.ByKey
import Ln882x.Runtime.Ticks

/-! Delayed tasks (`tasks.c`). The tick count has 32 bits. A task that blocks is put into a list
in the order of the wake times, into a second list if its wake time lies beyond the wrap of
the count; when the count wraps the lists are switched. A tick makes ready the tasks whose
time has come. While the scheduler is suspended ticks are counted and tasks that an event
wakes are held; both are made good when it is resumed. A tick also adds what
`os_tick_compensate_val` asks for. -/

namespace Ln882x.Kernel

open Memory
open Ln882x.Runtime (TickComp SourceClock lnOsTickCompValInc)

def portMaxDelay : ℕ := 0xFFFFFFFF

/-- `ListItem_t`: the value that a list is ordered by, and the task. -/
structure ListItem where
  xItemValue : ℕ
  pvOwner : ℕ
  deriving DecidableEq

/-- `vListInsert`. -/
def vListInsert (l : List ListItem) (i : ListItem) : List ListItem :=
  if i.xItemValue = portMaxDelay then l ++ [i] else insertBy ListItem.xItemValue i l

/-! ### The two lists -/

structure DelayedLists where
  xTickCount : ℕ
  xNextTaskUnblockTime : ℕ
  xNumOfOverflows : ℕ
  pxDelayedTaskList : List ListItem
  pxOverflowDelayedTaskList : List ListItem

/-- The value of the first item, if any. -/
def headValue : List ListItem → ℕ
  | [] => portMaxDelay
  | i :: _ => i.xItemValue

namespace DelayedLists

def prvResetNextTaskUnblockTime (d : DelayedLists) : DelayedLists :=
  { d with xNextTaskUnblockTime := headValue d.pxDelayedTaskList }

/-- `prvAddCurrentTaskToDelayedList`, for a task that does not block indefinitely. -/
def addTask (task xTicksToWait : ℕ) (d : DelayedLists) : DelayedLists :=
  let xTimeToWake := (d.xTickCount + xTicksToWait) % 2 ^ 32
  if xTimeToWake < d.xTickCount then
    { d with pxOverflowDelayedTaskList := vListInsert d.pxOverflowDelayedTaskList ⟨xTimeToWake, task⟩ }
  else
    { d with
      pxDelayedTaskList := vListInsert d.pxDelayedTaskList ⟨xTimeToWake, task⟩
      xNextTaskUnblockTime := if xTimeToWake < d.xNextTaskUnblockTime then xTimeToWake else d.xNextTaskUnblockTime }

/-- `uxListRemove` of the state item of a task, from the list that it is in. -/
def removeTask (task : ℕ) (d : DelayedLists) : DelayedLists :=
  { d with
    pxDelayedTaskList := d.pxDelayedTaskList.filter fun i => i.pvOwner ≠ task
    pxOverflowDelayedTaskList := d.pxOverflowDelayedTaskList.filter fun i => i.pvOwner ≠ task }

/-- `taskSWITCH_DELAYED_LISTS`. -/
def switchDelayedLists (d : DelayedLists) : Option DelayedLists := do
  configAssert (d.pxDelayedTaskList.isEmpty = true)
  return prvResetNextTaskUnblockTime
    { d with
      pxDelayedTaskList := d.pxOverflowDelayedTaskList
      pxOverflowDelayedTaskList := d.pxDelayedTaskList
      xNumOfOverflows := (d.xNumOfOverflows + 1) % 2 ^ 32 }

/-- The tasks at the head of the list whose time has come, the rest of the list and the next
wake time. -/
def unblockLoop (xConstTickCount : ℕ) : List ListItem → List ℕ × List ListItem × ℕ
  | [] => ([], [], portMaxDelay)
  | i :: l =>
    if xConstTickCount < i.xItemValue then ([], i :: l, i.xItemValue)
    else
      let (woken, l, xNextTaskUnblockTime) := unblockLoop xConstTickCount l
      (i.pvOwner :: woken, l, xNextTaskUnblockTime)

/-- The part of `xTaskIncrementTick` that deals with the tick count and the lists. -/
def incrementTick (comp : ℕ) (d : DelayedLists) : Option (List ℕ × DelayedLists) := do
  let lastTickCount := d.xTickCount
  let xConstTickCount := (d.xTickCount + 1 + comp) % 2 ^ 32
  let d := { d with xTickCount := xConstTickCount }
  let d ← if xConstTickCount < lastTickCount then switchDelayedLists d else some d
  if xConstTickCount ≥ d.xNextTaskUnblockTime then
    let (woken, l, xNextTaskUnblockTime) := unblockLoop xConstTickCount d.pxDelayedTaskList
    return (woken, { d with pxDelayedTaskList := l, xNextTaskUnblockTime := xNextTaskUnblockTime })
  else return ([], d)

/-- The part of `vTaskDelayUntil` that decides if the task has to wait, and how long. -/
def delayUntil (pxPreviousWakeTime xTimeIncrement : ℕ) (d : DelayedLists) : Option ℕ :=
  let xConstTickCount := d.xTickCount
  let xTimeToWake := (pxPreviousWakeTime + xTimeIncrement) % 2 ^ 32
  let xShouldDelay :=
    if xConstTickCount < pxPreviousWakeTime then
      xTimeToWake < pxPreviousWakeTime ∧ xTimeToWake > xConstTickCount
    else xTimeToWake < pxPreviousWakeTime ∨ xTimeToWake > xConstTickCount
  if xShouldDelay then some ((xTimeToWake + 2 ^ 32 - xConstTickCount) % 2 ^ 32) else none

end DelayedLists

/-! ### The kernel -/

/-- What the kernel asks of its record of delayed tasks. -/
structure Timers (L : Type) where
  add : ℕ → ℕ → L → L
  remove : ℕ → L → L
  reset : L → L
  tick : ℕ → L → Option (List ℕ × L)
  waitUntil : ℕ → ℕ → L → Option ℕ

/-- The two lists. -/
def delayedLists : Timers DelayedLists where
  add := DelayedLists.addTask
  remove := DelayedLists.removeTask
  reset := DelayedLists.prvResetNextTaskUnblockTime
  tick := DelayedLists.incrementTick
  waitUntil := fun pxPreviousWakeTime => DelayedLists.delayUntil (pxPreviousWakeTime % 2 ^ 32)

/-- The variables of the kernel. `ready` are the tasks of the ready lists, `events` those that
wait in some event list as well. -/
structure Tasks (L : Type) where
  lists : L
  comp : TickComp
  uxPendedTicks : ℕ
  uxSchedulerSuspended : ℕ
  xYieldPending : Bool
  pxCurrentTCB : ℕ
  uxPriority : ℕ → ℕ
  ready : List ℕ
  xPendingReadyList : List ℕ
  xSuspendedTaskList : List ℕ
  events : List ℕ

namespace Tasks
variable {L : Type} (T : Timers L) (s : Tasks L)

def vTaskSuspendAll : Tasks L := { s with uxSchedulerSuspended := s.uxSchedulerSuspended + 1 }

/-- `prvAddTaskToReadyList`, for tasks one after the other. -/
def addReady (tasks : List ℕ) : Tasks L := { s with ready := s.ready ++ tasks }

/-- If a context switch is required, and the state. -/
def xTaskIncrementTick : Option (Bool × Tasks L) := do
  if s.uxSchedulerSuspended = 0 then
    let (woken, lists) ← T.tick s.comp.osTickCompensateVal s.lists
    let s := { s with
      lists := lists
      comp := { s.comp with osTickCompensateVal := 0 }
      events := s.events.filter fun t => t ∉ woken }
    let s := s.addReady woken
    let xSwitchRequired := woken.any (fun t => decide (s.uxPriority t ≥ s.uxPriority s.pxCurrentTCB)) ||
      decide ((s.ready.filter fun t => s.uxPriority t = s.uxPriority s.pxCurrentTCB).length > 1)
    return (xSwitchRequired || s.xYieldPending, s)
  else return (s.xYieldPending, { s with uxPendedTicks := s.uxPendedTicks + 1 })

def prvAddCurrentTaskToDelayedList (xTicksToWait : ℕ) (xCanBlockIndefinitely : Bool) : Tasks L :=
  let s := { s with ready := s.ready.erase s.pxCurrentTCB }
  if xTicksToWait = portMaxDelay ∧ xCanBlockIndefinitely = true then
    { s with xSuspendedTaskList := s.xSuspendedTaskList ++ [s.pxCurrentTCB] }
  else { s with lists := T.add s.pxCurrentTCB xTicksToWait s.lists }

def vTaskPlaceOnEventList (xTicksToWait : ℕ) : Tasks L :=
  prvAddCurrentTaskToDelayedList T { s with events := s.pxCurrentTCB :: s.events } xTicksToWait true

/-- `xTaskRemoveFromEventList`, for the task at the head of the event list. -/
def xTaskRemoveFromEventList (task : ℕ) : Bool × Tasks L :=
  let s := { s with events := s.events.erase task }
  let s := if s.uxSchedulerSuspended = 0 then
      { s with lists := T.remove task s.lists, xSuspendedTaskList := s.xSuspendedTaskList.erase task }.addReady [task]
    else { s with xPendingReadyList := s.xPendingReadyList ++ [task] }
  let xReturn := decide (s.uxPriority task > s.uxPriority s.pxCurrentTCB)
  (xReturn, { s with xYieldPending := s.xYieldPending || xReturn, lists := T.reset s.lists })

/-- The loop of `xTaskResumeAll` over `xPendingReadyList`. -/
def movePending : List ℕ → Tasks L → Tasks L
  | [], s => s
  | task :: rest, s =>
    let s := { s with
      xPendingReadyList := rest
      lists := T.remove task s.lists
      xSuspendedTaskList := s.xSuspendedTaskList.erase task }.addReady [task]
    movePending rest { s with
      xYieldPending := s.xYieldPending || decide (s.uxPriority task ≥ s.uxPriority s.pxCurrentTCB) }

/-- The loop of `xTaskResumeAll` over the ticks that were pended. -/
def processTicks : ℕ → Tasks L → Option (Tasks L)
  | 0, s => some s
  | uxPendedCounts + 1, s => do
    let (xSwitchRequired, s) ← xTaskIncrementTick T s
    processTicks uxPendedCounts { s with xYieldPending := s.xYieldPending || xSwitchRequired }

/-- What was held back while the scheduler was suspended. -/
def catchUp : Option (Bool × Tasks L) := do
  let moved := movePending T s.xPendingReadyList s
  let s := if s.xPendingReadyList.isEmpty then moved else { moved with lists := T.reset moved.lists }
  let s ← processTicks T s.uxPendedTicks s
  return (s.xYieldPending, { s with uxPendedTicks := 0 })

/-- If the task has yielded, and the state. -/
def xTaskResumeAll : Option (Bool × Tasks L) := do
  configAssert (s.uxSchedulerSuspended ≠ 0)
  let s := { s with uxSchedulerSuspended := s.uxSchedulerSuspended - 1 }
  if s.uxSchedulerSuspended = 0 then catchUp T s else return (false, s)

/-- The part of `vTaskDelayUntil` between suspending and resuming the scheduler. -/
def vTaskDelayUntil (pxPreviousWakeTime xTimeIncrement : ℕ) : Tasks L :=
  match T.waitUntil pxPreviousWakeTime xTimeIncrement s.lists with
  | some xTicksToWait => prvAddCurrentTaskToDelayedList T s xTicksToWait false
  | none => s

/-- `vTaskSwitchContext`, that selects a ready task. -/
def vTaskSwitchContext (task : ℕ) : Tasks L :=
  if s.uxSchedulerSuspended ≠ 0 then { s with xYieldPending := true }
  else { s with xYieldPending := false, pxCurrentTCB := task }

/-- A step of the kernel. `vTaskDelay` is `suspendAll`, `delay`, `resumeAll`, and interrupts may
come in between. -/
inductive Call where
  | suspendAll
  | resumeAll
  | tick
  | pause (clock : SourceClock) (last curr : ℕ)
  | delay (xTicksToDelay : ℕ)
  | delayUntil (pxPreviousWakeTime xTimeIncrement : ℕ)
  | placeOnEventList (xTicksToWait : ℕ)
  | removeFromEventList (task : ℕ)
  | switchContext (task : ℕ)

def call : Call → Option (Tasks L)
  | .suspendAll => some s.vTaskSuspendAll
  | .resumeAll => do
    let (_, s) ← xTaskResumeAll T s
    return s
  | .tick => do
    let (_, s) ← xTaskIncrementTick T s
    return s
  | .pause clock last curr => some { s with comp := lnOsTickCompValInc clock s.comp last curr }
  | .delay n => some (prvAddCurrentTaskToDelayedList T s n false)
  | .delayUntil p n => some (vTaskDelayUntil T s p n)
  | .placeOnEventList n => some (vTaskPlaceOnEventList T s n)
  | .removeFromEventList t => some (xTaskRemoveFromEventList T s t).2
  | .switchContext t => some (s.vTaskSwitchContext t)

def calls : Tasks L → List Call → Option (Tasks L)
  | s, [] => some s
  | s, c :: cs => do
    let s ← call T s c
    calls s cs

end Tasks

end Ln882x.Kernel
