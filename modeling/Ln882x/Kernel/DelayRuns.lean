import Ln882x.Kernel.DelayClock
import Mathlib.Data.Option.Basic

/-! Runs of the kernel: suspending and resuming the scheduler, ticks, pauses, tasks that delay
themselves or wait for an event, events, in any order. What the kernel does with its two
lists is what it would do with a clock that never wraps, so a task becomes ready at the
first tick that reaches its deadline, or by its event. -/

namespace Ln882x.Kernel

open Memory
open Ln882x.Runtime (TickComp SourceClock lnOsTickCompValInc)

namespace Tasks

/-- The same kernel with another record of delayed tasks. -/
def withLists {L L' : Type} (s : Tasks L) (l : L') : Tasks L' := { s with lists := l }

/-- The kernel with the lists is where the kernel with the clock is. -/
structure Sim (c : Tasks Clock) (s : Tasks DelayedLists) : Prop where
  lists : Exact c.lists s.lists
  rest : s = c.withLists s.lists
  comp : c.comp.osTickCompensateVal < 2 ^ 16

/-- The same, while the next wake time is behind. -/
structure WeakSim (c : Tasks Clock) (s : Tasks DelayedLists) : Prop where
  lists : Tracks c.lists s.lists
  rest : s = c.withLists s.lists
  comp : c.comp.osTickCompensateVal < 2 ^ 16

variable {c : Tasks Clock} {s : Tasks DelayedLists} {n t : ℕ}

theorem Sim.weak (h : Sim c s) : WeakSim c s := ⟨h.lists.1, h.rest, h.comp⟩

theorem Sim.cases (h : Sim c s) : ∃ d, s = c.withLists d ∧ Exact c.lists d ∧ c.comp.osTickCompensateVal < 2 ^ 16 :=
  ⟨s.lists, h.rest, h.lists, h.comp⟩

theorem Sim.of {d : DelayedLists} (h : Exact c.lists d) (hcomp : c.comp.osTickCompensateVal < 2 ^ 16) : Sim c (c.withLists d) :=
  ⟨h, rfl, hcomp⟩

theorem Sim.add (h : Sim c s) (hn : n < 2 ^ 32) (b : Bool) :
    Sim (prvAddCurrentTaskToDelayedList clock c n b) (prvAddCurrentTaskToDelayedList delayedLists s n b) := by
  obtain ⟨d, rfl, hd, hcomp⟩ := h.cases
  unfold prvAddCurrentTaskToDelayedList
  by_cases hind : n = portMaxDelay ∧ b = true
  · simp only [if_pos hind]
    exact .of hd hcomp
  · simp only [if_neg hind]
    exact .of (hd.add hn) hcomp

theorem Sim.placeOnEventList (h : Sim c s) (hn : n < 2 ^ 32) :
    Sim (vTaskPlaceOnEventList clock c n) (vTaskPlaceOnEventList delayedLists s n) := by
  obtain ⟨d, rfl, hd, hcomp⟩ := h.cases
  have hs : Sim { c with events := c.pxCurrentTCB :: c.events } ({ c with events := c.pxCurrentTCB :: c.events }.withLists d) :=
    .of hd hcomp
  exact hs.add hn true

theorem Sim.removeFromEventList (h : Sim c s) (t : ℕ) :
    Sim (xTaskRemoveFromEventList clock c t).2 (xTaskRemoveFromEventList delayedLists s t).2 := by
  obtain ⟨d, rfl, hd, hcomp⟩ := h.cases
  unfold xTaskRemoveFromEventList
  by_cases hsus : c.uxSchedulerSuspended = 0
  · have hsus' : (c.withLists d).uxSchedulerSuspended = 0 := hsus
    simp only [if_pos hsus, if_pos hsus']
    exact .of hd.1.remove.reset hcomp
  · have hsus' : (c.withLists d).uxSchedulerSuspended ≠ 0 := hsus
    simp only [if_neg hsus, if_neg hsus']
    exact .of hd.1.reset hcomp

theorem Sim.delayUntil {p : ℕ} (h : Sim c s) (hp : p ≤ c.lists.now ∧ c.lists.now < p + 2 ^ 32) (hn : n < 2 ^ 32) :
    Sim (vTaskDelayUntil clock c p n) (vTaskDelayUntil delayedLists s p n) := by
  unfold vTaskDelayUntil
  rw [h.lists.1.waitUntil hp hn]
  cases hw : clock.waitUntil p n c.lists with
  | none => exact h
  | some k =>
    refine h.add ?_ false
    simp only [clock] at hw
    split_ifs at hw with hlt
    obtain rfl := Option.some.inj hw
    omega

/-! ### Ticks -/

/-- Both steps fail, or both succeed and their results are related. -/
theorem rel_bind {α β α' β' : Type} {r : α → β → Prop} {r' : α' → β' → Prop} {x : Option α} {y : Option β}
    {f : α → Option α'} {g : β → Option β'} (h : Option.Rel r x y) (hf : ∀ a b, r a b → Option.Rel r' (f a) (g b)) :
    Option.Rel r' (x.bind f) (y.bind g) := by
  cases h with
  | none => exact .none
  | some hr => exact hf _ _ hr

theorem Sim.tick (h : Sim c s) :
    Option.Rel (fun x y => x.1 = y.1 ∧ Sim x.2 y.2) (xTaskIncrementTick clock c) (xTaskIncrementTick delayedLists s) := by
  obtain ⟨d, rfl, hd, hcomp⟩ := h.cases
  unfold xTaskIncrementTick
  by_cases hsus : c.uxSchedulerSuspended = 0
  · have hsus' : (c.withLists d).uxSchedulerSuspended = 0 := hsus
    rw [if_pos hsus, if_pos hsus']
    rcases hd.tick hcomp with ⟨hc, hl⟩ | ⟨woken, c', d', hc, hl, hd'⟩
    · have hl' : delayedLists.tick (c.withLists d).comp.osTickCompensateVal (c.withLists d).lists = none := hl
      rw [hc, hl']
      exact .none
    · have hl' : delayedLists.tick (c.withLists d).comp.osTickCompensateVal (c.withLists d).lists = some (woken, d') := hl
      rw [hc, hl']
      exact .some ⟨rfl, .of hd' (Nat.two_pow_pos 16)⟩
  · have hsus' : (c.withLists d).uxSchedulerSuspended ≠ 0 := hsus
    rw [if_neg hsus, if_neg hsus']
    exact .some ⟨rfl, .of hd hcomp⟩

theorem Sim.processTicks (h : Sim c s) (k : ℕ) : Option.Rel Sim (processTicks clock k c) (processTicks delayedLists k s) := by
  induction k generalizing c s with
  | zero => exact .some h
  | succ k ih =>
    refine rel_bind h.tick ?_
    rintro ⟨b, c'⟩ ⟨b', s'⟩ ⟨rfl, h'⟩
    obtain ⟨d, rfl, hd, hcomp⟩ := h'.cases
    exact ih (.of hd hcomp)

theorem WeakSim.movePending (h : WeakSim c s) (ts : List ℕ) : WeakSim (movePending clock ts c) (movePending delayedLists ts s) := by
  induction ts generalizing c s with
  | nil => exact h
  | cons t ts ih =>
    obtain ⟨hl, hrest, hcomp⟩ := h
    generalize s.lists = d at hl hrest
    subst hrest
    exact ih ⟨hl.remove, rfl, hcomp⟩

theorem Sim.catchUp (h : Sim c s) :
    Option.Rel (fun x y => x.1 = y.1 ∧ Sim x.2 y.2) (catchUp clock c) (catchUp delayedLists s) := by
  obtain ⟨d, rfl, hd, hcomp⟩ := h.cases
  have hmove := h.weak.movePending c.xPendingReadyList
  refine rel_bind (r := Sim) ?_ ?_
  · have hpend : (c.withLists d).xPendingReadyList = c.xPendingReadyList := rfl
    rw [hpend]
    by_cases hnil : c.xPendingReadyList = []
    · simp only [hnil, List.isEmpty_nil, if_true, Tasks.movePending]
      exact h.processTicks _
    · simp only [List.isEmpty_iff, hnil, if_false]
      obtain ⟨hl, hrest, hcomp⟩ := hmove
      generalize Tasks.movePending delayedLists c.xPendingReadyList (c.withLists d) = s at hl hrest
      generalize s.lists = e at hl hrest
      subst hrest
      exact Sim.processTicks (.of hl.reset hcomp) _
  · intro a b hab
    obtain ⟨e, rfl, he, hecomp⟩ := hab.cases
    exact .some ⟨rfl, .of he hecomp⟩

theorem Sim.resumeAll (h : Sim c s) :
    Option.Rel (fun x y => x.1 = y.1 ∧ Sim x.2 y.2) (xTaskResumeAll clock c) (xTaskResumeAll delayedLists s) := by
  obtain ⟨d, rfl, hd, hcomp⟩ := h.cases
  have hsus : (c.withLists d).uxSchedulerSuspended = c.uxSchedulerSuspended := rfl
  unfold xTaskResumeAll
  rw [hsus]
  refine rel_bind (r := fun _ _ => True) ?_ fun _ _ _ => ?_
  · unfold configAssert
    split_ifs
    · exact .some trivial
    · exact .none
  · have hsim : Sim { c with uxSchedulerSuspended := c.uxSchedulerSuspended - 1 }
        { c.withLists d with uxSchedulerSuspended := c.uxSchedulerSuspended - 1 } := .of (c := { c with uxSchedulerSuspended := c.uxSchedulerSuspended - 1 }) hd hcomp
    by_cases hzero : c.uxSchedulerSuspended - 1 = 0
    · simp only [if_pos hzero]
      exact hsim.catchUp
    · simp only [if_neg hzero]
      exact .some ⟨rfl, hsim⟩

/-! ### Runs -/

/-- A task that runs is ready; it delays itself for at least one tick, and calls `vTaskDelayUntil`
less than a round of the count after the time it gives. Only a ready task is selected, and
only a task in an event list is woken by an event. -/
def Allows (c : Tasks Clock) : Call → Prop
  | .resumeAll => c.uxSchedulerSuspended ≠ 0
  | .delay n => c.pxCurrentTCB ∈ c.ready ∧ 0 < n ∧ n < 2 ^ 32
  | .delayUntil p n => c.pxCurrentTCB ∈ c.ready ∧ (p ≤ c.lists.now ∧ c.lists.now < p + 2 ^ 32) ∧ n < 2 ^ 32
  | .placeOnEventList n => c.pxCurrentTCB ∈ c.ready ∧ 0 < n ∧ n < 2 ^ 32
  | .removeFromEventList t => t ∈ c.events
  | .switchContext t => t ∈ c.ready
  | _ => True

def Legal : Tasks Clock → List Call → Prop
  | _, [] => True
  | c, k :: ks => c.Allows k ∧ ∀ c', call clock c k = some c' → Legal c' ks

/-- What one step keeps. -/
theorem Sim.call {k : Call} (h : Sim c s) (hk : c.Allows k) : Option.Rel Sim (call clock c k) (call delayedLists s k) := by
  cases k with
  | suspendAll =>
    obtain ⟨d, rfl, hd, hcomp⟩ := h.cases
    exact .some (.of (c := c.vTaskSuspendAll) hd hcomp)
  | resumeAll => exact rel_bind h.resumeAll fun x y hxy => .some hxy.2
  | tick => exact rel_bind h.tick fun x y hxy => .some hxy.2
  | pause clk last curr =>
    obtain ⟨d, rfl, hd, -⟩ := h.cases
    exact .some (.of (c := { c with comp := lnOsTickCompValInc clk c.comp last curr }) hd (Nat.mod_lt _ (by norm_num)))
  | delay n => exact .some (h.add hk.2.2 false)
  | delayUntil p n => exact .some (h.delayUntil hk.2.1 hk.2.2)
  | placeOnEventList n => exact .some (h.placeOnEventList hk.2.2)
  | removeFromEventList t => exact .some (h.removeFromEventList t)
  | switchContext t =>
    obtain ⟨d, rfl, hd, hcomp⟩ := h.cases
    have hsus : (c.withLists d).uxSchedulerSuspended = c.uxSchedulerSuspended := rfl
    refine .some ?_
    unfold vTaskSwitchContext
    rw [hsus]
    by_cases hrun : c.uxSchedulerSuspended ≠ 0
    · rw [if_pos hrun, if_pos hrun]
      exact .of (c := { c with xYieldPending := true }) hd hcomp
    · rw [if_neg hrun, if_neg hrun]
      exact .of (c := { c with xYieldPending := false, pxCurrentTCB := t }) hd hcomp

/-- What every run keeps. -/
theorem Sim.calls {ks : List Call} (h : Sim c s) (hk : c.Legal ks) :
    Option.Rel Sim (calls clock c ks) (calls delayedLists s ks) := by
  induction ks generalizing c s with
  | nil => exact .some h
  | cons k ks ih =>
    have hstep := h.call hk.1
    simp only [Tasks.calls, Option.bind_eq_bind]
    generalize hc : Tasks.call clock c k = x at hstep
    generalize Tasks.call delayedLists s k = y at hstep
    cases hstep with
    | none => exact .none
    | some h' => exact ih h' (hk.2 _ hc)

end Tasks

/-- Before the first task blocks: all tasks are ready. -/
def Tasks.start {L : Type} (lists : L) (tasks : List ℕ) (pxCurrentTCB : ℕ) (uxPriority : ℕ → ℕ) : Tasks L :=
  ⟨lists, TickComp.init, 0, 0, false, pxCurrentTCB, uxPriority, tasks, [], [], []⟩

def DelayedLists.init : DelayedLists := ⟨0, portMaxDelay, 0, [], []⟩

theorem sim_start (tasks : List ℕ) (cur : ℕ) (prio : ℕ → ℕ) :
    Tasks.Sim (.start ⟨0, []⟩ tasks cur prio) (.start .init tasks cur prio) where
  lists := ⟨⟨rfl, by simp [Tasks.start, DelayedLists.init, epoch], List.Pairwise.nil, by simp [Tasks.start], [], [], rfl, rfl, rfl, by simp, by simp⟩, rfl⟩
  rest := rfl
  comp := Nat.two_pow_pos 16

end Ln882x.Kernel
