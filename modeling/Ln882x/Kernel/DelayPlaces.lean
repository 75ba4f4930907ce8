import Ln882x.Kernel.DelayRuns
import Mathlib.Data.List.Nodup

/-! Where the tasks are. No task is lost and none is in two places: after any run each task is
ready, or waits for a deadline that is still to come, or waits for an event only. A kernel
whose ticks are not compensated never stops in an assertion. -/

namespace Ln882x.Kernel

open Memory
open Ln882x.Runtime (TickComp SourceClock lnOsTickCompValInc)

variable {tasks : List ℕ} {c c' : Tasks Clock} {n t : ℕ}

namespace Tasks

/-- The tasks that wait for a deadline or for an event only. -/
def blocked (c : Tasks Clock) : List ℕ := c.lists.waiting.map Due.task ++ c.xSuspendedTaskList

/-- The tasks in an event list, and those that an event has woken while the scheduler is suspended. -/
def onEvents (c : Tasks Clock) : List ℕ := c.events ++ c.xPendingReadyList

/-- Every task is in one place, and every deadline lies ahead. -/
structure Placed (tasks : List ℕ) (c : Tasks Clock) : Prop where
  places : (c.ready ++ c.blocked).Perm tasks
  events : ∀ t ∈ c.onEvents, t ∈ c.blocked
  once : c.onEvents.Nodup
  future : ∀ w ∈ c.lists.waiting, c.lists.now < w.deadline

theorem Placed.nodup (h : Placed tasks c) (hn : tasks.Nodup) : c.ready.Nodup ∧ c.blocked.Nodup ∧ ∀ t ∈ c.ready, t ∉ c.blocked := by
  have := (h.places.nodup_iff).mpr hn
  rw [List.nodup_append] at this
  exact ⟨this.1, this.2.1, fun t ht hb => this.2.2 t ht t hb rfl⟩

/-- A task is taken out of the lists. -/
theorem blocked_remove (hn : c.blocked.Nodup) :
    (clock.remove t c.lists).waiting.map Due.task ++ c.xSuspendedTaskList.erase t = c.blocked.erase t := by
  have hs : c.xSuspendedTaskList.Nodup := (List.nodup_append.mp hn).2.1
  rw [hn.erase_eq_filter, hs.erase_eq_filter, blocked, List.filter_append, List.filter_map]
  simp [clock, Function.comp_def]
  rfl

/-- A blocked task becomes ready. -/
theorem Placed.wake (h : Placed tasks c) (hn : tasks.Nodup) (ht : t ∈ c.onEvents) (hready : c'.ready = c.ready ++ [t])
    (hlists : c'.lists = clock.remove t c.lists) (hsus : c'.xSuspendedTaskList = c.xSuspendedTaskList.erase t)
    (hev : c.onEvents.Perm (t :: c'.onEvents)) : Placed tasks c' := by
  obtain ⟨-, hbn, -⟩ := h.nodup hn
  have hblocked : c'.blocked = c.blocked.erase t := by
    rw [blocked, hlists, hsus, blocked_remove hbn]
  have honce := (hev.nodup_iff).mp h.once
  obtain ⟨hnot, honce'⟩ := List.nodup_cons.mp honce
  refine ⟨?_, fun u hu => ?_, honce', ?_⟩
  · rw [hready, hblocked, List.append_assoc]
    exact ((List.perm_cons_erase (h.events t ht)).symm.append_left c.ready).trans h.places
  · have hut : u ≠ t := by
      rintro rfl
      exact hnot hu
    rw [hblocked]
    exact (List.mem_erase_of_ne hut).mpr (h.events u (hev.mem_iff.mpr (List.mem_cons_of_mem t hu)))
  · rw [hlists]
    exact fun w hw => h.future w (List.mem_of_mem_filter hw)

/-- A ready task blocks. -/
theorem Placed.block (h : Placed tasks c) (hn : tasks.Nodup) (ht : t ∈ c.ready) (hready : c'.ready = c.ready.erase t)
    (hblocked : c'.blocked.Perm (t :: c.blocked)) (hev : c'.onEvents = c.onEvents ∨ c'.onEvents = t :: c.onEvents)
    (hfuture : ∀ w ∈ c'.lists.waiting, c'.lists.now < w.deadline) : Placed tasks c' := by
  obtain ⟨-, -, hapart⟩ := h.nodup hn
  refine ⟨?_, ?_, ?_, hfuture⟩
  · rw [hready]
    refine List.Perm.trans ?_ h.places
    refine (hblocked.append_left _).trans (List.perm_middle.trans ?_)
    exact ((List.perm_cons_erase ht).symm.append_right c.blocked)
  · intro u hu
    rw [hblocked.mem_iff, List.mem_cons]
    rcases hev with hev | hev <;> rw [hev] at hu
    · exact .inr (h.events u hu)
    · exact (List.mem_cons.mp hu).imp_right (h.events u)
  · rcases hev with hev | hev <;> rw [hev]
    · exact h.once
    · exact List.nodup_cons.mpr ⟨fun hmem => hapart t ht (h.events t hmem), h.once⟩

/-- Nothing but the counters and the current task has changed. -/
theorem Placed.congr (h : Placed tasks c) (hready : c'.ready = c.ready) (hlists : c'.lists = c.lists)
    (hsus : c'.xSuspendedTaskList = c.xSuspendedTaskList) (hev : c.onEvents.Perm c'.onEvents) : Placed tasks c' := by
  have hblocked : c'.blocked = c.blocked := by rw [blocked, hlists, hsus, blocked]
  refine ⟨?_, fun t ht => ?_, (hev.nodup_iff).mp h.once, ?_⟩
  · rw [hready, hblocked]
    exact h.places
  · rw [hblocked]
    exact h.events t (hev.mem_iff.mpr ht)
  · rw [hlists]
    exact h.future

/-! ### The steps -/

section Steps
variable (h : Placed tasks c) (hn : tasks.Nodup)
include h hn

theorem Placed.add {E : List ℕ} (hE : E = c.events ∨ E = c.pxCurrentTCB :: c.events) (hcur : c.pxCurrentTCB ∈ c.ready) (hpos : 0 < n)
    (b : Bool) : Placed tasks (prvAddCurrentTaskToDelayedList clock { c with events := E } n b) := by
  have hev : E ++ c.xPendingReadyList = c.onEvents ∨ E ++ c.xPendingReadyList = c.pxCurrentTCB :: c.onEvents := by
    rcases hE with rfl | rfl
    · exact .inl rfl
    · exact .inr rfl
  unfold prvAddCurrentTaskToDelayedList
  by_cases hind : n = portMaxDelay ∧ b = true
  · simp only [if_pos hind]
    refine h.block hn hcur rfl ?_ hev h.future
    show (_ ++ (_ ++ [_])).Perm _
    rw [← List.append_assoc]
    exact List.perm_append_singleton _ _
  · simp only [if_neg hind]
    refine h.block hn hcur rfl ?_ hev fun w hw => ?_
    · exact ((insertBy_perm Due.deadline ⟨c.lists.now + n, c.pxCurrentTCB⟩ c.lists.waiting).map Due.task).append_right _
    · rcases mem_insertBy.mp hw with rfl | hw
      · show c.lists.now < c.lists.now + n
        omega
      · exact h.future w hw

theorem Placed.delayUntil {p : ℕ} (hcur : c.pxCurrentTCB ∈ c.ready) : Placed tasks (vTaskDelayUntil clock c p n) := by
  unfold vTaskDelayUntil
  cases hw : clock.waitUntil p n c.lists with
  | none => exact h
  | some k =>
    refine h.add hn (.inl rfl) hcur ?_ false
    simp only [clock] at hw
    split_ifs at hw with hlt
    obtain rfl := Option.some.inj hw
    omega

theorem Placed.removeFromEventList (ht : t ∈ c.events) : Placed tasks (xTaskRemoveFromEventList clock c t).2 := by
  have hon : t ∈ c.onEvents := List.mem_append_left _ ht
  unfold xTaskRemoveFromEventList
  by_cases hsus : c.uxSchedulerSuspended = 0
  · simp only [if_pos hsus]
    refine h.wake hn hon rfl rfl rfl ?_
    exact ((List.perm_cons_erase ht).append_right c.xPendingReadyList)
  · simp only [if_neg hsus]
    refine h.congr rfl rfl rfl ?_
    show (c.events ++ c.xPendingReadyList).Perm (c.events.erase t ++ (c.xPendingReadyList ++ [t]))
    refine ((List.perm_cons_erase ht).append_right c.xPendingReadyList).trans ?_
    rw [← List.append_assoc]
    exact (List.perm_append_singleton t _).symm

/-- A tick moves the tasks of the deadlines that it reaches. -/
theorem Placed.tick (hpend : c.uxSchedulerSuspended = 0 → c.xPendingReadyList = []) {b : Bool}
    (heq : xTaskIncrementTick clock c = some (b, c')) : Placed tasks c' ∧ c'.uxSchedulerSuspended = c.uxSchedulerSuspended ∧
      c'.xPendingReadyList = c.xPendingReadyList := by
  obtain ⟨hrn, hbn, -⟩ := h.nodup hn
  unfold xTaskIncrementTick at heq
  by_cases hsus : c.uxSchedulerSuspended = 0
  · rw [if_pos hsus] at heq
    simp only [clock] at heq
    by_cases hjump : c.lists.Jumps c.comp.osTickCompensateVal
    · simp [hjump] at heq
    · rw [if_neg hjump] at heq
      generalize c.lists.now + 1 + c.comp.osTickCompensateVal = now at heq
      have hsplit : (c.lists.waiting.filter (fun w => decide (w.deadline ≤ now)) ++
          c.lists.waiting.filter (fun w => decide (now < w.deadline))).Perm c.lists.waiting := by
        have := List.filter_append_perm (fun w : Due => decide (w.deadline ≤ now)) c.lists.waiting
        simpa [← decide_not] using this
      generalize hwoken : (c.lists.waiting.filter (fun w => decide (w.deadline ≤ now))).map Due.task = woken at heq
      have hperm : (woken ++ (c.lists.waiting.filter (fun w => decide (now < w.deadline))).map Due.task).Perm
          (c.lists.waiting.map Due.task) := by
        rw [← hwoken, ← List.map_append]
        exact hsplit.map Due.task
      simp only [Option.bind_eq_bind, Option.bind_some, Option.pure_def, Option.some.injEq, Prod.mk.injEq] at heq
      obtain ⟨-, rfl⟩ := heq
      refine ⟨⟨?_, fun t ht => ?_, ?_, ?_⟩, rfl, rfl⟩
      · refine List.Perm.trans ?_ h.places
        show ((c.ready ++ woken) ++ (_ ++ c.xSuspendedTaskList)).Perm _
        rw [List.append_assoc, ← List.append_assoc woken]
        exact (hperm.append_right _).append_left _
      · have hpnil := hpend hsus
        have hmem : t ∈ c.events.filter (fun t => decide (t ∉ woken)) ++ c.xPendingReadyList := ht
        rw [hpnil, List.append_nil, List.mem_filter] at hmem
        simp only [decide_eq_true_eq] at hmem
        rcases List.mem_append.mp (h.events t (List.mem_append_left _ hmem.1)) with hw | hs
        · have := hperm.symm.mem_iff.mp hw
          exact List.mem_append_left _ ((List.mem_append.mp this).resolve_left hmem.2)
        · exact List.mem_append_right _ hs
      · have hsub : (c.events.filter (fun t => decide (t ∉ woken)) ++ c.xPendingReadyList).Sublist c.onEvents :=
          List.filter_sublist.append_right _
        exact hsub.nodup h.once
      · intro w hw
        exact of_decide_eq_true (List.mem_filter.mp hw).2
  · rw [if_neg hsus] at heq
    simp only [Option.pure_def, Option.some.injEq, Prod.mk.injEq] at heq
    obtain ⟨-, rfl⟩ := heq
    exact ⟨h.congr rfl rfl rfl (.refl _), rfl, rfl⟩

omit h in
theorem Placed.processTicks {k : ℕ} (h : Placed tasks c) (hpend : c.xPendingReadyList = []) (heq : processTicks clock k c = some c') :
    Placed tasks c' ∧ c'.xPendingReadyList = [] := by
  induction k generalizing c with
  | zero =>
    obtain rfl := Option.some.inj heq
    exact ⟨h, hpend⟩
  | succ k ih =>
    obtain ⟨⟨b, c₁⟩, htick, hrest⟩ := Option.bind_eq_some_iff.mp heq
    obtain ⟨h₁, -, hpend₁⟩ := h.tick hn (fun _ => hpend) htick
    have h₂ : Placed tasks { c₁ with xYieldPending := c₁.xYieldPending || b } := h₁.congr rfl rfl rfl (.refl _)
    exact ih h₂ (hpend₁.trans hpend) hrest

omit h in
theorem Placed.movePending {ts : List ℕ} (h : Placed tasks c) (hts : c.xPendingReadyList = ts) :
    Placed tasks (movePending clock ts c) ∧ (movePending clock ts c).xPendingReadyList = [] := by
  induction ts generalizing c with
  | nil => exact ⟨h, hts⟩
  | cons t ts ih =>
    refine ih ?_ rfl
    have hon : c.onEvents = c.events ++ t :: ts := by rw [onEvents, hts]
    refine h.wake hn ?_ rfl rfl rfl ?_
    · simp [hon]
    · rw [hon]
      exact List.perm_middle

theorem Placed.resumeAll {b : Bool} (heq : xTaskResumeAll clock c = some (b, c')) : Placed tasks c' ∧ (c'.uxSchedulerSuspended = 0 → c'.xPendingReadyList = []) := by
  obtain ⟨u, hassert, hrest⟩ := Option.bind_eq_some_iff.mp heq
  have hsus : c.uxSchedulerSuspended ≠ 0 := by
    by_contra hzero
    simp [configAssert, hzero] at hassert
  have h₁ : Placed tasks { c with uxSchedulerSuspended := c.uxSchedulerSuspended - 1 } := h.congr rfl rfl rfl (.refl _)
  by_cases hzero : c.uxSchedulerSuspended - 1 = 0
  · simp only [if_pos hzero] at hrest
    obtain ⟨c₂, hticks, hret⟩ := Option.bind_eq_some_iff.mp hrest
    obtain ⟨-, rfl⟩ := Prod.mk.inj (Option.some.inj hret)
    obtain ⟨hmove, hnil⟩ := h₁.movePending hn rfl
    have hstart : Placed tasks c₂ ∧ c₂.xPendingReadyList = [] := by
      by_cases hemp : c.xPendingReadyList.isEmpty
      · simp only [if_pos hemp] at hticks
        exact hmove.processTicks hn hnil hticks
      · simp only [if_neg hemp] at hticks
        exact Placed.processTicks hn (hmove.congr rfl rfl rfl (.refl _)) hnil hticks
    exact ⟨hstart.1.congr rfl rfl rfl (.refl _), fun _ => hstart.2⟩
  · simp only [if_neg hzero] at hrest
    obtain ⟨-, rfl⟩ := Prod.mk.inj (Option.some.inj hrest)
    exact ⟨h₁, fun hx => absurd hx hzero⟩

/-- What one step keeps. -/
theorem Placed.call {k : Call} (hpend : c.uxSchedulerSuspended = 0 → c.xPendingReadyList = []) (hk : c.Allows k)
    (heq : call clock c k = some c') : Placed tasks c' ∧ (c'.uxSchedulerSuspended = 0 → c'.xPendingReadyList = []) := by
  cases k with
  | suspendAll =>
    obtain rfl := Option.some.inj heq
    exact ⟨h.congr rfl rfl rfl (.refl _), fun hx => absurd hx (Nat.succ_ne_zero _)⟩
  | resumeAll =>
    obtain ⟨⟨b, c₁⟩, hres, hret⟩ := Option.bind_eq_some_iff.mp heq
    obtain rfl := Option.some.inj hret
    exact h.resumeAll hn hres
  | tick =>
    obtain ⟨⟨b, c₁⟩, htick, hret⟩ := Option.bind_eq_some_iff.mp heq
    obtain rfl := Option.some.inj hret
    obtain ⟨h₁, hsus, hpend₁⟩ := h.tick hn hpend htick
    refine ⟨h₁, fun hx => ?_⟩
    rw [hpend₁]
    exact hpend (hsus ▸ hx)
  | pause clk last curr =>
    obtain rfl := Option.some.inj heq
    exact ⟨h.congr rfl rfl rfl (.refl _), hpend⟩
  | delay n =>
    obtain rfl := Option.some.inj heq
    refine ⟨h.add hn (.inl rfl) hk.1 hk.2.1 false, ?_⟩
    unfold prvAddCurrentTaskToDelayedList
    split_ifs <;> exact hpend
  | delayUntil p n =>
    obtain rfl := Option.some.inj heq
    refine ⟨h.delayUntil hn hk.1, ?_⟩
    unfold vTaskDelayUntil
    cases clock.waitUntil p n c.lists with
    | none => exact hpend
    | some k =>
      simp only [prvAddCurrentTaskToDelayedList]
      split_ifs <;> exact hpend
  | placeOnEventList n =>
    obtain rfl := Option.some.inj heq
    refine ⟨h.add hn (.inr rfl) hk.1 hk.2.1 true, ?_⟩
    unfold vTaskPlaceOnEventList prvAddCurrentTaskToDelayedList
    split_ifs <;> exact hpend
  | removeFromEventList t =>
    obtain rfl := Option.some.inj heq
    refine ⟨h.removeFromEventList hn hk, ?_⟩
    unfold xTaskRemoveFromEventList
    by_cases hsus : c.uxSchedulerSuspended = 0
    · simp only [if_pos hsus]
      exact fun _ => hpend hsus
    · simp only [if_neg hsus]
      exact fun hx => absurd hx hsus
  | switchContext t =>
    obtain rfl := Option.some.inj heq
    unfold vTaskSwitchContext
    split_ifs
    · exact ⟨h.congr rfl rfl rfl (.refl _), hpend⟩
    · exact ⟨h.congr rfl rfl rfl (.refl _), hpend⟩

/-- What every run keeps. -/
theorem Placed.calls {ks : List Call} (hpend : c.uxSchedulerSuspended = 0 → c.xPendingReadyList = []) (hk : c.Legal ks)
    (heq : calls clock c ks = some c') : Placed tasks c' ∧ (c'.uxSchedulerSuspended = 0 → c'.xPendingReadyList = []) := by
  induction ks generalizing c with
  | nil =>
    obtain rfl := Option.some.inj heq
    exact ⟨h, hpend⟩
  | cons k ks ih =>
    obtain ⟨c₁, hcall, hrest⟩ := Option.bind_eq_some_iff.mp heq
    obtain ⟨h₁, hpend₁⟩ := h.call hn hpend hk.1 hcall
    exact ih h₁ hpend₁ (hk.2 c₁ hcall) hrest

end Steps

theorem placed_start (tasks : List ℕ) (cur : ℕ) (prio : ℕ → ℕ) : Placed tasks (.start (⟨0, []⟩ : Clock) tasks cur prio) :=
  ⟨by simp [start, blocked], by simp [start, onEvents], by simp [start, onEvents], by simp [start]⟩

/-! ### Stopping -/

/-- No pause has asked for compensation. -/
def Call.Plain : Call → Prop
  | .pause _ _ _ => False
  | _ => True

/-- A tick of one count finds no task that it would jump over. -/
theorem Placed.tick_some (h : Placed tasks c) (hcomp : c.comp.osTickCompensateVal = 0) : ∃ b c', xTaskIncrementTick clock c = some (b, c') ∧
    c'.comp.osTickCompensateVal = 0 := by
  unfold xTaskIncrementTick
  by_cases hsus : c.uxSchedulerSuspended = 0
  · have hno : ¬c.lists.Jumps 0 := by
      rintro ⟨hep, w, hw, heq⟩
      have := h.future w hw
      simp only [epoch] at *
      omega
    simp only [if_pos hsus, clock, hcomp, if_neg hno]
    exact ⟨_, _, rfl, rfl⟩
  · rw [if_neg hsus]
    exact ⟨_, _, rfl, hcomp⟩

theorem comp_add (c : Tasks Clock) (n : ℕ) (b : Bool) : (prvAddCurrentTaskToDelayedList clock c n b).comp = c.comp := by
  unfold prvAddCurrentTaskToDelayedList
  split_ifs <;> rfl

theorem comp_movePending (ts : List ℕ) (c : Tasks Clock) : (movePending clock ts c).comp = c.comp := by
  induction ts generalizing c with
  | nil => rfl
  | cons t ts ih => exact (ih _).trans rfl

section Plain
variable (hn : tasks.Nodup)
include hn

theorem Placed.processTicks_some (k : ℕ) (h : Placed tasks c) (hpend : c.xPendingReadyList = []) (hcomp : c.comp.osTickCompensateVal = 0) :
    ∃ c', Tasks.processTicks clock k c = some c' ∧ c'.comp.osTickCompensateVal = 0 := by
  induction k generalizing c with
  | zero => exact ⟨c, rfl, hcomp⟩
  | succ k ih =>
    obtain ⟨b, c₁, htick, hcomp₁⟩ := h.tick_some hcomp
    obtain ⟨h₁, -, hpend₁⟩ := h.tick hn (fun _ => hpend) htick
    have h₂ : Placed tasks { c₁ with xYieldPending := c₁.xYieldPending || b } := h₁.congr rfl rfl rfl (.refl _)
    obtain ⟨c', hrest, hcomp'⟩ := ih h₂ (hpend₁.trans hpend) hcomp₁
    exact ⟨c', by simpa [Tasks.processTicks, htick] using hrest, hcomp'⟩

theorem Placed.resumeAll_some (h : Placed tasks c) (hsus : c.uxSchedulerSuspended ≠ 0) (hcomp : c.comp.osTickCompensateVal = 0) :
    ∃ b c', xTaskResumeAll clock c = some (b, c') ∧ c'.comp.osTickCompensateVal = 0 := by
  have h₁ : Placed tasks { c with uxSchedulerSuspended := c.uxSchedulerSuspended - 1 } := h.congr rfl rfl rfl (.refl _)
  unfold xTaskResumeAll
  rw [configAssert, if_pos hsus, Option.bind_eq_bind, Option.bind_some]
  by_cases hzero : c.uxSchedulerSuspended - 1 = 0
  · simp only [if_pos hzero]
    obtain ⟨hmove, hnil⟩ := h₁.movePending hn rfl
    have hcm := comp_movePending c.xPendingReadyList { c with uxSchedulerSuspended := c.uxSchedulerSuspended - 1 }
    generalize hm : Tasks.movePending clock c.xPendingReadyList { c with uxSchedulerSuspended := c.uxSchedulerSuspended - 1 } = m at hmove hnil hcm
    have hreset : (if c.xPendingReadyList.isEmpty then m else { m with lists := clock.reset m.lists }) = m := by
      split_ifs <;> rfl
    obtain ⟨c', hticks, hcomp'⟩ := hmove.processTicks_some hn m.uxPendedTicks hnil (hcm ▸ hcomp)
    refine ⟨c'.xYieldPending, { c' with uxPendedTicks := 0 }, ?_, hcomp'⟩
    unfold catchUp
    simp only [hm, hreset, hticks]
    rfl
  · simp only [if_neg hzero]
    exact ⟨_, _, rfl, hcomp⟩

theorem Placed.call_some {k : Call} (h : Placed tasks c) (hk : c.Allows k) (hplain : k.Plain) (hcomp : c.comp.osTickCompensateVal = 0) :
    ∃ c', Tasks.call clock c k = some c' ∧ c'.comp.osTickCompensateVal = 0 := by
  cases k with
  | suspendAll => exact ⟨_, rfl, hcomp⟩
  | resumeAll =>
    obtain ⟨b, c', heq, hcomp'⟩ := h.resumeAll_some hn hk hcomp
    exact ⟨c', by rw [Tasks.call, heq]; rfl, hcomp'⟩
  | tick =>
    obtain ⟨b, c', heq, hcomp'⟩ := h.tick_some hcomp
    exact ⟨c', by rw [Tasks.call, heq]; rfl, hcomp'⟩
  | pause clk last curr => exact absurd hplain id
  | delay n => exact ⟨_, rfl, by rwa [comp_add]⟩
  | delayUntil p n =>
    refine ⟨_, rfl, ?_⟩
    unfold vTaskDelayUntil
    cases clock.waitUntil p n c.lists with
    | none => exact hcomp
    | some k => rwa [comp_add]
  | placeOnEventList n => exact ⟨_, rfl, by rwa [vTaskPlaceOnEventList, comp_add]⟩
  | removeFromEventList t =>
    refine ⟨_, rfl, ?_⟩
    unfold xTaskRemoveFromEventList
    by_cases hsus : c.uxSchedulerSuspended = 0
    · simp only [if_pos hsus]
      exact hcomp
    · simp only [if_neg hsus]
      exact hcomp
  | switchContext t =>
    refine ⟨_, rfl, ?_⟩
    unfold vTaskSwitchContext
    split_ifs <;> exact hcomp

theorem Placed.calls_some {ks : List Call} (h : Placed tasks c) (hpend : c.uxSchedulerSuspended = 0 → c.xPendingReadyList = [])
    (hk : c.Legal ks) (hplain : ∀ k ∈ ks, k.Plain) (hcomp : c.comp.osTickCompensateVal = 0) : ∃ c', Tasks.calls clock c ks = some c' := by
  induction ks generalizing c with
  | nil => exact ⟨c, rfl⟩
  | cons k ks ih =>
    obtain ⟨hkp, hplain⟩ := List.forall_mem_cons.mp hplain
    obtain ⟨c₁, hcall, hcomp₁⟩ := h.call_some hn hk.1 hkp hcomp
    obtain ⟨h₁, hpend₁⟩ := h.call hn hpend hk.1 hcall
    obtain ⟨c', hrest⟩ := ih h₁ hpend₁ (hk.2 c₁ hcall) hplain hcomp₁
    exact ⟨c', by rw [Tasks.calls, hcall]; exact hrest⟩

end Plain

end Tasks

/-! ### The kernel -/

variable {prio : ℕ → ℕ} {cur : ℕ} {ks : List Tasks.Call} {s : Tasks DelayedLists}

theorem tick_clock_eq_none_iff (c : Tasks Clock) : c.xTaskIncrementTick clock = none ↔
    c.uxSchedulerSuspended = 0 ∧ c.lists.Jumps c.comp.osTickCompensateVal := by
  unfold Tasks.xTaskIncrementTick
  by_cases hsus : c.uxSchedulerSuspended = 0
  · by_cases hjump : c.lists.Jumps c.comp.osTickCompensateVal
    · simp [hsus, clock, hjump]
    · simp [hsus, clock, hjump]
  · simp [hsus]

theorem rel_none_iff {α β : Type} {r : α → β → Prop} {x : Option α} {y : Option β} (h : Option.Rel r x y) : x = none ↔ y = none := by
  cases h <;> simp

/-- The kernel with its 32-bit count and two lists does what it would do with a clock that never
wraps: it comes to the same state, or stops in the same step. A tick stops in an assertion
exactly if it goes beyond a wrap while a task waits for a time before it. -/
theorem kernel_run_clock (hk : Tasks.Legal (.start ⟨0, []⟩ tasks cur prio) ks) :
    Option.Rel Tasks.Sim (Tasks.calls clock (.start ⟨0, []⟩ tasks cur prio) ks)
        (Tasks.calls delayedLists (.start .init tasks cur prio) ks) ∧
      ∀ c s, Tasks.calls clock (.start ⟨0, []⟩ tasks cur prio) ks = some c →
        Tasks.calls delayedLists (.start .init tasks cur prio) ks = some s →
        (s.xTaskIncrementTick delayedLists = none ↔ s.uxSchedulerSuspended = 0 ∧ c.lists.Jumps s.comp.osTickCompensateVal) := by
  have hrel := (sim_start tasks cur prio).calls hk
  refine ⟨hrel, fun c s hc hs => ?_⟩
  rw [hc, hs] at hrel
  obtain ⟨hsim⟩ := hrel
  obtain ⟨d, rfl, -, -⟩ := hsim.cases
  rw [← rel_none_iff hsim.tick, tick_clock_eq_none_iff]
  rfl

/-- A kernel whose ticks are never compensated stops in no assertion, however often its count wraps. -/
theorem kernel_run_plain (hn : tasks.Nodup) (hk : Tasks.Legal (.start ⟨0, []⟩ tasks cur prio) ks) (hplain : ∀ k ∈ ks, k.Plain) :
    ∃ s, Tasks.calls delayedLists (.start .init tasks cur prio) ks = some s := by
  have hrel := (sim_start tasks cur prio).calls hk
  obtain ⟨c, hc⟩ := (Tasks.placed_start tasks cur prio).calls_some hn (by simp [Tasks.start]) hk hplain rfl
  rw [hc] at hrel
  generalize Tasks.calls delayedLists (.start .init tasks cur prio) ks = y at hrel
  obtain ⟨-⟩ := hrel
  exact ⟨_, rfl⟩

/-- A task delays itself for three ticks, and another one runs. -/
theorem legal_delay : Tasks.Legal (.start ⟨0, []⟩ [1, 2] 1 fun _ => 3) [.delay 3, .switchContext 2, .tick] := by
  refine ⟨⟨by decide, by decide, by decide⟩, fun c hc => ?_⟩
  obtain rfl := Option.some.inj hc
  have hready : 2 ∈ (Tasks.prvAddCurrentTaskToDelayedList clock (.start ⟨0, []⟩ [1, 2] 1 fun _ => 3) 3 false).ready := by decide
  exact ⟨hready, fun c hc => ⟨trivial, fun _ _ => trivial⟩⟩

theorem kernel_run_clock_delay : Option.Rel Tasks.Sim
      (Tasks.calls clock (.start ⟨0, []⟩ [1, 2] 1 fun _ => 3) [.delay 3, .switchContext 2, .tick])
      (Tasks.calls delayedLists (.start .init [1, 2] 1 fun _ => 3) [.delay 3, .switchContext 2, .tick]) :=
  (kernel_run_clock legal_delay).1

theorem kernel_run_plain_delay : ∃ s, Tasks.calls delayedLists (.start .init [1, 2] 1 fun _ => 3)
    [.delay 3, .switchContext 2, .tick] = some s :=
  kernel_run_plain (by decide) legal_delay (by simp [Tasks.Call.Plain])

end Ln882x.Kernel
