import Ln882x.Kernel.QueueRuns

/-! The time that a call waits. The tick count goes around, and a call that is woken in vain starts
its time-out anew with what is left of it; still it does not give up before all its ticks have
passed, and with `portMaxDelay` it never does. -/

namespace Ln882x.Kernel

/-- The call has found that its time has expired. -/
def Pc.expired : Pc → Bool
  | .unlockTx true | .unlockRx true | .resumeAll true | .lookAgain => true
  | _ => false

/-- The call is about to look at its time-out, which must be set by now. -/
def Pc.timed : Pc → Bool
  | .suspendAll | .lock | .checkForTimeOut => true
  | _ => false

/-- A call reports that it failed. -/
def Outcome.failed : Outcome → Bool
  | .sendFailed _ | .receiveFailed => true
  | _ => false

namespace System
variable {s s' : System} {t u n start now : ℕ}

def Act.ticks : Act → ℕ
  | .tick comp => 1 + comp
  | _ => 0

/-- A call that asked for `n` ticks at time `start`, on a clock that does not go around. -/
structure Patient (s : System) (t n start now : ℕ) : Prop where
  clock : s.xTickCount = now % 2 ^ 32
  left : n = 0 ∨ 0 < (s.task t).xTicksToWait
  forever : n = portMaxDelay → (s.task t).xTicksToWait = portMaxDelay
  fresh : (s.task t).xEntryTimeSet = false → (s.task t).xTicksToWait = n
  -- the clock at the last `vTaskSetTimeOutState`; a change of the overflow count means that it went around since
  entered : (s.task t).xEntryTimeSet = true → ∃ since, start ≤ since ∧ since ≤ now ∧
    (s.task t).xTimeOnEntering = since % 2 ^ 32 ∧
    (s.xNumOfOverflows ≠ (s.task t).xOverflowCount → since / 2 ^ 32 < now / 2 ^ 32) ∧
    n ≤ (s.task t).xTicksToWait + (since - start)
  timed : (s.task t).pc.timed = true → (s.task t).xEntryTimeSet = true
  expired : (s.task t).pc.expired = true → n ≠ portMaxDelay ∧ n ≤ now - start

theorem ticksSince_mod {since : ℕ} (h : since ≤ now) :
    ticksSince (now % 2 ^ 32) (since % 2 ^ 32) = (now - since) % 2 ^ 32 := by
  unfold ticksSince
  omega

/-- A task moves on in its call, and its variables stay. -/
theorem Patient.goto (h : Patient s t n start now) (pc : Pc) (hclock : s'.xTickCount = s.xTickCount)
    (hover : s'.xNumOfOverflows = s.xNumOfOverflows) (htask : s'.task t = { s.task t with pc := pc })
    (htimed : pc.timed = true → (s.task t).pc.timed = true) (hexpired : pc.expired = true → (s.task t).pc.expired = true) :
    Patient s' t n start now := by
  refine ⟨hclock.trans h.clock, ?_, ?_, ?_, ?_, ?_, ?_⟩
  · rw [htask]
    exact h.left
  · rw [htask]
    exact h.forever
  · rw [htask]
    exact h.fresh
  · rw [htask, hover]
    exact h.entered
  · rw [htask]
    exact fun hp => h.timed (htimed hp)
  · rw [htask]
    exact fun hp => h.expired (hexpired hp)

/-- A task sets its variables, with its time-out among them. -/
theorem Patient.set (h : Patient s t n start now) {r : Task} (hset : r.xEntryTimeSet = true)
    (hleft : n = 0 ∨ 0 < r.xTicksToWait) (hforever : n = portMaxDelay → r.xTicksToWait = portMaxDelay)
    (hentered : ∃ since, start ≤ since ∧ since ≤ now ∧ r.xTimeOnEntering = since % 2 ^ 32 ∧
      (s.xNumOfOverflows ≠ r.xOverflowCount → since / 2 ^ 32 < now / 2 ^ 32) ∧ n ≤ r.xTicksToWait + (since - start))
    (hexpired : r.pc.expired = true → n ≠ portMaxDelay ∧ n ≤ now - start) : Patient (s.setTask t r) t n start now := by
  have hself : (s.setTask t r).task t = r := setTask_self r
  refine ⟨h.clock, ?_, ?_, ?_, ?_, ?_, ?_⟩
  · rw [hself]
    exact hleft
  · rw [hself]
    exact hforever
  · rw [hself, hset]
    exact fun hf => absurd hf.symm Bool.false_ne_true
  · rw [hself]
    exact fun _ => hentered
  · rw [hself]
    exact fun _ => hset
  · rw [hself]
    exact hexpired

/-- The call cannot go on now, and has its time-out set. -/
theorem Patient.refused (h : Patient s t n start now) (hle : start ≤ now) (failed : Outcome) :
    Patient (s.refused t failed) t n start now := by
  unfold System.refused
  dsimp only
  by_cases hzero : (s.task t).xTicksToWait = 0
  · rw [if_pos hzero]
    exact h.goto .idle rfl rfl (finish_self _) (fun hp => absurd hp Bool.false_ne_true) (fun hp => absurd hp Bool.false_ne_true)
  rw [if_neg hzero]
  cases hset : (s.task t).xEntryTimeSet with
  | true =>
    rw [if_pos rfl]
    exact h.set rfl h.left h.forever (h.entered hset) (fun hp => absurd hp Bool.false_ne_true)
  | false =>
    rw [if_neg Bool.false_ne_true]
    refine h.set rfl h.left h.forever ⟨now, hle, Nat.le_refl _, h.clock, fun hne => absurd rfl hne, ?_⟩
      (fun hp => absurd hp Bool.false_ne_true)
    exact (h.fresh hset).symm.le.trans (Nat.le_add_right _ _)

/-- Time has expired only if all of it has passed; else the time-out starts anew with the rest. -/
theorem Patient.checkForTimeOut (h : Patient s t n start now) (hn : n < 2 ^ 32) (hset : (s.task t).xEntryTimeSet = true) :
    Patient (s.setTask t { (s.xTaskCheckForTimeOut (s.task t)).2 with
      pc := if (s.xTaskCheckForTimeOut (s.task t)).1 then .unlockTx true else .look }) t n start now := by
  obtain ⟨since, hstart, hnow, htime, hround, hle⟩ := h.entered hset
  have hforever := h.forever
  have hleft := h.left
  have hclock := h.clock
  generalize s.task t = r at *
  have hkeep (pc : Pc) (hexp : pc.expired = true → n ≠ portMaxDelay ∧ n ≤ now - start) :
      Patient (s.setTask t { r with pc := pc }) t n start now :=
    h.set hset hleft hforever ⟨since, hstart, hnow, htime, hround, hle⟩ hexp
  unfold xTaskCheckForTimeOut
  by_cases hmax : r.xTicksToWait = portMaxDelay
  · rw [if_pos hmax]
    exact hkeep .look fun hp => absurd hp Bool.false_ne_true
  rw [if_neg hmax]
  have hnmax : n ≠ portMaxDelay := fun heq => hmax (hforever heq)
  by_cases hover : s.xNumOfOverflows ≠ r.xOverflowCount ∧ s.xTickCount ≥ r.xTimeOnEntering
  · have hpast : n ≤ now - start := by
      -- the count went around and has passed the same value again
      have hlater := hround hover.1
      omega
    rw [if_pos hover]
    exact hkeep (.unlockTx true) fun _ => ⟨hnmax, hpast⟩
  rw [if_neg hover, hclock, htime, ticksSince_mod hnow]
  by_cases hrest : (now - since) % 2 ^ 32 < r.xTicksToWait
  · rw [if_pos hrest]
    refine h.set hset (.inr (Nat.sub_pos_of_lt hrest)) (fun heq => absurd heq hnmax)
      ⟨now, hstart.trans hnow, Nat.le_refl _, hclock, fun hne => absurd rfl hne, ?_⟩
      (fun hp => absurd hp Bool.false_ne_true)
    show n ≤ r.xTicksToWait - (now - since) % 2 ^ 32 + (now - start)
    omega
  · have hpast : n ≤ now - start := by omega
    rw [if_neg hrest]
    exact hkeep (.unlockTx true) fun _ => ⟨hnmax, hpast⟩

theorem Patient.retry (h : Patient s t n start now) (hle : start ≤ now) : Patient (s.retry t) t n start now := by
  have hends {q : Queue} {o : Outcome} : Patient ({ s with queue := q }.finish t o) t n start now :=
    h.goto .idle rfl rfl (finish_self _) (fun hp => absurd hp Bool.false_ne_true) (fun hp => absurd hp Bool.false_ne_true)
  unfold System.retry
  split
  · split_ifs
    · exact hends
    · exact h.refused hle _
  · split_ifs
    · exact hends
    · exact h.refused hle _
  · split_ifs
    · exact hends
    · exact h.refused hle _

theorem Patient.stepTask (h : Patient s t n start now) (hle : start ≤ now) (hn : n < 2 ^ 32) :
    Patient (s.stepTask t) t n start now := by
  have htimed := h.timed
  unfold System.stepTask
  cases hpc : (s.task t).pc with
  | idle => exact h
  | retry => exact h.retry hle
  | suspendAll => exact h.goto .lock rfl rfl (goto_self _) (by simp [hpc, Pc.timed]) (by simp [Pc.expired])
  | lock => exact h.goto .checkForTimeOut rfl rfl (goto_self _) (by simp [hpc, Pc.timed]) (by simp [Pc.expired])
  | checkForTimeOut => exact h.checkForTimeOut hn (h.timed (by rw [hpc]; rfl))
  | look =>
    dsimp only
    split_ifs
    · exact h.goto .place rfl rfl (goto_self _) (by simp [Pc.timed]) (by simp [Pc.expired])
    · exact h.goto (.unlockTx false) rfl rfl (goto_self _) (by simp [Pc.timed]) (by simp [Pc.expired])
  | place =>
    dsimp only [vTaskPlaceOnEventList]
    split
    · exact h.goto (.unlockTx false) rfl rfl (goto_self _) (by simp [Pc.timed]) (by simp [Pc.expired])
    · exact h.goto (.unlockTx false) rfl rfl (goto_self _) (by simp [Pc.timed]) (by simp [Pc.expired])
  | unlockTx expired =>
    refine h.goto (.unlockRx expired) rfl rfl (goto_self _) (by simp [Pc.timed]) ?_
    cases expired <;> simp [hpc, Pc.expired]
  | unlockRx expired =>
    refine h.goto (.resumeAll expired) rfl rfl (goto_self _) (by simp [Pc.timed]) ?_
    cases expired <;> simp [hpc, Pc.expired]
  | resumeAll expired =>
    cases expired with
    | false => exact h.goto .retry rfl rfl (goto_self _) (by simp [Pc.timed]) (by simp [Pc.expired])
    | true =>
      dsimp only [expire]
      split
      · exact h.goto .idle rfl rfl (finish_self _) (by simp [Pc.timed]) (by simp [Pc.expired])
      · exact h.goto .lookAgain rfl rfl (goto_self _) (by simp [Pc.timed]) (by simp [hpc, Pc.expired])
  | lookAgain =>
    dsimp only
    split_ifs
    · exact h.goto .idle rfl rfl (finish_self _) (by simp [Pc.timed]) (by simp [Pc.expired])
    · exact h.goto .retry rfl rfl (goto_self _) (by simp [Pc.timed]) (by simp [Pc.expired])

/-! ### What others do -/

theorem Patient.frame (h : Patient s t n start now) (hclock : s'.xTickCount = s.xTickCount)
    (hover : s'.xNumOfOverflows = s.xNumOfOverflows) (htask : s'.task t = s.task t) : Patient s' t n start now :=
  h.goto (s.task t).pc hclock hover htask id id

theorem Patient.tick (h : Patient s t n start now) (comp : ℕ) :
    Patient (s.tick comp) t n start (now + (1 + comp)) := by
  have hmod : (s.xTickCount + 1 + comp) % 2 ^ 32 = (now + (1 + comp)) % 2 ^ 32 := by
    rw [h.clock]
    omega
  refine ⟨hmod, h.left, h.forever, h.fresh, ?_, h.timed, ?_⟩
  · intro hset
    obtain ⟨since, hstart, hnow, htime, hround, hle⟩ := h.entered hset
    refine ⟨since, hstart, by omega, htime, ?_, hle⟩
    show (if (s.xTickCount + 1 + comp) % 2 ^ 32 < s.xTickCount then (s.xNumOfOverflows + 1) % 2 ^ 32 else s.xNumOfOverflows) ≠
      (s.task t).xOverflowCount → _
    rw [hmod, h.clock]
    by_cases hwrap : (now + (1 + comp)) % 2 ^ 32 < now % 2 ^ 32
    · intro _
      omega
    · rw [if_neg hwrap]
      intro hne
      have := hround hne
      omega
  · intro hp
    obtain ⟨hmax, hpast⟩ := h.expired hp
    exact ⟨hmax, by omega⟩

theorem refused_clock (failed : Outcome) : (s.refused t failed).xTickCount = s.xTickCount ∧
    (s.refused t failed).xNumOfOverflows = s.xNumOfOverflows := by
  unfold refused
  dsimp only
  split_ifs <;> exact ⟨rfl, rfl⟩

/-- A task changes its own variables only, and no clock. -/
theorem stepTask_others (s : System) (t : ℕ) : (s.stepTask t).xTickCount = s.xTickCount ∧
    (s.stepTask t).xNumOfOverflows = s.xNumOfOverflows ∧ ∀ u ≠ t, (s.stepTask t).task u = s.task u := by
  have hrefused (failed : Outcome) : (s.refused t failed).xTickCount = s.xTickCount ∧
      (s.refused t failed).xNumOfOverflows = s.xNumOfOverflows ∧ ∀ u ≠ t, (s.refused t failed).task u = s.task u :=
    ⟨(refused_clock failed).1, (refused_clock failed).2, fun u hut => refused_of_ne hut failed⟩
  unfold stepTask
  cases (s.task t).pc with
  | idle => exact ⟨rfl, rfl, fun u hut => rfl⟩
  | retry =>
    dsimp only
    unfold System.retry
    split
    · split_ifs
      · exact ⟨rfl, rfl, fun u hut => finish_of_ne hut _⟩
      · exact hrefused _
    · split_ifs
      · exact ⟨rfl, rfl, fun u hut => finish_of_ne hut _⟩
      · exact hrefused _
    · split_ifs
      · exact ⟨rfl, rfl, fun u hut => finish_of_ne hut _⟩
      · exact hrefused _
  | suspendAll => exact ⟨rfl, rfl, fun u hut => goto_of_ne hut _⟩
  | lock => exact ⟨rfl, rfl, fun u hut => goto_of_ne hut _⟩
  | checkForTimeOut => exact ⟨rfl, rfl, fun u hut => setTask_of_ne hut _⟩
  | look => exact ⟨rfl, rfl, fun u hut => goto_of_ne hut _⟩
  | place =>
    dsimp only [vTaskPlaceOnEventList]
    split
    · exact ⟨rfl, rfl, fun u hut => goto_of_ne hut _⟩
    · exact ⟨rfl, rfl, fun u hut => goto_of_ne hut _⟩
  | unlockTx expired => exact ⟨rfl, rfl, fun u hut => goto_of_ne hut _⟩
  | unlockRx expired => exact ⟨rfl, rfl, fun u hut => goto_of_ne hut _⟩
  | resumeAll expired =>
    cases expired with
    | false => exact ⟨rfl, rfl, fun u hut => goto_of_ne hut _⟩
    | true =>
      dsimp only [expire]
      split
      · exact ⟨rfl, rfl, fun u hut => finish_of_ne hut _⟩
      · exact ⟨rfl, rfl, fun u hut => goto_of_ne hut _⟩
  | lookAgain =>
    dsimp only
    split_ifs
    · exact ⟨rfl, rfl, fun u hut => finish_of_ne hut _⟩
    · exact ⟨rfl, rfl, fun u hut => goto_of_ne hut _⟩

/-! ### Runs -/

theorem Patient.act (h : Patient s t n start now) (hle : start ≤ now) (hn : n < 2 ^ 32) {a : Act}
    (hcall : ∀ request m, a ≠ .call t request m) : Patient (s.act a) t n start (now + a.ticks) := by
  cases a with
  | call u request m =>
    have hut : t ≠ u := by
      rintro rfl
      exact hcall request m rfl
    exact h.frame rfl rfl (setTask_of_ne hut _)
  | step u =>
    by_cases hut : t = u
    · subst hut
      exact h.stepTask hle hn
    · obtain ⟨hclock, hover, htask⟩ := s.stepTask_others u
      exact h.frame hclock hover (htask t hut)
  | reset u => exact h.frame rfl rfl rfl
  | sendFromISR item pos =>
    show Patient (s.xQueueGenericSendFromISR item pos) t n start now
    unfold xQueueGenericSendFromISR
    split_ifs
    · exact h.frame rfl rfl rfl
    · exact h.frame rfl rfl rfl
  | giveFromISR =>
    show Patient s.xQueueGiveFromISR t n start now
    unfold xQueueGiveFromISR
    split_ifs
    · exact h.frame rfl rfl rfl
    · exact h.frame rfl rfl rfl
  | receiveFromISR =>
    show Patient s.xQueueReceiveFromISR t n start now
    unfold xQueueReceiveFromISR
    split_ifs
    · exact h.frame rfl rfl rfl
    · exact h.frame rfl rfl rfl
  | peekFromISR =>
    show Patient s.xQueuePeekFromISR t n start now
    unfold xQueuePeekFromISR
    split_ifs
    · exact h.frame rfl rfl rfl
    · exact h.frame rfl rfl rfl
  | tick comp => exact h.tick comp
  | timeOut u => exact h.frame rfl rfl rfl

theorem Patient.acts {as : List Act} (h : Patient s t n start now) (hle : start ≤ now) (hn : n < 2 ^ 32)
    (hcalls : ∀ request m, .call t request m ∉ as) : Patient (s.acts as) t n start (now + (as.map Act.ticks).sum) := by
  induction as generalizing s now with
  | nil => exact h
  | cons a as ih =>
    have hact : Patient (s.act a) t n start (now + a.ticks) := h.act hle hn fun request m ha => hcalls request m (by simp [ha])
    have := ih hact (hle.trans (Nat.le_add_right _ _)) fun request m hmem => hcalls request m (by simp [hmem])
    rwa [Nat.add_assoc] at this

theorem patient_call (s : System) (hclock : s.xTickCount < 2 ^ 32) (t : ℕ) (request : Request) (n : ℕ) :
    Patient (s.act (.call t request n)) t n s.xTickCount s.xTickCount := by
  have hself : (s.act (.call t request n)).task t = ⟨.retry, request, n, 0, 0, false⟩ := setTask_self _
  refine ⟨(Nat.mod_eq_of_lt hclock).symm, ?_, ?_, ?_, ?_, ?_, ?_⟩
  · rw [hself]
    exact Nat.eq_zero_or_pos n
  · rw [hself]
    exact id
  · rw [hself]
    exact fun _ => rfl
  · rw [hself]
    exact fun hf => absurd hf Bool.false_ne_true
  · rw [hself]
    exact fun hf => absurd hf Bool.false_ne_true
  · rw [hself]
    exact fun hf => absurd hf Bool.false_ne_true

/-! ### Calls that fail -/

theorem not_failed_of_append {o o' : Outcome} {who who' : Option ℕ} {trace : List (Option ℕ × Outcome)}
    (h : trace ++ [(who, o)] = trace ++ [(who', o')]) (ho : o.failed = false) : o'.failed = false := by
  have heq := List.append_cancel_left h
  simp only [List.cons.injEq, Prod.mk.injEq, and_true] at heq
  rw [← heq.2]
  exact ho

theorem ticks_of_refused {o : Outcome} {who : Option ℕ} {failed : Outcome}
    (h : (s.refused t failed).trace = s.trace ++ [(who, o)]) : (s.task t).xTicksToWait = 0 := by
  by_contra hne
  unfold refused at h
  rw [if_neg hne] at h
  exact absurd (congrArg List.length h) (by simp [setTask])

theorem ticks_of_retry {o : Outcome} {who : Option ℕ} (h : (s.retry t).trace = s.trace ++ [(who, o)])
    (ho : o.failed = true) : (s.task t).xTicksToWait = 0 := by
  have hnot {q : Queue} {o' : Outcome} (ho' : o'.failed = false)
      (h' : ({ s with queue := q }.finish t o').trace = s.trace ++ [(who, o)]) : (s.task t).xTicksToWait = 0 := by
    have := not_failed_of_append h' ho'
    simp [ho] at this
  unfold System.retry at h
  split at h
  · split_ifs at h
    · exact hnot rfl h
    · exact ticks_of_refused h
  · split_ifs at h
    · exact hnot rfl h
    · exact ticks_of_refused h
  · split_ifs at h
    · exact hnot rfl h
    · exact ticks_of_refused h

/-- A task that reports a failure was not to wait, or has found that its time has expired. -/
theorem pc_of_fails {o : Outcome} {who : Option ℕ} (h : (s.stepTask t).trace = s.trace ++ [(who, o)]) (ho : o.failed = true) :
    (s.task t).xTicksToWait = 0 ∨ (s.task t).pc.expired = true := by
  have hquiet (h' : s.trace = s.trace ++ [(who, o)]) : (s.task t).xTicksToWait = 0 ∨ (s.task t).pc.expired = true :=
    absurd (congrArg List.length h') (by simp)
  unfold System.stepTask at h
  cases hpc : (s.task t).pc with
  | idle =>
    rw [hpc] at h
    exact hpc ▸ hquiet h
  | retry =>
    rw [hpc] at h
    exact .inl (ticks_of_retry h ho)
  | suspendAll =>
    rw [hpc] at h
    exact hpc ▸ hquiet h
  | lock =>
    rw [hpc] at h
    exact hpc ▸ hquiet h
  | checkForTimeOut =>
    rw [hpc] at h
    exact hpc ▸ hquiet h
  | look =>
    rw [hpc] at h
    exact hpc ▸ hquiet h
  | place =>
    rw [hpc] at h
    dsimp only [vTaskPlaceOnEventList] at h
    split at h <;> exact hpc ▸ hquiet h
  | unlockTx expired =>
    rw [hpc] at h
    exact hpc ▸ hquiet h
  | unlockRx expired =>
    rw [hpc] at h
    exact hpc ▸ hquiet h
  | resumeAll expired =>
    cases expired with
    | false =>
      rw [hpc] at h
      exact hpc ▸ hquiet h
    | true => exact .inr rfl
  | lookAgain => exact .inr rfl

/-- A call fails only after all the ticks that it may wait, however often it is woken in vain and
however often the tick count goes around; and with `portMaxDelay` it does not fail. -/
theorem queue_run_patient (s : System) (hclock : s.xTickCount < 2 ^ 32) (t : ℕ) (request : Request) (n : ℕ) (hn : n < 2 ^ 32)
    (as : List Act) (hcalls : ∀ request m, .call t request m ∉ as) (o : Outcome) (ho : o.failed = true)
    (hfail : ((s.acts (.call t request n :: as)).stepTask t).trace =
      (s.acts (.call t request n :: as)).trace ++ [(some t, o)]) :
    n ≠ portMaxDelay ∧ n ≤ (as.map Act.ticks).sum := by
  have hrun : Patient (s.acts (.call t request n :: as)) t n s.xTickCount (s.xTickCount + (as.map Act.ticks).sum) :=
    (patient_call s hclock t request n).acts (Nat.le_refl _) hn hcalls
  rcases pc_of_fails hfail ho with hzero | hexp
  · have hn0 : n = 0 := hrun.left.resolve_right (by omega)
    subst hn0
    exact ⟨by decide, Nat.zero_le _⟩
  · have := hrun.expired hexp
    rwa [Nat.add_sub_cancel_left] at this

/-- A receiver waits two ticks at an empty queue. -/
theorem queue_run_patient_empty : 2 ≠ portMaxDelay ∧
    2 ≤ ([.step 1, .tick 1, .step 1, .step 1, .step 1, .step 1, .step 1, .step 1].map Act.ticks).sum :=
  queue_run_patient (.start [0] 1 1 (fun _ => 0) 7 0) (by decide) 1 (.receive false) 2 (by decide)
    [.step 1, .tick 1, .step 1, .step 1, .step 1, .step 1, .step 1, .step 1] (by simp) .receiveFailed rfl (by decide)

end System

end Ln882x.Kernel
