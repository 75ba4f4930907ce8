import Ln882x.Kernel.QueueWaits

/-! The waiting tasks of a queue, run by run: every critical section of a task and every interrupt
keeps both sides of the queue served. -/

namespace Ln882x.Kernel

open Memory

namespace System
variable {s s' : System} {t u : ℕ} {d : Side}

/-! ### Every step -/

theorem waiters_of_wakeReceiver (hr : s'.queue.xTasksWaitingToReceive = s.queue.xTasksWaitingToReceive.tail)
    (hs : s'.queue.xTasksWaitingToSend = s.queue.xTasksWaitingToSend) (d : Side) :
    s'.waiters d = if d = .receiving then (s.waiters d).tail else s.waiters d := by
  cases d with
  | sending => simp [waiters, hs]
  | receiving => simp [waiters, hr, waiting, List.map_tail]

theorem waiters_of_wakeSender (hr : s'.queue.xTasksWaitingToReceive = s.queue.xTasksWaitingToReceive)
    (hs : s'.queue.xTasksWaitingToSend = s.queue.xTasksWaitingToSend.tail) (d : Side) :
    s'.waiters d = if d = .sending then (s.waiters d).tail else s.waiters d := by
  cases d with
  | sending => simp [waiters, hs, waiting, List.map_tail]
  | receiving => simp [waiters, hr]

/-- An item that is sent takes a free place, if there is one, and there is at most one item more. -/
theorem copyTo_count {b : Buffer} {item : Item} {pos : CopyPosition} (hs : Sendable b item pos) :
    b.uxLength - (b.prvCopyDataToQueue item pos).uxMessagesWaiting ≤ b.uxLength - b.uxMessagesWaiting - 1 ∧
      (b.prvCopyDataToQueue item pos).uxMessagesWaiting ≤ b.uxMessagesWaiting + 1 := by
  unfold Buffer.prvCopyDataToQueue
  by_cases hsize : b.uxItemSize = 0
  · rw [if_pos hsize]
    dsimp only
    omega
  rw [if_neg hsize]
  by_cases hback : pos = .sendToBack
  · rw [if_pos hback]
    dsimp only
    omega
  rw [if_neg hback]
  dsimp only
  by_cases hover : pos = .overwrite ∧ b.uxMessagesWaiting > 0
  · have hone := (hs.overwrite hover.1).1
    rw [if_pos hover]
    omega
  · rw [if_neg hover]
    omega

theorem refused_pc (failed : Outcome) :
    ((s.refused t failed).task t).pc = .idle ∨ ((s.refused t failed).task t).pc = .suspendAll := by
  unfold refused
  dsimp only
  split_ifs <;> simp

theorem refused_queue (failed : Outcome) : (s.refused t failed).queue = s.queue := by
  unfold refused
  dsimp only
  split_ifs <;> rfl

theorem refused_suspendedBy (failed : Outcome) : (s.refused t failed).suspendedBy = s.suspendedBy := by
  unfold refused
  dsimp only
  split_ifs <;> rfl

theorem Live.refused (h : Live s) (hs : s.suspendedBy = none) (hwait : ∀ d, t ∉ s.waiters d) (hpc : (s.task t).pc = .retry)
    (failed : Outcome) (hnone : s.avail (s.task t).request.side = 0) : Live (s.refused t failed) :=
  h.giveUp hs hwait (fun _ hut => refused_of_ne hut failed) ((refused_suspendedBy failed).trans hs) (refused_pc failed) hpc
    (refused_queue failed) hnone

theorem Live.retry (h : Live s) (hs : s.suspendedBy = none) (hwait : ∀ d, t ∉ s.waiters d) (hpc : (s.task t).pc = .retry)
    (hreq : ∀ item pos, (s.task t).request = .send item pos → Sendable s.queue.toBuffer item pos) : Live (s.retry t) := by
  have hends (q : Queue) (o : Outcome) (hrx : q.cRxLock = s.queue.cRxLock) (htx : q.cTxLock = s.queue.cTxLock) :
      Ends s ({ s with queue := q }.finish t o) t := by
    refine ⟨hs, hs, hwait, fun u hut => finish_of_ne hut o, by rw [finish_self], ?_⟩
    intro d
    cases d with
    | sending => exact hrx
    | receiving => exact htx
  unfold System.retry
  cases hr : (s.task t).request with
  | send item pos =>
    have hside : (s.task t).request.side = .sending := by rw [hr]; rfl
    dsimp only
    split_ifs with hacc
    · have hcount := copyTo_count (hreq item pos hr)
      refine h.pass (hends _ _ rfl rfl) .receiving (by simp [hside]) (waiters_of_wakeReceiver rfl rfl) ?_ hcount.2
      rw [hside]
      show (s.queue.toBuffer.prvCopyDataToQueue item pos).uxLength - _ ≤ _
      rw [(copyTo_sizes _ item pos).1]
      exact hcount.1
    · apply h.refused hs hwait hpc
      rw [hside]
      have hge : ¬s.queue.uxMessagesWaiting < s.queue.uxLength := fun hlt => hacc (.inl hlt)
      simp only [avail]
      omega
  | receive peek =>
    have hside : (s.task t).request.side = .receiving := by rw [hr]; rfl
    cases peek with
    | false =>
      dsimp only
      split_ifs with hany
      · refine h.pass (hends _ _ rfl rfl) .sending (by simp [hside]) (waiters_of_wakeSender rfl rfl) ?_ ?_
        · rw [hside]
          exact Nat.le_refl _
        · show s.queue.toBuffer.receive.2.uxLength - (s.queue.uxMessagesWaiting - 1) ≤
            s.queue.uxLength - s.queue.uxMessagesWaiting + 1
          rw [(receive_sizes _).1]
          omega
      · apply h.refused hs hwait hpc
        rw [hside]
        exact Nat.eq_zero_of_not_pos hany
    | true =>
      dsimp only
      split_ifs with hany
      · refine h.pass_on (hends _ _ rfl rfl) ?_ ?_
        · rw [hside]
          exact waiters_of_wakeReceiver rfl rfl
        · intro d
          have hbuffer := s.queue.toBuffer.peek_snd
          cases d with
          | sending =>
            show s.queue.toBuffer.peek.2.uxLength - s.queue.toBuffer.peek.2.uxMessagesWaiting = _
            rw [hbuffer]
            rfl
          | receiving =>
            show s.queue.toBuffer.peek.2.uxMessagesWaiting = _
            rw [hbuffer]
            rfl
      · apply h.refused hs hwait hpc
        rw [hside]
        exact Nat.eq_zero_of_not_pos hany

theorem Live.lockQueue (h : Live s) (ht : s.suspendedBy = some t ∨ s.suspendedBy = none) (hpc : (s.task t).pc = .lock) :
    Live ({ s with queue := s.queue.prvLockQueue }.goto t .checkForTimeOut) := by
  have hfree (d : Side) : s.lockOf d = -1 := by
    have := h.discipline.lock ht d
    rwa [hpc, if_neg (by cases d <;> simp [Pc.locks])] at this
  have hlocked (d : Side) : ({ s with queue := s.queue.prvLockQueue }.goto t .checkForTimeOut).lockOf d = 0 := by
    have := hfree d
    cases d with
    | sending => exact if_pos this
    | receiving => exact if_pos this
  have hsusp : s.suspendedBy = some t := (h.discipline.holder t).mp (by rw [hpc]; rfl)
  have hdue : (s.task t).pc.due = false := by rw [hpc]; rfl
  refine ⟨h.discipline.step ht (fun u hut => goto_of_ne hut _) ?_ ?_ ?_ ?_ ?_, ?_⟩
  · rw [goto_self]
    exact hsusp
  · intro d
    rw [hlocked, goto_self]
    cases d <;> simp [Pc.locks]
  · intro d u hu
    cases d <;> exact .inl hu
  · intro d hu
    refine absurd ?_ (h.discipline.not_waits hdue d)
    cases d <;> exact hu
  · intro d
    have := h.discipline.nodup d
    cases d <;> exact this
  · intro d
    refine (h.served d).move (t := t) (fun u hut => goto_of_ne hut _) ?_ ?_ ?_ ?_
    · simp
    · simp [hdue]
    · cases d <;> rfl
    · rw [hlocked, hfree]
      cases d <;> exact Nat.le_refl _

/-- One of the two critical sections that unlock the queue. -/
theorem Live.unlockSide (h : Live s) (ht : s.suspendedBy = some t ∨ s.suspendedBy = none) (side : Side)
    (htask : ∀ u ≠ t, s'.task u = s.task u) (hsusp : s'.suspendedBy = if (s'.task t).pc.suspends then some t else none)
    (hdue : (s'.task t).pc.due = (s.task t).pc.due) (hreq : (s'.task t).request = (s.task t).request)
    (hplace : (s'.task t).pc ≠ .place)
    (hlocks : ∀ d, (s'.task t).pc.locks d = (decide (d ≠ side) && (s.task t).pc.locks d))
    (hlock : ∀ d, s'.lockOf d = if d = side then -1 else s.lockOf d)
    (hw : ∀ d, s'.waiters d = if d = side then (s.waiters d).drop (s.lockOf d).toNat else s.waiters d)
    (ha : ∀ d, s'.avail d = s.avail d) : Live s' := by
  have hsub (d : Side) : (s'.waiters d).Sublist (s.waiters d) := by
    rw [hw]
    split_ifs
    · exact List.drop_sublist _ _
    · exact List.Sublist.refl _
  have hdisc : Discipline s' := by
    refine h.discipline.step ht htask hsusp ?_ ?_ ?_ ?_
    · intro d
      have := h.discipline.lock ht d
      rw [hlocks, hlock]
      by_cases hd : d = side
      · simp [hd]
      · simpa [hd] using this
    · intro d u hu
      exact .inl ((hsub d).subset hu)
    · intro d hu
      rw [hdue, hreq]
      exact h.discipline.members d t ((hsub d).subset hu)
    · intro d
      exact (hsub d).nodup (h.discipline.nodup d)
  refine ⟨hdisc, ?_⟩
  intro d
  by_cases hd : d = side
  · subst hd
    exact (h.served d).unlockStep h.discipline hdisc (by rw [hlock, if_pos rfl]) htask hdue hreq (by rw [hw, if_pos rfl])
      (ha d).le
  · refine (h.served d).move htask (fun hp => hplace hp.1) ?_ (by rw [hw, if_neg hd]) ?_
    · rw [hdue, hreq]
      exact fun hd hs => ⟨hd, hs⟩
    · rw [ha, hlock, if_neg hd]

theorem Live.unlockTx (h : Live s) (ht : s.suspendedBy = some t ∨ s.suspendedBy = none) {expired : Bool}
    (hpc : (s.task t).pc = .unlockTx expired) :
    Live ({ s with queue := s.queue.prvUnlockTx }.goto t (.unlockRx expired)) := by
  have hsusp : s.suspendedBy = some t := (h.discipline.holder t).mp (by rw [hpc]; rfl)
  refine h.unlockSide ht .receiving (fun u hut => goto_of_ne hut _) ?_ ?_ ?_ ?_ ?_ ?_ ?_ ?_
  · rw [goto_self]
    exact hsusp
  · rw [goto_self, hpc]
    cases expired <;> rfl
  · rw [goto_self]
  · simp
  · intro d
    rw [goto_self, hpc]
    cases d <;> rfl
  · intro d
    cases d <;> rfl
  · intro d
    cases d with
    | sending => rfl
    | receiving =>
      show waiting (wakeLoop s.queue.cTxLock s.queue.xTasksWaitingToReceive) = _
      rw [wakeLoop_eq, if_pos rfl, waiting, List.map_drop]
      rfl
  · intro d
    cases d <;> rfl

theorem Live.unlockRx (h : Live s) (ht : s.suspendedBy = some t ∨ s.suspendedBy = none) {expired : Bool}
    (hpc : (s.task t).pc = .unlockRx expired) :
    Live ({ s with queue := s.queue.prvUnlockRx }.goto t (.resumeAll expired)) := by
  have hsusp : s.suspendedBy = some t := (h.discipline.holder t).mp (by rw [hpc]; rfl)
  refine h.unlockSide ht .sending (fun u hut => goto_of_ne hut _) ?_ ?_ ?_ ?_ ?_ ?_ ?_ ?_
  · rw [goto_self]
    exact hsusp
  · rw [goto_self, hpc]
    cases expired <;> rfl
  · rw [goto_self]
  · simp
  · intro d
    rw [goto_self, hpc]
    cases d <;> rfl
  · intro d
    cases d <;> rfl
  · intro d
    cases d with
    | sending =>
      show waiting (wakeLoop s.queue.cRxLock s.queue.xTasksWaitingToSend) = _
      rw [wakeLoop_eq, if_pos rfl, waiting, List.map_drop]
      rfl
    | receiving => rfl
  · intro d
    cases d <;> rfl

theorem waiting_vListInsert_perm (l : List ListItem) (i : ListItem) :
    (waiting (vListInsert l i)).Perm (i.pvOwner :: waiting l) := by
  unfold vListInsert waiting
  by_cases hmax : i.xItemValue = portMaxDelay
  · rw [if_pos hmax, List.map_append]
    exact List.perm_append_comm
  · rw [if_neg hmax]
    exact (insertBy_perm ListItem.xItemValue i l).map ListItem.pvOwner

theorem vTaskPlaceOnEventList_waiters (d : Side) :
    ((s.vTaskPlaceOnEventList t).waiters d).Perm
      (if (s.task t).request.side = d then t :: s.waiters d else s.waiters d) := by
  unfold vTaskPlaceOnEventList
  cases hr : (s.task t).request with
  | send item pos =>
    cases d with
    | sending => exact waiting_vListInsert_perm _ _
    | receiving => exact .refl _
  | receive peek =>
    cases d with
    | sending => exact .refl _
    | receiving => exact waiting_vListInsert_perm _ _

/-- Placing itself in a list changes nothing else. -/
theorem vTaskPlaceOnEventList_rest : (s.vTaskPlaceOnEventList t).task = s.task ∧
    (s.vTaskPlaceOnEventList t).suspendedBy = s.suspendedBy ∧ (∀ d, (s.vTaskPlaceOnEventList t).avail d = s.avail d) ∧
      ∀ d, (s.vTaskPlaceOnEventList t).lockOf d = s.lockOf d := by
  unfold vTaskPlaceOnEventList
  cases (s.task t).request with
  | send item pos =>
    refine ⟨rfl, rfl, ?_, ?_⟩
    · intro d
      cases d <;> rfl
    · intro d
      cases d <;> rfl
  | receive peek =>
    refine ⟨rfl, rfl, ?_, ?_⟩
    · intro d
      cases d <;> rfl
    · intro d
      cases d <;> rfl

theorem Live.place (h : Live s) (ht : s.suspendedBy = some t ∨ s.suspendedBy = none) (hpc : (s.task t).pc = .place) :
    Live ((s.vTaskPlaceOnEventList t).goto t (.unlockTx false)) := by
  obtain ⟨htasks, hsusp', havail, hlockOf⟩ := vTaskPlaceOnEventList_rest (s := s) (t := t)
  have hsusp : s.suspendedBy = some t := (h.discipline.holder t).mp (by rw [hpc]; rfl)
  have hdue : (s.task t).pc.due = false := by rw [hpc]; rfl
  generalize hs' : (s.vTaskPlaceOnEventList t).goto t (.unlockTx false) = s'
  have hself : s'.task t = { s.task t with pc := .unlockTx false } := by rw [← hs', goto_self, htasks]
  have hothers (u : ℕ) (hut : u ≠ t) : s'.task u = s.task u := by rw [← hs', goto_of_ne hut, htasks]
  have hw (d : Side) : (s'.waiters d).Perm (if (s.task t).request.side = d then t :: s.waiters d else s.waiters d) := by
    rw [← hs', waiters_congr (goto_queue _)]
    exact vTaskPlaceOnEventList_waiters d
  have ha (d : Side) : s'.avail d = s.avail d := by rw [← hs', avail_congr (goto_queue _), havail]
  have hl (d : Side) : s'.lockOf d = s.lockOf d := by rw [← hs', lockOf_congr (goto_queue _), hlockOf]
  have hmem {d : Side} {u : ℕ} (hu : u ∈ s'.waiters d) : u ∈ s.waiters d ∨ u = t ∧ (s.task t).request.side = d := by
    have := (hw d).mem_iff.mp hu
    split_ifs at this with hside
    · rcases List.mem_cons.mp this with rfl | hu
      · exact .inr ⟨rfl, hside⟩
      · exact .inl hu
    · exact .inl this
  refine ⟨h.discipline.step ht hothers ?_ ?_ ?_ ?_ ?_, ?_⟩
  · rw [hself, ← hs']
    exact hsusp'.trans hsusp
  · intro d
    have := h.discipline.lock ht d
    rw [hpc] at this
    rw [hself, hl]
    cases d <;> exact this
  · intro d u hu
    exact (hmem hu).imp_right And.left
  · intro d hu
    rw [hself]
    rcases hmem hu with hu | ⟨-, hside⟩
    · exact absurd hu (h.discipline.not_waits hdue d)
    · exact ⟨rfl, hside⟩
  · intro d
    rw [(hw d).nodup_iff]
    split_ifs
    · exact List.nodup_cons.mpr ⟨h.discipline.not_waits hdue d, h.discipline.nodup d⟩
    · exact h.discipline.nodup d
  · intro d
    -- the premise held already: the task was about to wait
    refine (h.served d).mono ?_ ?_ (by rw [ha, hl])
    · rintro (hne | hp)
      · by_cases hside : (s.task t).request.side = d
        · exact .inr ⟨t, hpc, hside⟩
        · obtain ⟨u, hu⟩ := List.exists_mem_of_ne_nil _ hne
          rcases hmem hu with hu | ⟨-, hu⟩
          · exact .inl (List.ne_nil_of_mem hu)
          · exact absurd hu hside
      · exact .inr (hp.frame hothers (by rw [hself]; simp))
    · intro u hu
      have hut : u ≠ t := by
        rintro rfl
        have := hu.due
        simp [hdue] at this
      exact hu.frame (hothers u hut) fun hmem' => (hmem hmem').resolve_right fun hu => hut hu.1

theorem avail_of_blocked (h : s.blocked (s.task t).request = true) : s.avail (s.task t).request.side = 0 := by
  cases hr : (s.task t).request with
  | send item pos =>
    rw [hr] at h
    have hfull : s.queue.uxMessagesWaiting = s.queue.uxLength := by simpa [blocked, Queue.prvIsQueueFull] using h
    simp only [Request.side, avail]
    omega
  | receive peek =>
    rw [hr] at h
    have hempty : s.queue.uxMessagesWaiting = 0 := by simpa [blocked, Queue.prvIsQueueEmpty] using h
    exact hempty

theorem Live.look (h : Live s) (ht : s.suspendedBy = some t ∨ s.suspendedBy = none) (hpc : (s.task t).pc = .look) :
    Live (s.goto t (if s.blocked (s.task t).request then .place else .unlockTx false)) := by
  have hsusp : s.suspendedBy = some t := (h.discipline.holder t).mp (by rw [hpc]; rfl)
  by_cases hb : s.blocked (s.task t).request = true
  · rw [if_pos hb]
    refine ⟨h.discipline.move ht (fun u hut => goto_of_ne hut _) ?_ ?_ rfl ?_, ?_⟩
    · rw [goto_self]
      exact hsusp
    · intro d
      rw [goto_self, hpc]
      cases d <;> rfl
    · intro d hu
      exact absurd hu (h.discipline.not_waits (by rw [hpc]; rfl) d)
    · intro d
      by_cases hside : (s.task t).request.side = d
      · apply served_of_none
        rw [avail_congr (goto_queue _), ← hside]
        exact avail_of_blocked hb
      · refine (h.served d).move (t := t) (fun u hut => goto_of_ne hut _) ?_ (fun _ hs => absurd hs hside)
          (waiters_congr (goto_queue _) d) ?_
        · rw [goto_self]
          exact fun hp => hside hp.2
        · rw [avail_congr (goto_queue _), lockOf_congr (goto_queue _)]
  · rw [if_neg hb]
    refine h.move ht (fun u hut => goto_of_ne hut _) ?_ ?_ rfl ?_ ?_
    · rw [goto_self]
      exact hsusp
    · intro d
      rw [goto_self, hpc]
      cases d <;> rfl
    · simp
    · rw [hpc]
      exact fun hd => absurd hd Bool.false_ne_true

theorem Live.checkForTimeOut (h : Live s) (ht : s.suspendedBy = some t ∨ s.suspendedBy = none)
    (hpc : (s.task t).pc = .checkForTimeOut) (r : Task) (expired : Bool) :
    Live (s.setTask t { r with pc := if expired then .unlockTx true else .look }) := by
  have hsusp : s.suspendedBy = some t := (h.discipline.holder t).mp (by rw [hpc]; rfl)
  refine h.move ht (fun u hut => setTask_of_ne hut _) ?_ ?_ rfl ?_ ?_
  · rw [setTask_self]
    cases expired <;> exact hsusp
  · intro d
    rw [setTask_self, hpc]
    cases expired <;> cases d <;> rfl
  · rw [setTask_self]
    cases expired <;> simp
  · rw [hpc]
    exact fun hd => absurd hd Bool.false_ne_true

theorem Live.resumeAll (h : Live s) (ht : s.suspendedBy = some t ∨ s.suspendedBy = none) {expired : Bool}
    (hpc : (s.task t).pc = .resumeAll expired) (htask : ∀ u ≠ t, s'.task u = s.task u) (hsusp : s'.suspendedBy = none)
    (hqueue : s'.queue = s.queue) (hreq : (s'.task t).request = (s.task t).request)
    (hnext : (s'.task t).pc = .retry ∨ expired = true ∧ ((s'.task t).pc = .idle ∨ (s'.task t).pc = .lookAgain)) :
    Live s' := by
  refine h.move ht htask ?_ ?_ hqueue ?_ ?_
  · rcases hnext with hn | ⟨-, hn | hn⟩ <;> simp [hn, hsusp, Pc.suspends]
  · intro d
    rcases hnext with hn | ⟨-, hn | hn⟩ <;> cases d <;> simp [hn, hpc, Pc.locks]
  · rcases hnext with hn | ⟨-, hn | hn⟩ <;> simp [hn]
  · rcases hnext with hn | ⟨rfl, -⟩
    · exact fun _ => ⟨by rw [hn]; rfl, hreq⟩
    · rw [hpc]
      exact fun hd => absurd hd Bool.false_ne_true

/-- A task that does not hold the scheduler moves on, and was not on its way. -/
theorem Live.goes (h : Live s) (hs : s.suspendedBy = none) (hdue : (s.task t).pc.due = false)
    (htask : ∀ u ≠ t, s'.task u = s.task u) (hsusp : s'.suspendedBy = none) (hqueue : s'.queue = s.queue)
    (hpc : (s'.task t).pc.suspends = false) : Live s' := by
  have hfree (d : Side) : (s.task t).pc.locks d = false := by
    cases hl : (s.task t).pc.locks d with
    | false => rfl
    | true =>
      have := (h.discipline.holder t).mp (Pc.suspends_of_locks hl)
      simp [hs] at this
  refine h.move (.inr hs) htask (by rw [hpc, hsusp]; rfl) ?_ hqueue ?_ ?_
  · intro d
    rw [hfree]
    cases hl : (s'.task t).pc.locks d with
    | false => rfl
    | true => simp [Pc.suspends_of_locks hl] at hpc
  · intro hp
    simp [hp, Pc.suspends] at hpc
  · intro hd
    simp [hdue] at hd

theorem Live.stepTask (h : Live s) (hpc : (s.task t).pc ≠ .idle)
    (hrun : s.suspendedBy = some t ∨ s.suspendedBy = none ∧ ¬s.Waits t)
    (hreq : ∀ item pos, (s.task t).request = .send item pos → Sendable s.queue.toBuffer item pos) : Live (s.stepTask t) := by
  have ht : s.suspendedBy = some t ∨ s.suspendedBy = none := hrun.imp_right And.left
  have hout (hp : (s.task t).pc.suspends = false) : s.suspendedBy = none ∧ ∀ d, t ∉ s.waiters d := by
    have hno : s.suspendedBy ≠ some t := by
      intro hs
      have := (h.discipline.holder t).mpr hs
      simp [hp] at this
    obtain ⟨hs, hw⟩ := hrun.resolve_left hno
    refine ⟨hs, ?_⟩
    intro d hu
    cases d with
    | sending => exact hw (.inl hu)
    | receiving => exact hw (.inr hu)
  unfold System.stepTask
  cases hc : (s.task t).pc with
  | idle => exact absurd hc hpc
  | retry =>
    obtain ⟨hs, hw⟩ := hout (by rw [hc]; rfl)
    exact h.retry hs hw hc hreq
  | suspendAll =>
    refine h.move ht (fun u hut => goto_of_ne hut _) ?_ ?_ rfl ?_ ?_
    · rw [goto_self]
      rfl
    · intro d
      rw [goto_self, hc]
      cases d <;> rfl
    · simp
    · rw [hc]
      exact fun hd => absurd hd Bool.false_ne_true
  | lock => exact h.lockQueue ht hc
  | checkForTimeOut => exact h.checkForTimeOut ht hc _ _
  | look => exact h.look ht hc
  | place => exact h.place ht hc
  | unlockTx expired => exact h.unlockTx ht hc
  | unlockRx expired => exact h.unlockRx ht hc
  | resumeAll expired =>
    cases expired with
    | false => exact h.resumeAll ht hc (fun u hut => goto_of_ne hut _) rfl rfl (by rw [goto_self]) (.inl (by rw [goto_self]))
    | true =>
      dsimp only [expire]
      split
      · exact h.resumeAll ht hc (fun u hut => finish_of_ne hut _) rfl rfl (by rw [finish_self])
          (.inr ⟨rfl, .inl (by rw [finish_self])⟩)
      · exact h.resumeAll ht hc (fun u hut => goto_of_ne hut _) rfl rfl (by rw [goto_self])
          (.inr ⟨rfl, .inr (by rw [goto_self])⟩)
  | lookAgain =>
    obtain ⟨hs, -⟩ := hout (by rw [hc]; rfl)
    have hdue : (s.task t).pc.due = false := by rw [hc]; rfl
    dsimp only
    split_ifs
    · exact h.goes hs hdue (fun u hut => finish_of_ne hut _) hs rfl (by rw [finish_self]; rfl)
    · exact h.goes hs hdue (fun u hut => goto_of_ne hut _) hs rfl (by rw [goto_self]; rfl)

/-! ### Interrupts -/

theorem int8_succ {c : ℤ} (hc : 0 ≤ c) (hlt : c < 127) : int8 (c + 1) = c + 1 := by
  rw [int8, Int.bmod_def]
  split_ifs <;> omega

/-- An interrupt gives one to a side: it wakes a task, or the lock counts it. -/
theorem Live.isr (h : Live s) (side : Side) (htask : s'.task = s.task) (hsusp : s'.suspendedBy = s.suspendedBy)
    (hnote : s.lockOf side = -1 ∧ s'.lockOf side = -1 ∧ s'.waiters side = (s.waiters side).tail ∨
      0 ≤ s.lockOf side ∧ s'.lockOf side = s.lockOf side + 1 ∧ s'.waiters side = s.waiters side)
    (hother : ∀ d ≠ side, s'.lockOf d = s.lockOf d ∧ s'.waiters d = s.waiters d ∧ s'.avail d ≤ s.avail d)
    (ha : s'.avail side ≤ s.avail side + 1) : Live s' := by
  have hsub (d : Side) : (s'.waiters d).Sublist (s.waiters d) := by
    by_cases hd : d = side
    · subst hd
      rcases hnote with ⟨-, -, hw⟩ | ⟨-, -, hw⟩
      · rw [hw]
        exact List.tail_sublist _
      · rw [hw]
    · rw [(hother d hd).2.1]
  have hlock (d : Side) : s'.lockOf d = s.lockOf d ∨ 0 ≤ s.lockOf d ∧ 0 ≤ s'.lockOf d := by
    by_cases hd : d = side
    · subst hd
      omega
    · exact .inl (hother d hd).1
  have hdisc := h.discipline.isr htask hsusp hlock hsub
  have hcomes {d : Side} {u : ℕ} (hu : s.Comes d u) : s'.Comes d u :=
    hu.frame (congrFun htask u) fun hmem => (hsub d).subset hmem
  have hplacing {d : Side} (hp : s'.Placing d) : s.Placing d := by
    obtain ⟨u, hu⟩ := hp
    rw [htask] at hu
    exact ⟨u, hu⟩
  refine ⟨hdisc, ?_⟩
  intro d
  by_cases hd : d = side
  · subst hd
    rcases hnote with ⟨hl, hl', hw⟩ | ⟨hl, hl', hw⟩
    · refine (h.served d).wake (hdisc.not_placing hl') hw (fun u hu => hcomes hu) ?_ ha (hl'.trans hl.symm)
      intro u rest hlist
      exact h.discipline.woken (by simp [hlist]) (congrFun htask u) (by rw [hw]; exact h.discipline.not_mem_tail hlist)
    · refine (h.served d).mono ?_ (fun u hu => hcomes hu) ?_
      · rw [hw]
        exact Or.imp_right hplacing
      · rw [hl']
        omega
  · obtain ⟨hl, hw, hav⟩ := hother d hd
    refine (h.served d).mono ?_ (fun u hu => hcomes hu) ?_
    · rw [hw]
      exact Or.imp_right hplacing
    · rw [hl]
      omega

theorem Live.sent (h : Live s) (b : Buffer) (o : Outcome) (hlt : s.queue.cTxLock < 127)
    (htook : b.uxLength - b.uxMessagesWaiting ≤ s.queue.uxLength - s.queue.uxMessagesWaiting)
    (hgave : b.uxMessagesWaiting ≤ s.queue.uxMessagesWaiting + 1) :
    Live ({ s with queue := { s.queue with toBuffer := b }.noteSent }.traced none o) := by
  unfold Queue.noteSent
  by_cases hl : s.queue.cTxLock = -1
  · rw [if_pos (show ({ s.queue with toBuffer := b } : Queue).cTxLock = queueUnlocked from hl)]
    refine h.isr .receiving rfl rfl (.inl ⟨hl, hl, ?_⟩) ?_ hgave
    · simp [waiters, traced, Queue.wakeReceiver, waiting, List.map_tail]
    · intro d hd
      cases d with
      | sending => exact ⟨rfl, rfl, htook⟩
      | receiving => exact absurd rfl hd
  · have hpos := (h.discipline.lock_cases .receiving).resolve_left hl
    rw [if_neg (show ¬({ s.queue with toBuffer := b } : Queue).cTxLock = queueUnlocked from hl)]
    refine h.isr .receiving rfl rfl (.inr ⟨hpos, int8_succ hpos hlt, rfl⟩) ?_ hgave
    intro d hd
    cases d with
    | sending => exact ⟨rfl, rfl, htook⟩
    | receiving => exact absurd rfl hd

theorem Live.received (h : Live s) (b : Buffer) (o : Outcome) (hlt : s.queue.cRxLock < 127)
    (htook : b.uxMessagesWaiting ≤ s.queue.uxMessagesWaiting)
    (hgave : b.uxLength - b.uxMessagesWaiting ≤ s.queue.uxLength - s.queue.uxMessagesWaiting + 1) :
    Live ({ s with queue := { s.queue with toBuffer := b }.noteReceived }.traced none o) := by
  unfold Queue.noteReceived
  by_cases hl : s.queue.cRxLock = -1
  · rw [if_pos (show ({ s.queue with toBuffer := b } : Queue).cRxLock = queueUnlocked from hl)]
    refine h.isr .sending rfl rfl (.inl ⟨hl, hl, ?_⟩) ?_ hgave
    · simp [waiters, traced, Queue.wakeSender, waiting, List.map_tail]
    · intro d hd
      cases d with
      | sending => exact absurd rfl hd
      | receiving => exact ⟨rfl, rfl, htook⟩
  · have hpos := (h.discipline.lock_cases .sending).resolve_left hl
    rw [if_neg (show ¬({ s.queue with toBuffer := b } : Queue).cRxLock = queueUnlocked from hl)]
    refine h.isr .sending rfl rfl (.inr ⟨hpos, int8_succ hpos hlt, rfl⟩) ?_ hgave
    intro d hd
    cases d with
    | sending => exact absurd rfl hd
    | receiving => exact ⟨rfl, rfl, htook⟩

/-- Tasks may be taken out of the lists, and the counts stay. -/
theorem Live.quiet (h : Live s) (htask : s'.task = s.task) (hsusp : s'.suspendedBy = s.suspendedBy)
    (hlock : ∀ d, s'.lockOf d = s.lockOf d) (hsub : ∀ d, (s'.waiters d).Sublist (s.waiters d))
    (ha : ∀ d, s'.avail d = s.avail d) : Live s' := by
  refine ⟨h.discipline.isr htask hsusp (fun d => .inl (hlock d)) hsub, ?_⟩
  intro d
  refine (h.served d).mono ?_ ?_ (by rw [ha, hlock])
  · rintro (hne | ⟨u, hu⟩)
    · obtain ⟨u, hu⟩ := List.exists_mem_of_ne_nil _ hne
      exact .inl (List.ne_nil_of_mem ((hsub d).subset hu))
    · rw [htask] at hu
      exact .inr ⟨u, hu⟩
  · intro u hu
    exact hu.frame (congrFun htask u) fun hmem => (hsub d).subset hmem

theorem Live.same (h : Live s) (htask : s'.task = s.task) (hsusp : s'.suspendedBy = s.suspendedBy)
    (hqueue : s'.queue = s.queue) : Live s' := by
  refine h.quiet htask hsusp (lockOf_congr hqueue) ?_ (avail_congr hqueue)
  intro d
  rw [waiters_congr hqueue]

theorem Live.reset (h : Live s) (hs : s.suspendedBy = none)
    (hone : s.queue.xTasksWaitingToSend.length ≤ 1 ∨ s.queue.uxLength = 1) (who : Option ℕ) (o : Outcome) :
    Live ({ s with queue := s.queue.xQueueGenericReset }.traced who o) := by
  generalize hs' : { s with queue := s.queue.xQueueGenericReset }.traced who o = s'
  have htask : s'.task = s.task := by rw [← hs']; rfl
  have hlock (d : Side) : s'.lockOf d = -1 := by
    rw [← hs']
    cases d <;> rfl
  have hw (d : Side) : s'.waiters d = if d = .sending then (s.waiters d).tail else s.waiters d := by
    apply waiters_of_wakeSender
    · rw [← hs']
      rfl
    · rw [← hs']
      rfl
  have hsub := sublist_of_tail .sending hw
  have hdisc : Discipline s' :=
    h.discipline.isr htask (by rw [← hs']; rfl) (fun d => .inl ((hlock d).trans (h.discipline.lock_of_none hs d).symm)) hsub
  refine ⟨hdisc, ?_⟩
  intro d
  cases d with
  | receiving =>
    apply served_of_none
    rw [← hs']
    rfl
  | sending =>
    have htail : s'.waiters .sending = (s.waiters .sending).tail := by rw [hw, if_pos rfl]
    rcases hone with hone | hone
    · rintro (hne | hp)
      · rw [htail] at hne
        have hlen : (s.waiters .sending).length ≤ 1 := by simpa [waiters, waiting] using hone
        refine absurd (List.eq_nil_of_length_eq_zero ?_) hne
        rw [List.length_tail]
        omega
      · exact absurd hp (hdisc.not_placing (hlock _))
    · refine (h.served .sending).wake (hdisc.not_placing (hlock _)) htail ?_ ?_ ?_
        ((hlock _).trans (h.discipline.lock_of_none hs _).symm)
      · intro u hu
        exact hu.frame (congrFun htask u) fun hmem => (hsub _).subset hmem
      · intro u rest hl
        exact h.discipline.woken (by simp [hl]) (congrFun htask u) (by rw [htail]; exact h.discipline.not_mem_tail hl)
      · have havail : s'.avail .sending = s.queue.uxLength - 0 := by rw [← hs']; rfl
        omega

/-! ### Runs -/

theorem Live.sendFromISR {item : Item} {pos : CopyPosition} (h : Live s) (hs : Sendable s.queue.toBuffer item pos)
    (hlt : s.queue.cTxLock < 127) : Live (s.xQueueGenericSendFromISR item pos) := by
  unfold xQueueGenericSendFromISR
  split_ifs with hacc
  · have hcount := copyTo_count hs
    refine h.sent _ _ hlt ?_ hcount.2
    rw [(copyTo_sizes _ item pos).1]
    exact hcount.1.trans (Nat.sub_le _ _)
  · exact h.same rfl rfl rfl

theorem Live.act (h : Live s) (hreq : Requests s) {a : Act} (ha : s.Allowed a) : Live (s.act a) := by
  cases a with
  | call t request ticks =>
    obtain ⟨hs, hpc, -⟩ := ha
    refine h.goes hs (by rw [hpc]; rfl) (fun u hut => setTask_of_ne hut _) hs rfl ?_
    exact congrArg (fun r : Task => r.pc.suspends) (setTask_self _)
  | step t => exact h.stepTask ha.1 ha.2 (hreq t ha.1)
  | reset t => exact h.reset ha.1 ha.2.2 _ _
  | sendFromISR item pos => exact h.sendFromISR ha.1 ha.2
  | giveFromISR =>
    show Live s.xQueueGiveFromISR
    rw [give_eq_send ha.1]
    exact h.sendFromISR ⟨ha.1.symm, by simp⟩ ha.2
  | receiveFromISR =>
    show Live s.xQueueReceiveFromISR
    unfold xQueueReceiveFromISR
    split_ifs with hany
    · refine h.received _ _ ha (Nat.sub_le _ _) ?_
      show s.queue.toBuffer.receive.2.uxLength - (s.queue.uxMessagesWaiting - 1) ≤ _
      rw [(receive_sizes _).1]
      omega
    · exact h.same rfl rfl rfl
  | peekFromISR =>
    show Live s.xQueuePeekFromISR
    unfold xQueuePeekFromISR
    split_ifs with hany
    · rw [s.queue.toBuffer.peek_snd]
      exact h.same rfl rfl rfl
    · exact h.same rfl rfl rfl
  | tick comp => exact h.same rfl rfl rfl
  | timeOut t =>
    refine h.quiet rfl rfl (fun d => by cases d <;> rfl) ?_ (fun d => by cases d <;> rfl)
    intro d
    cases d with
    | sending => exact List.filter_sublist.map _
    | receiving => exact List.filter_sublist.map _

theorem Live.acts {as : List Act} (h : Live s) (hreq : Requests s) (hl : s.Legal as) : Live (s.acts as) := by
  induction as generalizing s with
  | nil => exact h
  | cons a as ih => exact ih (h.act hreq hl.1) (act_requests hreq hl.1) hl.2

theorem live_start (storage : List UInt8) (uxLength uxItemSize : ℕ) (uxPriority : ℕ → ℕ)
    (xTickCount xNumOfOverflows : ℕ) :
    Live (start storage uxLength uxItemSize uxPriority xTickCount xNumOfOverflows) := by
  refine ⟨⟨?_, ?_, ?_, ?_, ?_⟩, ?_⟩
  · intro t
    simp [start, Pc.suspends]
  · intro d t ht
    simp [start] at ht
  · intro d _
    cases d <;> rfl
  · intro d u hu
    cases d <;> simp [start, waiters, Queue.create, waiting] at hu
  · intro d
    cases d <;> exact List.nodup_nil
  · rintro d (hne | ⟨t, ht, -⟩)
    · cases d <;> exact absurd rfl hne
    · simp [start] at ht

/-- Nobody is on the way to a side, or about to wait. -/
def AtRest (s : System) (d : Side) : Prop := s.suspendedBy = none ∧ ∀ t, ¬s.Comes d t

theorem Live.at_rest (h : Live s) (hrest : s.AtRest d) (hw : s.waiters d ≠ []) : s.avail d = 0 := by
  obtain ⟨l, -, hcomes, hle⟩ := h.served d (.inl hw)
  have hnil : l = [] := List.eq_nil_iff_forall_not_mem.mpr fun t ht => hrest.2 t (hcomes t ht)
  rw [hnil, h.discipline.lock_of_none hrest.1] at hle
  exact Nat.le_zero.mp hle

/-- No wake-up is lost, in whatever order the critical sections of tasks and interrupts come: while
tasks wait for items, as many receivers are on their way, or counted by the lock, as there are
items; and so it is with senders and free places. When all is at rest, those who still wait have
nothing to wait for. -/
theorem queue_run_served (storage : List UInt8) (uxLength uxItemSize : ℕ) (uxPriority : ℕ → ℕ)
    (xTickCount xNumOfOverflows : ℕ) (as : List Act)
    (hl : (start storage uxLength uxItemSize uxPriority xTickCount xNumOfOverflows).Legal as) (s : System)
    (hs : s = (start storage uxLength uxItemSize uxPriority xTickCount xNumOfOverflows).acts as) (d : Side) :
    s.Served d ∧ (s.AtRest d → s.waiters d ≠ [] → s.avail d = 0) := by
  have hreq : Requests (start storage uxLength uxItemSize uxPriority xTickCount xNumOfOverflows) := by
    intro u hu
    exact absurd rfl hu
  have hlive : Live s := by
    rw [hs]
    exact (live_start storage uxLength uxItemSize uxPriority xTickCount xNumOfOverflows).acts hreq hl
  exact ⟨hlive.served d, hlive.at_rest⟩

/-- A task waits for an item, and an interrupt sends one while the queue is still locked. -/
def waitingActs : List Act :=
  [.call 1 (.receive false) 5, .step 1, .step 1, .step 1, .step 1, .step 1, .step 1, .sendFromISR [7] .sendToBack]

theorem legal_waitingActs : (start [0] 1 1 (fun _ => 0) 0 0).Legal waitingActs := by
  refine ⟨⟨rfl, rfl, ?_⟩, ⟨by decide, .inr ⟨rfl, ?_⟩⟩, ⟨by decide, .inr ⟨rfl, ?_⟩⟩, ⟨by decide, .inl rfl⟩,
    ⟨by decide, .inl rfl⟩, ⟨by decide, .inl rfl⟩, ⟨by decide, .inl rfl⟩, ⟨?_, ?_⟩, trivial⟩
  · intro item pos h
    cases h
  · unfold Waits
    decide
  · unfold Waits
    decide
  · decide
  · show (_ : ℤ) < 127
    decide

theorem queue_run_served_waiting :
    ((start [0] 1 1 (fun _ => 0) 0 0).acts waitingActs).Served .receiving ∧
      (((start [0] 1 1 (fun _ => 0) 0 0).acts waitingActs).AtRest .receiving →
        ((start [0] 1 1 (fun _ => 0) 0 0).acts waitingActs).waiters .receiving ≠ [] →
          ((start [0] 1 1 (fun _ => 0) 0 0).acts waitingActs).avail .receiving = 0) :=
  queue_run_served [0] 1 1 (fun _ => 0) 0 0 waitingActs legal_waitingActs _ rfl .receiving

end System

end Ln882x.Kernel
