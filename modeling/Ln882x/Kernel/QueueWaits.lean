import Ln882x.Kernel.QueueRuns

/-! No wake-up is lost. A task that waits to receive waits for a good reason: for every item in
the queue another receiver is on its way to look, or the lock count of the queue announces one.
The same holds of senders and free places. The two are one argument about the two sides of
the queue. -/

namespace Ln882x.Kernel

open Memory

/-- The two directions of a queue. -/
inductive Side where
  | sending | receiving
  deriving DecidableEq

def Request.side : Request → Side
  | .send _ _ => .sending
  | .receive _ => .receiving

/-- The task has suspended the scheduler. -/
def Pc.suspends : Pc → Bool
  | .lock | .checkForTimeOut | .look | .place | .unlockTx _ | .unlockRx _ | .resumeAll _ => true
  | _ => false

/-- The task holds the lock that keeps the waiting tasks of a side in their list. -/
def Pc.locks : Side → Pc → Bool
  | _, .checkForTimeOut | _, .look | _, .place | _, .unlockTx _ => true
  | .sending, .unlockRx _ => true
  | _, _ => false

/-- The task will look at the queue again before it waits or gives up. -/
def Pc.due : Pc → Bool
  | .retry | .unlockTx false | .unlockRx false | .resumeAll false => true
  | _ => false

theorem Pc.suspends_of_locks {d : Side} {pc : Pc} (h : pc.locks d = true) : pc.suspends = true := by
  cases d <;> cases pc <;> simp [locks, suspends] at h ⊢

theorem wakeLoop_eq (c : ℤ) (l : List ListItem) : wakeLoop c l = l.drop c.toNat := by
  induction l generalizing c with
  | nil => simp [wakeLoop]
  | cons i l ih =>
    rw [wakeLoop]
    by_cases hc : c > queueLockedUnmodified
    · have hsucc : c.toNat = (c - 1).toNat + 1 := by
        simp only [queueLockedUnmodified] at hc
        omega
      rw [if_pos hc, ih, hsucc, List.drop_succ_cons]
    · have hzero : c.toNat = 0 := by
        simp only [queueLockedUnmodified] at hc
        omega
      rw [if_neg hc, hzero, List.drop_zero]

namespace System
variable {s s' : System} {t u : ℕ} {d : Side}

/-- The tasks that wait on a side. -/
def waiters (s : System) : Side → List ℕ
  | .sending => waiting s.queue.xTasksWaitingToSend
  | .receiving => waiting s.queue.xTasksWaitingToReceive

/-- What the tasks of a side wait for: free places, or items. -/
def avail (s : System) : Side → ℕ
  | .sending => s.queue.uxLength - s.queue.uxMessagesWaiting
  | .receiving => s.queue.uxMessagesWaiting

/-- The lock count that announces it. -/
def lockOf (s : System) : Side → ℤ
  | .sending => s.queue.cRxLock
  | .receiving => s.queue.cTxLock

/-- The task is on its way to the queue. -/
structure Comes (s : System) (d : Side) (t : ℕ) : Prop where
  due : (s.task t).pc.due = true
  side : (s.task t).request.side = d
  awake : t ∉ s.waiters d

/-- A task has found that it must wait, and is about to. -/
def Placing (s : System) (d : Side) : Prop := ∃ t, (s.task t).pc = .place ∧ (s.task t).request.side = d

/-- While tasks wait, there are as many on their way as there is to have. -/
def Served (s : System) (d : Side) : Prop :=
  s.waiters d ≠ [] ∨ s.Placing d →
    ∃ l : List ℕ, l.Nodup ∧ (∀ t ∈ l, s.Comes d t) ∧ s.avail d ≤ l.length + (s.lockOf d).toNat

/-! ### What keeps a side served -/

theorem served_of_none (h : s.avail d = 0) : Served s d := by
  intro _
  exact ⟨[], by simp, by simp, by omega⟩

theorem Served.mono (h : Served s d) (hw : s'.waiters d ≠ [] ∨ s'.Placing d → s.waiters d ≠ [] ∨ s.Placing d)
    (hc : ∀ u, s.Comes d u → s'.Comes d u)
    (ha : s'.avail d + (s.lockOf d).toNat ≤ s.avail d + (s'.lockOf d).toNat) : Served s' d := by
  intro hs
  obtain ⟨l, hnodup, hcomes, hle⟩ := h (hw hs)
  refine ⟨l, hnodup, ?_, by omega⟩
  intro u hu
  exact hc u (hcomes u hu)

/-- A task takes one, and is no longer on its way. -/
theorem Served.consume (h : Served s d) (hw : s'.waiters d ≠ [] ∨ s'.Placing d → s.waiters d ≠ [] ∨ s.Placing d)
    (hc : ∀ u ≠ t, s.Comes d u → s'.Comes d u) (ha : s'.avail d ≤ s.avail d - 1) (hl : s'.lockOf d = s.lockOf d) :
    Served s' d := by
  intro hs
  obtain ⟨l, hnodup, hcomes, hle⟩ := h (hw hs)
  refine ⟨l.erase t, hnodup.erase t, ?_, ?_⟩
  · intro u hu
    obtain ⟨hut, hul⟩ := hnodup.mem_erase_iff.mp hu
    exact hc u hut (hcomes u hul)
  · have hlen : l.length - 1 ≤ (l.erase t).length := l.le_length_erase
    rw [hl]
    omega

/-- The first waiting task joins those that stay on their way. -/
theorem Served.join (hp : ¬s'.Placing d) (hw : s'.waiters d = (s.waiters d).tail)
    (hhead : ∀ u rest, s.waiters d = u :: rest → s'.Comes d u)
    (hstay : s.waiters d ≠ [] → ∃ l : List ℕ, l.Nodup ∧ (∀ t ∈ l, s.Comes d t ∧ s'.Comes d t) ∧
      s'.avail d ≤ l.length + 1 + (s'.lockOf d).toNat) : Served s' d := by
  intro hs
  have hne := hs.resolve_right hp
  cases hlist : s.waiters d with
  | nil =>
    rw [hw, hlist] at hne
    exact absurd rfl hne
  | cons u rest =>
    obtain ⟨l, hnodup, hcomes, hle⟩ := hstay (by simp [hlist])
    have hul : u ∉ l := by
      intro hmem
      exact (hcomes u hmem).1.awake (by simp [hlist])
    refine ⟨u :: l, List.nodup_cons.mpr ⟨hul, hnodup⟩, ?_, hle⟩
    intro v hv
    rcases List.mem_cons.mp hv with rfl | hv
    · exact hhead _ rest hlist
    · exact (hcomes v hv).2

/-- One more is there, and the first waiting task is woken. -/
theorem Served.wake (h : Served s d) (hp : ¬s'.Placing d) (hw : s'.waiters d = (s.waiters d).tail)
    (hc : ∀ u, s.Comes d u → s'.Comes d u) (hhead : ∀ u rest, s.waiters d = u :: rest → s'.Comes d u)
    (ha : s'.avail d ≤ s.avail d + 1) (hl : s'.lockOf d = s.lockOf d) : Served s' d := by
  refine .join hp hw hhead ?_
  intro hne
  obtain ⟨l, hnodup, hcomes, hle⟩ := h (.inl hne)
  refine ⟨l, hnodup, fun u hu => ⟨hcomes u hu, hc u (hcomes u hu)⟩, ?_⟩
  rw [hl]
  omega

/-- A task has looked without taking anything, and wakes the next one in its place. -/
theorem Served.handOver (h : Served s d) (hp : ¬s'.Placing d) (hw : s'.waiters d = (s.waiters d).tail)
    (hc : ∀ u ≠ t, s.Comes d u → s'.Comes d u) (hhead : ∀ u rest, s.waiters d = u :: rest → s'.Comes d u)
    (ha : s'.avail d ≤ s.avail d) (hl : s'.lockOf d = s.lockOf d) : Served s' d := by
  refine .join hp hw hhead ?_
  intro hne
  obtain ⟨l, hnodup, hcomes, hle⟩ := h (.inl hne)
  refine ⟨l.erase t, hnodup.erase t, ?_, ?_⟩
  · intro u hu
    obtain ⟨hut, hul⟩ := hnodup.mem_erase_iff.mp hu
    exact ⟨hcomes u hul, hc u hut (hcomes u hul)⟩
  · have hlen : l.length - 1 ≤ (l.erase t).length := l.le_length_erase
    rw [hl]
    omega

/-- What was counted is made good: so many waiting tasks are woken. -/
theorem Served.unlock (h : Served s d) (hp : ¬s'.Placing d) (hw : s'.waiters d = (s.waiters d).drop (s.lockOf d).toNat)
    (hnodup : (s.waiters d).Nodup) (hc : ∀ u, s.Comes d u → s'.Comes d u)
    (hwoken : ∀ u ∈ (s.waiters d).take (s.lockOf d).toNat, s'.Comes d u) (ha : s'.avail d ≤ s.avail d) : Served s' d := by
  intro hs
  have hne := hs.resolve_right hp
  have hlong : (s.lockOf d).toNat < (s.waiters d).length := by
    by_contra hle
    exact hne (hw.trans (List.drop_eq_nil_of_le (Nat.le_of_not_lt hle)))
  obtain ⟨l, hl, hcomes, hle⟩ := h (.inl (List.ne_nil_of_length_pos (by omega)))
  refine ⟨l ++ (s.waiters d).take (s.lockOf d).toNat, ?_, ?_, ?_⟩
  · refine List.nodup_append.mpr ⟨hl, (List.take_sublist _ _).nodup hnodup, ?_⟩
    rintro u hu v hv rfl
    exact (hcomes u hu).awake (List.mem_of_mem_take hv)
  · intro u hu
    rcases List.mem_append.mp hu with hu | hu
    · exact hc u (hcomes u hu)
    · exact hwoken u hu
  · rw [List.length_append, List.length_take]
    omega

/-! ### Who holds what -/

structure Discipline (s : System) : Prop where
  holder : ∀ t, (s.task t).pc.suspends = true ↔ s.suspendedBy = some t
  locked : ∀ d t, s.suspendedBy = some t → (s.task t).pc.locks d = true → 0 ≤ s.lockOf d
  unlocked : ∀ d, (∀ t, s.suspendedBy = some t → (s.task t).pc.locks d = false) → s.lockOf d = -1
  members : ∀ d, ∀ u ∈ s.waiters d, (s.task u).pc.due = true ∧ (s.task u).request.side = d
  nodup : ∀ d, (s.waiters d).Nodup

/-- A critical section of a task changes that task, and may put it into a list. -/
theorem Discipline.step (h : Discipline s) (ht : s.suspendedBy = some t ∨ s.suspendedBy = none)
    (htask : ∀ u ≠ t, s'.task u = s.task u)
    (hsusp : s'.suspendedBy = if (s'.task t).pc.suspends then some t else none)
    (hlock : ∀ d, if (s'.task t).pc.locks d then 0 ≤ s'.lockOf d else s'.lockOf d = -1)
    (hmem : ∀ d, ∀ u ∈ s'.waiters d, u ∈ s.waiters d ∨ u = t)
    (hself : ∀ d, t ∈ s'.waiters d → (s'.task t).pc.due = true ∧ (s'.task t).request.side = d)
    (hnodup : ∀ d, (s'.waiters d).Nodup) : Discipline s' := by
  have hone (u : ℕ) (hu : s'.suspendedBy = some u) : u = t := by
    rw [hsusp] at hu
    split_ifs at hu
    exact (Option.some.inj hu).symm
  refine ⟨?_, ?_, ?_, ?_, hnodup⟩
  · intro u
    by_cases hut : u = t
    · subst hut
      rw [hsusp]
      split_ifs with hp <;> simp [hp]
    · rw [htask u hut, h.holder u]
      constructor
      · intro hu
        rcases ht with ht | ht
        · exact absurd (Option.some.inj (hu.symm.trans ht)) hut
        · exact absurd (hu.symm.trans ht) (by simp)
      · intro hu
        exact absurd (hone u hu) hut
  · intro d u hu hlocks
    obtain rfl := hone u hu
    have := hlock d
    rwa [if_pos hlocks] at this
  · intro d hall
    have hfree : (s'.task t).pc.locks d = false := by
      cases hp : (s'.task t).pc.suspends with
      | true => exact hall t (by rw [hsusp, if_pos hp])
      | false =>
        cases hl : (s'.task t).pc.locks d with
        | false => rfl
        | true => exact absurd (Pc.suspends_of_locks hl) (by simp [hp])
    have := hlock d
    rwa [hfree, if_neg Bool.false_ne_true] at this
  · intro d u hu
    by_cases hut : u = t
    · subst hut
      exact hself d hu
    · rw [htask u hut]
      exact h.members d u ((hmem d u hu).resolve_right hut)

/-- An interrupt changes no task. -/
theorem Discipline.isr (h : Discipline s) (htask : s'.task = s.task) (hsusp : s'.suspendedBy = s.suspendedBy)
    (hlock : ∀ d, s'.lockOf d = s.lockOf d ∨ 0 ≤ s.lockOf d ∧ 0 ≤ s'.lockOf d)
    (hsub : ∀ d, (s'.waiters d).Sublist (s.waiters d)) : Discipline s' := by
  refine ⟨?_, ?_, ?_, ?_, ?_⟩
  · intro t
    rw [htask, hsusp]
    exact h.holder t
  · intro d t ht hl
    rw [htask] at hl
    rw [hsusp] at ht
    have := h.locked d t ht hl
    rcases hlock d with heq | ⟨-, hpos⟩
    · rw [heq]
      exact this
    · exact hpos
  · intro d hall
    rw [hsusp, htask] at hall
    have := h.unlocked d hall
    rcases hlock d with heq | ⟨hpos, -⟩
    · rw [heq]
      exact this
    · omega
  · intro d u hu
    rw [htask]
    exact h.members d u ((hsub d).subset hu)
  · intro d
    exact (hsub d).nodup (h.nodup d)

theorem Discipline.not_placing (h : Discipline s) (hl : s.lockOf d = -1) : ¬s.Placing d := by
  rintro ⟨t, hpc, -⟩
  have hs := (h.holder t).mp (by rw [hpc]; rfl)
  have := h.locked d t hs (by rw [hpc]; cases d <;> rfl)
  omega

theorem Discipline.lock (h : Discipline s) (ht : s.suspendedBy = some t ∨ s.suspendedBy = none) (d : Side) :
    if (s.task t).pc.locks d then 0 ≤ s.lockOf d else s.lockOf d = -1 := by
  cases hl : (s.task t).pc.locks d with
  | true => exact h.locked d t ((h.holder t).mp (Pc.suspends_of_locks hl)) hl
  | false =>
    apply h.unlocked d
    intro u hu
    rcases ht with ht | ht
    · rw [ht] at hu
      cases hu
      exact hl
    · simp [ht] at hu

theorem Discipline.lock_cases (h : Discipline s) (d : Side) : s.lockOf d = -1 ∨ 0 ≤ s.lockOf d := by
  cases hs : s.suspendedBy with
  | none =>
    apply Or.inl
    apply h.unlocked d
    simp [hs]
  | some t =>
    have := h.lock (.inl hs) d
    split_ifs at this
    · exact .inr this
    · exact .inl this

theorem Discipline.lock_of_none (h : Discipline s) (hs : s.suspendedBy = none) (d : Side) : s.lockOf d = -1 :=
  h.unlocked d (by simp [hs])

theorem Discipline.not_waits (h : Discipline s) (hdue : (s.task t).pc.due = false) (d : Side) : t ∉ s.waiters d := by
  intro ht
  have := (h.members d t ht).1
  simp [hdue] at this

/-! ### Steps that leave the queue alone -/

theorem waiters_congr (h : s'.queue = s.queue) (d : Side) : s'.waiters d = s.waiters d := by cases d <;> simp [waiters, h]

theorem avail_congr (h : s'.queue = s.queue) (d : Side) : s'.avail d = s.avail d := by cases d <;> simp [avail, h]

theorem lockOf_congr (h : s'.queue = s.queue) (d : Side) : s'.lockOf d = s.lockOf d := by cases d <;> simp [lockOf, h]

theorem Comes.frame (h : s.Comes d u) (htask : s'.task u = s.task u) (hw : u ∈ s'.waiters d → u ∈ s.waiters d) :
    s'.Comes d u := by
  refine ⟨?_, ?_, fun hu => h.awake (hw hu)⟩
  · rw [htask]
    exact h.due
  · rw [htask]
    exact h.side

theorem Placing.frame (h : s'.Placing d) (htask : ∀ u ≠ t, s'.task u = s.task u)
    (hplace : ¬((s'.task t).pc = .place ∧ (s'.task t).request.side = d)) : s.Placing d := by
  obtain ⟨u, hu⟩ := h
  by_cases hut : u = t
  · subst hut
    exact absurd hu hplace
  · rw [htask u hut] at hu
    exact ⟨u, hu⟩

/-- Side `d` stays served when a task moves and has not been on its way, or still is. -/
theorem Served.move (h : Served s d) (htask : ∀ u ≠ t, s'.task u = s.task u)
    (hplace : ¬((s'.task t).pc = .place ∧ (s'.task t).request.side = d))
    (hdue : (s.task t).pc.due = true → (s.task t).request.side = d →
      (s'.task t).pc.due = true ∧ (s'.task t).request.side = d)
    (hw : s'.waiters d = s.waiters d)
    (ha : s'.avail d + (s.lockOf d).toNat ≤ s.avail d + (s'.lockOf d).toNat) : Served s' d := by
  refine h.mono ?_ ?_ ha
  · rintro (hne | hp)
    · exact .inl (hw ▸ hne)
    · exact .inr (hp.frame htask hplace)
  · intro u hu
    by_cases hut : u = t
    · subst hut
      obtain ⟨hdue', hside'⟩ := hdue hu.due hu.side
      exact ⟨hdue', hside', hw ▸ hu.awake⟩
    · exact hu.frame (htask u hut) (fun hmem => hw ▸ hmem)

/-- A task moves and the queue stays as it is. -/
theorem Discipline.move (h : Discipline s) (ht : s.suspendedBy = some t ∨ s.suspendedBy = none)
    (htask : ∀ u ≠ t, s'.task u = s.task u)
    (hsusp : s'.suspendedBy = if (s'.task t).pc.suspends then some t else none)
    (hlocks : ∀ d, (s'.task t).pc.locks d = (s.task t).pc.locks d) (hqueue : s'.queue = s.queue)
    (hself : ∀ d, t ∈ s.waiters d → (s'.task t).pc.due = true ∧ (s'.task t).request.side = d) : Discipline s' := by
  refine h.step ht htask hsusp ?_ ?_ ?_ ?_
  · intro d
    rw [hlocks, lockOf_congr hqueue]
    exact h.lock ht d
  · intro d u hu
    rw [waiters_congr hqueue] at hu
    exact .inl hu
  · intro d hu
    rw [waiters_congr hqueue] at hu
    exact hself d hu
  · intro d
    rw [waiters_congr hqueue]
    exact h.nodup d

/-- Everybody behaves, and nobody is forgotten. -/
structure Live (s : System) : Prop where
  discipline : Discipline s
  served : ∀ d, Served s d

theorem Live.move (h : Live s) (ht : s.suspendedBy = some t ∨ s.suspendedBy = none)
    (htask : ∀ u ≠ t, s'.task u = s.task u)
    (hsusp : s'.suspendedBy = if (s'.task t).pc.suspends then some t else none)
    (hlocks : ∀ d, (s'.task t).pc.locks d = (s.task t).pc.locks d) (hqueue : s'.queue = s.queue)
    (hplace : (s'.task t).pc ≠ .place)
    (hdue : (s.task t).pc.due = true → (s'.task t).pc.due = true ∧ (s'.task t).request = (s.task t).request) : Live s' := by
  refine ⟨h.discipline.move ht htask hsusp hlocks hqueue ?_, ?_⟩
  · intro d hu
    obtain ⟨hd, hside⟩ := h.discipline.members d t hu
    obtain ⟨hdue', hreq⟩ := hdue hd
    exact ⟨hdue', by rw [hreq]; exact hside⟩
  · intro d
    refine (h.served d).move htask (fun hp => hplace hp.1) ?_ (waiters_congr hqueue d) ?_
    · intro hd hside
      obtain ⟨hdue', hreq⟩ := hdue hd
      exact ⟨hdue', by rw [hreq]; exact hside⟩
    · rw [avail_congr hqueue, lockOf_congr hqueue]

/-- A task finds that there is nothing for it. -/
theorem Live.giveUp (h : Live s) (hs : s.suspendedBy = none) (hwait : ∀ d, t ∉ s.waiters d)
    (htask : ∀ u ≠ t, s'.task u = s.task u) (hsusp : s'.suspendedBy = none)
    (hpc : (s'.task t).pc = .idle ∨ (s'.task t).pc = .suspendAll) (hretry : (s.task t).pc = .retry)
    (hqueue : s'.queue = s.queue) (hnone : s.avail (s.task t).request.side = 0) : Live s' := by
  have hnot : (s'.task t).pc ≠ .place := by rcases hpc with hpc | hpc <;> simp [hpc]
  refine ⟨h.discipline.move (.inr hs) htask ?_ ?_ hqueue ?_, ?_⟩
  · rcases hpc with hpc | hpc <;> simp [hpc, hsusp, Pc.suspends]
  · intro d
    rcases hpc with hpc | hpc <;> cases d <;> simp [hpc, hretry, Pc.locks]
  · intro d hu
    exact absurd hu (hwait d)
  · intro d
    by_cases hside : (s.task t).request.side = d
    · apply served_of_none
      rw [avail_congr hqueue, ← hside]
      exact hnone
    · refine (h.served d).move htask (fun hp => hnot hp.1) (fun _ h => absurd h hside) (waiters_congr hqueue d) ?_
      rw [avail_congr hqueue, lockOf_congr hqueue]

/-! ### Steps that change the queue -/

/-- A woken task is on its way. -/
theorem Discipline.woken (h : Discipline s) (hu : u ∈ s.waiters d) (htask : s'.task u = s.task u) (hw : u ∉ s'.waiters d) :
    s'.Comes d u := by
  obtain ⟨hdue, hside⟩ := h.members d u hu
  exact ⟨by rw [htask]; exact hdue, by rw [htask]; exact hside, hw⟩

theorem Discipline.not_mem_tail (h : Discipline s) {rest : List ℕ} (hl : s.waiters d = u :: rest) :
    u ∉ (s.waiters d).tail := by
  have := h.nodup d
  rw [hl] at this ⊢
  exact (List.nodup_cons.mp this).1

/-- A call ends that had been on its way. -/
structure Ends (s s' : System) (t : ℕ) : Prop where
  free : s.suspendedBy = none
  free' : s'.suspendedBy = none
  awake : ∀ d, t ∉ s.waiters d
  others : ∀ u ≠ t, s'.task u = s.task u
  idle : (s'.task t).pc = .idle
  lock : ∀ d, s'.lockOf d = s.lockOf d

theorem Ends.discipline (e : Ends s s' t) (h : Discipline s) (hsub : ∀ d, (s'.waiters d).Sublist (s.waiters d)) :
    Discipline s' := by
  refine h.step (.inr e.free) e.others ?_ ?_ ?_ ?_ ?_
  · rw [e.idle, e.free']
    rfl
  · intro d
    rw [e.idle, e.lock, h.lock_of_none e.free]
    cases d <;> simp [Pc.locks]
  · intro d u hu
    exact .inl ((hsub d).subset hu)
  · intro d hu
    exact absurd ((hsub d).subset hu) (e.awake d)
  · intro d
    exact (hsub d).nodup (h.nodup d)

theorem Ends.not_placing (e : Ends s s' t) (h : Discipline s) (hsub : ∀ d, (s'.waiters d).Sublist (s.waiters d)) :
    ¬s'.Placing d := (e.discipline h hsub).not_placing ((e.lock d).trans (h.lock_of_none e.free d))

theorem Ends.frame (e : Ends s s' t) (hsub : (s'.waiters d).Sublist (s.waiters d)) (hut : u ≠ t) (hu : s.Comes d u) :
    s'.Comes d u := hu.frame (e.others u hut) fun hmem => hsub.subset hmem

/-- The first task that waits is not the one whose call ends. -/
theorem Ends.head (e : Ends s s' t) (h : Discipline s) (hw : s'.waiters d = (s.waiters d).tail) {rest : List ℕ}
    (hl : s.waiters d = u :: rest) : s'.Comes d u := by
  have hu : u ∈ s.waiters d := by simp [hl]
  have hut : u ≠ t := by
    rintro rfl
    exact e.awake d hu
  exact h.woken hu (e.others u hut) (by rw [hw]; exact h.not_mem_tail hl)

/-- The side of the task: what it took is gone. -/
theorem Ends.took (e : Ends s s' t) (h : Live s) (hsub : ∀ d, (s'.waiters d).Sublist (s.waiters d))
    (hw : s'.waiters d = s.waiters d) (ha : s'.avail d ≤ s.avail d - 1) : Served s' d := by
  refine (h.served d).consume ?_ (fun u hut hu => e.frame (hsub d) hut hu) ha (e.lock d)
  rintro (hne | hp)
  · exact .inl (hw ▸ hne)
  · exact absurd hp (e.not_placing h.discipline hsub)

/-- The other side: one more is there, and one task is woken. -/
theorem Ends.gave (e : Ends s s' t) (h : Live s) (hsub : ∀ d, (s'.waiters d).Sublist (s.waiters d))
    (hside : (s.task t).request.side ≠ d) (hw : s'.waiters d = (s.waiters d).tail) (ha : s'.avail d ≤ s.avail d + 1) :
    Served s' d := by
  refine (h.served d).wake (e.not_placing h.discipline hsub) hw ?_ (fun u rest hl => e.head h.discipline hw hl) ha (e.lock d)
  intro u hu
  have hut : u ≠ t := by
    rintro rfl
    exact hside hu.side
  exact e.frame (hsub d) hut hu

theorem sublist_of_tail {waiters waiters' : Side → List ℕ} (woken : Side)
    (hw : ∀ d, waiters' d = if d = woken then (waiters d).tail else waiters d) (d : Side) :
    (waiters' d).Sublist (waiters d) := by
  rw [hw d]
  split_ifs
  · exact List.tail_sublist _
  · exact List.Sublist.refl _

/-- A call that sends or receives. -/
theorem Live.pass (h : Live s) (e : Ends s s' t) (woken : Side) (hside : (s.task t).request.side ≠ woken)
    (hw : ∀ d, s'.waiters d = if d = woken then (s.waiters d).tail else s.waiters d)
    (htook : s'.avail (s.task t).request.side ≤ s.avail (s.task t).request.side - 1)
    (hgave : s'.avail woken ≤ s.avail woken + 1) : Live s' := by
  have hsub := sublist_of_tail woken hw
  refine ⟨e.discipline h.discipline hsub, ?_⟩
  intro d
  by_cases hd : d = woken
  · subst hd
    exact e.gave h hsub hside (by rw [hw, if_pos rfl]) hgave
  · have hown : d = (s.task t).request.side := by
      cases d <;> cases woken <;> cases hr : (s.task t).request.side <;> simp_all
    rw [hown] at hd ⊢
    exact e.took h hsub (by rw [hw, if_neg hd]) htook

/-- A call that only looks wakes the next one that may. -/
theorem Live.pass_on (h : Live s) (e : Ends s s' t)
    (hw : ∀ d, s'.waiters d = if d = (s.task t).request.side then (s.waiters d).tail else s.waiters d)
    (ha : ∀ d, s'.avail d = s.avail d) : Live s' := by
  have hsub := sublist_of_tail _ hw
  refine ⟨e.discipline h.discipline hsub, ?_⟩
  intro d
  by_cases hd : d = (s.task t).request.side
  · have htail : s'.waiters d = (s.waiters d).tail := by rw [hw, if_pos hd]
    exact (h.served d).handOver (e.not_placing h.discipline hsub) htail (fun u hut hu => e.frame (hsub d) hut hu)
      (fun u rest hl => e.head h.discipline htail hl) (ha d).le (e.lock d)
  · refine (h.served d).move e.others (by simp [e.idle]) (fun _ hside => absurd hside.symm hd) (by rw [hw, if_neg hd]) ?_
    rw [ha, e.lock]

/-- An event list of a queue that is unlocked: as many tasks are woken as were counted. -/
theorem Served.unlockStep (h : Served s d) (hd : Discipline s) (hd' : Discipline s') (hl : s'.lockOf d = -1)
    (htask : ∀ u ≠ t, s'.task u = s.task u) (hdue : (s'.task t).pc.due = (s.task t).pc.due)
    (hreq : (s'.task t).request = (s.task t).request)
    (hw : s'.waiters d = (s.waiters d).drop (s.lockOf d).toNat) (ha : s'.avail d ≤ s.avail d) : Served s' d := by
  have hsame (u : ℕ) : (s'.task u).pc.due = (s.task u).pc.due ∧ (s'.task u).request = (s.task u).request := by
    by_cases hut : u = t
    · subst hut
      exact ⟨hdue, hreq⟩
    · rw [htask u hut]
      exact ⟨rfl, rfl⟩
  refine h.unlock (hd'.not_placing hl) hw (hd.nodup d) ?_ ?_ ha
  · intro u hu
    refine ⟨(hsame u).1.trans hu.due, by rw [(hsame u).2]; exact hu.side, ?_⟩
    rw [hw]
    exact fun hmem => hu.awake (List.mem_of_mem_drop hmem)
  · intro u hu
    obtain ⟨hdu, hside⟩ := hd.members d u (List.mem_of_mem_take hu)
    refine ⟨(hsame u).1.trans hdu, by rw [(hsame u).2]; exact hside, ?_⟩
    rw [hw]
    intro hmem
    have hsplit := hd.nodup d
    rw [← List.take_append_drop (s.lockOf d).toNat (s.waiters d)] at hsplit
    exact (List.nodup_append.mp hsplit).2.2 u hu u hmem rfl

end System

end Ln882x.Kernel
