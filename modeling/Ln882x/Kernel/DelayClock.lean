import Ln882x.Kernel.Delay

/-! Delayed tasks on a clock that never wraps. A task waits for a deadline, and a tick makes
ready all tasks whose deadline it reaches. The two lists of the kernel and its 32-bit
count do the same, as long as no compensated tick jumps over a wrap of the count while
a task waits for a time before it: there the kernel stops in an assertion. -/

namespace Ln882x.Kernel

open Memory

/-- A task and the time it waits for. -/
structure Due where
  deadline : ℕ
  task : ℕ
  deriving DecidableEq

structure Clock where
  now : ℕ
  waiting : List Due

/-- How often the count of the kernel has wrapped. -/
def epoch (t : ℕ) : ℕ := t / 2 ^ 32

/-- The tick goes beyond a wrap, and a task waits for a time before it. -/
def Clock.Jumps (comp : ℕ) (c : Clock) : Prop :=
  epoch c.now < epoch (c.now + 1 + comp) ∧ ∃ w ∈ c.waiting, epoch w.deadline = epoch c.now

instance (comp : ℕ) (c : Clock) : Decidable (c.Jumps comp) := inferInstanceAs (Decidable (_ ∧ _))

/-- Waiting on a clock that never wraps. -/
def clock : Timers Clock where
  add := fun task n c => { c with waiting := insertBy Due.deadline ⟨c.now + n, task⟩ c.waiting }
  remove := fun task c => { c with waiting := c.waiting.filter fun w => w.task ≠ task }
  reset := id
  tick := fun comp c =>
    if c.Jumps comp then none
    else
      let now := c.now + 1 + comp
      some ((c.waiting.filter fun w => w.deadline ≤ now).map Due.task, ⟨now, c.waiting.filter fun w => now < w.deadline⟩)
  waitUntil := fun previous increment c =>
    if c.now < previous + increment then some (previous + increment - c.now) else none

/-! ### The lists and the clock -/

/-- The list item of a waiting task. -/
def Due.item (w : Due) : ListItem := ⟨w.deadline % 2 ^ 32, w.task⟩

/-- The lists hold the waiting tasks: those of this round of the count, and those of the next. -/
structure Tracks (c : Clock) (d : DelayedLists) : Prop where
  count : d.xTickCount = c.now % 2 ^ 32
  overflows : d.xNumOfOverflows = epoch c.now % 2 ^ 32
  order : InOrder Due.deadline c.waiting
  future : ∀ w ∈ c.waiting, c.now ≤ w.deadline ∧ w.deadline < c.now + 2 ^ 32
  lists : ∃ W₁ W₂, c.waiting = W₁ ++ W₂ ∧ d.pxDelayedTaskList = W₁.map Due.item ∧ d.pxOverflowDelayedTaskList = W₂.map Due.item ∧
    (∀ w ∈ W₁, epoch w.deadline = epoch c.now) ∧ ∀ w ∈ W₂, epoch w.deadline = epoch c.now + 1

/-- The next wake time is the first of the list as well. -/
def Exact (c : Clock) (d : DelayedLists) : Prop := Tracks c d ∧ d.xNextTaskUnblockTime = headValue d.pxDelayedTaskList

variable {c : Clock} {d : DelayedLists} {W : List Due} {l : List ListItem} {i : ListItem} {n t comp x : ℕ}

theorem vListInsert_eq (hl : ∀ j ∈ l, j.xItemValue ≤ portMaxDelay) :
    vListInsert l i = insertBy ListItem.xItemValue i l := by
  unfold vListInsert
  split_ifs with hmax
  · exact (insertBy_last fun j hj => hmax ▸ hl j hj).symm
  · rfl

theorem item_le (w : Due) : w.item.xItemValue ≤ portMaxDelay := by
  simp only [Due.item, portMaxDelay]
  omega

theorem items_le : ∀ j ∈ W.map Due.item, j.xItemValue ≤ portMaxDelay := by
  rw [List.forall_mem_map]
  exact fun w _ => item_le w

@[simp] theorem headValue_nil : headValue [] = portMaxDelay := rfl

@[simp] theorem headValue_cons (i : ListItem) (l : List ListItem) : headValue (i :: l) = i.xItemValue := rfl

theorem headValue_insertBy (hi : i.xItemValue ≤ portMaxDelay) :
    headValue (insertBy ListItem.xItemValue i l) = if i.xItemValue < headValue l then i.xItemValue else headValue l := by
  cases l with
  | nil =>
    rw [insertBy, headValue_cons, headValue_nil]
    split_ifs <;> omega
  | cons j l =>
    rw [insertBy, headValue_cons]
    by_cases hle : j.xItemValue ≤ i.xItemValue
    · rw [if_pos hle, if_neg (by omega), headValue_cons]
    · rw [if_neg hle, if_pos (by omega), headValue_cons]

/-- In one round of the count the wake times compare like the deadlines. -/
theorem map_insertBy_item {w : Due} (h : ∀ v ∈ W, epoch v.deadline = epoch w.deadline) :
    (insertBy Due.deadline w W).map Due.item = insertBy ListItem.xItemValue w.item (W.map Due.item) := by
  refine map_insertBy fun v hv => ?_
  have := h v hv
  simp only [Due.item, epoch] at *
  omega

theorem Exact.add (h : Exact c d) (hn : n < 2 ^ 32) : Exact (clock.add t n c) (delayedLists.add t n d) := by
  obtain ⟨⟨hcount, hover, horder, hfuture, W₁, W₂, hW, hd, ho, h₁, h₂⟩, hnext⟩ := h
  have hfuture' : ∀ w ∈ insertBy Due.deadline ⟨c.now + n, t⟩ c.waiting, c.now ≤ w.deadline ∧ w.deadline < c.now + 2 ^ 32 := by
    intro w hw
    rcases mem_insertBy.mp hw with rfl | hw
    · simp only
      omega
    · exact hfuture w hw
  have hitem : (⟨(d.xTickCount + n) % 2 ^ 32, t⟩ : ListItem) = (⟨c.now + n, t⟩ : Due).item := by
    simp only [Due.item, hcount]
    congr 1
    omega
  simp only [clock, delayedLists, DelayedLists.addTask]
  by_cases hwrap : (d.xTickCount + n) % 2 ^ 32 < d.xTickCount
  · -- the deadline is in the next round
    rw [if_pos hwrap]
    have hep : epoch (c.now + n) = epoch c.now + 1 := by
      simp only [epoch]
      omega
    refine ⟨⟨hcount, hover, horder.insertBy, hfuture', W₁, insertBy Due.deadline ⟨c.now + n, t⟩ W₂, ?_, hd, ?_, h₁, ?_⟩, hnext⟩
    · simp only [hW]
      refine insertBy_append_right fun w hw => ?_
      have := h₁ w hw
      simp only [epoch] at *
      omega
    · simp only
      rw [hitem, ho, vListInsert_eq items_le, map_insertBy_item]
      exact fun v hv => (h₂ v hv).trans hep.symm
    · intro w hw
      rcases mem_insertBy.mp hw with rfl | hw
      · exact hep
      · exact h₂ w hw
  · rw [if_neg hwrap]
    have hep : epoch (c.now + n) = epoch c.now := by
      simp only [epoch]
      omega
    have hins : vListInsert d.pxDelayedTaskList ⟨(d.xTickCount + n) % 2 ^ 32, t⟩ =
        insertBy ListItem.xItemValue (⟨c.now + n, t⟩ : Due).item d.pxDelayedTaskList := by
      rw [hitem, hd, vListInsert_eq items_le]
    refine ⟨⟨hcount, hover, horder.insertBy, hfuture', insertBy Due.deadline ⟨c.now + n, t⟩ W₁, W₂, ?_, ?_, ho, ?_, h₂⟩, ?_⟩
    · simp only [hW]
      refine insertBy_append_left fun w hw => ?_
      have := h₂ w hw
      simp only [epoch] at *
      omega
    · simp only
      rw [hins, hd, map_insertBy_item]
      exact fun v hv => (h₁ v hv).trans hep.symm
    · intro w hw
      rcases mem_insertBy.mp hw with rfl | hw
      · exact hep
      · exact h₁ w hw
    · have hval : (d.xTickCount + n) % 2 ^ 32 = (⟨c.now + n, t⟩ : Due).item.xItemValue := by rw [← hitem]
      simp only
      rw [hins, headValue_insertBy (item_le _), ← hnext, hval]

theorem Tracks.remove (h : Tracks c d) : Tracks (clock.remove t c) (delayedLists.remove t d) := by
  obtain ⟨hcount, hover, horder, hfuture, W₁, W₂, hW, hd, ho, h₁, h₂⟩ := h
  refine ⟨hcount, hover, horder.filter _, fun w hw => hfuture w (List.mem_of_mem_filter hw), W₁.filter fun w => w.task ≠ t,
    W₂.filter fun w => w.task ≠ t, ?_, ?_, ?_, fun w hw => h₁ w (List.mem_of_mem_filter hw),
    fun w hw => h₂ w (List.mem_of_mem_filter hw)⟩
  · simp [clock, hW]
  · simp only [delayedLists, DelayedLists.removeTask, hd, List.filter_map]
    rfl
  · simp only [delayedLists, DelayedLists.removeTask, ho, List.filter_map]
    rfl

theorem Tracks.reset (h : Tracks c d) : Exact (clock.reset c) (delayedLists.reset d) :=
  ⟨⟨h.count, h.overflows, h.order, h.future, h.lists⟩, rfl⟩

/-! ### A tick -/

/-- The loop takes the tasks from the front whose time has come. -/
theorem unblockLoop_eq (now : ℕ) (ho : InOrder Due.deadline W) (he : ∀ w ∈ W, epoch w.deadline = epoch now) :
    DelayedLists.unblockLoop (now % 2 ^ 32) (W.map Due.item) =
      ((W.filter fun w => w.deadline ≤ now).map Due.task, (W.filter fun w => now < w.deadline).map Due.item,
        headValue ((W.filter fun w => now < w.deadline).map Due.item)) := by
  induction W with
  | nil => rfl
  | cons w W ih =>
    obtain ⟨hw, ho⟩ := List.pairwise_cons.mp ho
    obtain ⟨hew, he⟩ := List.forall_mem_cons.mp he
    have hcmp : now % 2 ^ 32 < w.item.xItemValue ↔ now < w.deadline := by
      simp only [Due.item, epoch] at *
      omega
    rw [List.map_cons, DelayedLists.unblockLoop]
    by_cases hlt : now < w.deadline
    · have hall : ∀ v ∈ w :: W, now < v.deadline := by
        refine List.forall_mem_cons.mpr ⟨hlt, fun v hv => ?_⟩
        exact hlt.trans_le (hw v hv)
      have hnone : (w :: W).filter (fun v => decide (v.deadline ≤ now)) = [] := by
        rw [List.filter_eq_nil_iff]
        intro v hv
        have := hall v hv
        simp
        omega
      have hself : (w :: W).filter (fun v => decide (now < v.deadline)) = w :: W := by
        rw [List.filter_eq_self]
        intro v hv
        simpa using hall v hv
      rw [if_pos (hcmp.mpr hlt), hnone, hself]
      rfl
    · rw [if_neg (fun hx => hlt (hcmp.mp hx)), ih ho he]
      have hle : w.deadline ≤ now := by omega
      simp [hle, hlt, Due.item]

theorem unblockLoop_of_lt (h : x < headValue l) : DelayedLists.unblockLoop x l = ([], l, headValue l) := by
  cases l with
  | nil => rfl
  | cons i l =>
    have hi : x < i.xItemValue := h
    rw [DelayedLists.unblockLoop, if_pos hi]
    rfl

/-- Without a wrap. -/
theorem incrementTick_eq (hnext : d.xNextTaskUnblockTime = headValue d.pxDelayedTaskList)
    (hx : x = (d.xTickCount + 1 + comp) % 2 ^ 32) (hwrap : d.xTickCount ≤ x) :
    DelayedLists.incrementTick comp d = some ((DelayedLists.unblockLoop x d.pxDelayedTaskList).1,
      { d with
        xTickCount := x
        pxDelayedTaskList := (DelayedLists.unblockLoop x d.pxDelayedTaskList).2.1
        xNextTaskUnblockTime := (DelayedLists.unblockLoop x d.pxDelayedTaskList).2.2 }) := by
  simp only [DelayedLists.incrementTick, ← hx, if_neg (show ¬x < d.xTickCount by omega), Option.bind_eq_bind, Option.bind_some]
  by_cases hge : x ≥ d.xNextTaskUnblockTime
  · rw [if_pos hge]
    rfl
  · rw [if_neg hge, unblockLoop_of_lt (by omega), ← hnext]
    rfl

/-- With a wrap: the list must be empty, and the other one takes its place. -/
theorem incrementTick_wrap (hx : x = (d.xTickCount + 1 + comp) % 2 ^ 32) (hwrap : x < d.xTickCount) :
    DelayedLists.incrementTick comp d = if d.pxDelayedTaskList = [] then
        some ((DelayedLists.unblockLoop x d.pxOverflowDelayedTaskList).1,
          { xTickCount := x
            xNextTaskUnblockTime := (DelayedLists.unblockLoop x d.pxOverflowDelayedTaskList).2.2
            xNumOfOverflows := (d.xNumOfOverflows + 1) % 2 ^ 32
            pxDelayedTaskList := (DelayedLists.unblockLoop x d.pxOverflowDelayedTaskList).2.1
            pxOverflowDelayedTaskList := [] })
      else none := by
  simp only [DelayedLists.incrementTick, ← hx, if_pos hwrap, DelayedLists.switchDelayedLists, configAssert, List.isEmpty_iff,
    DelayedLists.prvResetNextTaskUnblockTime]
  by_cases hnil : d.pxDelayedTaskList = []
  · simp only [hnil, if_true, Option.bind_eq_bind, Option.bind_some]
    by_cases hge : x ≥ headValue d.pxOverflowDelayedTaskList
    · simp [hge]
    · simp [hge, unblockLoop_of_lt (Nat.lt_of_not_le hge)]
  · simp [hnil]

/-- The tasks that a tick does not wake are those of a later deadline, all in one round. -/
theorem filter_lt_eq {W₂ : List Due} {now : ℕ} (h₂ : ∀ w ∈ W₂, epoch now < epoch w.deadline) :
    W₂.filter (fun w => decide (w.deadline ≤ now)) = [] ∧ W₂.filter (fun w => decide (now < w.deadline)) = W₂ := by
  rw [List.filter_eq_nil_iff, List.filter_eq_self]
  constructor
  · intro w hw
    have := h₂ w hw
    simp only [epoch] at this
    simp
    omega
  · intro w hw
    have := h₂ w hw
    simp only [epoch] at this
    simp
    omega

theorem Exact.tick (h : Exact c d) (hcomp : comp < 2 ^ 16) :
    (clock.tick comp c = none ∧ delayedLists.tick comp d = none) ∨
      ∃ woken c' d', clock.tick comp c = some (woken, c') ∧ delayedLists.tick comp d = some (woken, d') ∧ Exact c' d' := by
  obtain ⟨⟨hcount, hover, horder, hfuture, W₁, W₂, hW, hd, ho, h₁, h₂⟩, hnext⟩ := h
  have hx : (c.now + 1 + comp) % 2 ^ 32 = (d.xTickCount + 1 + comp) % 2 ^ 32 := by omega
  have hrest : ∀ w ∈ c.waiting.filter (fun w => decide (c.now + 1 + comp < w.deadline)),
      c.now + 1 + comp ≤ w.deadline ∧ w.deadline < c.now + 1 + comp + 2 ^ 32 := by
    intro w hw
    obtain ⟨hmem, hlt⟩ := List.mem_filter.mp hw
    have := hfuture w hmem
    simp only [decide_eq_true_eq] at hlt
    omega
  simp only [clock, delayedLists]
  by_cases hwrap : (c.now + 1 + comp) % 2 ^ 32 < d.xTickCount
  · have hep : epoch (c.now + 1 + comp) = epoch c.now + 1 := by
      simp only [epoch]
      omega
    rw [incrementTick_wrap hx hwrap]
    by_cases hnil : d.pxDelayedTaskList = []
    · -- the second list takes the place of the first
      have hW₁ : W₁ = [] := by
        rw [hd, List.map_eq_nil_iff] at hnil
        exact hnil
      subst hW₁
      rw [List.nil_append] at hW
      have hno : ¬c.Jumps comp := by
        rintro ⟨-, w, hw, heq⟩
        have := h₂ w (hW ▸ hw)
        omega
      right
      rw [if_neg hno, if_pos hnil, ho, unblockLoop_eq (c.now + 1 + comp) (hW ▸ horder) (fun w hw => (h₂ w hw).trans hep.symm)]
      refine ⟨_, _, _, rfl, by rw [hW], ⟨rfl, ?_, horder.filter _, hrest, W₂.filter _, [], ?_, rfl, rfl, ?_, by simp⟩, rfl⟩
      · simp only [hover, hep]
        omega
      · simp only [hW, List.append_nil]
      · exact fun w hw => (h₂ w (List.mem_of_mem_filter hw)).trans hep.symm
    · left
      have hjump : c.Jumps comp := by
        have hne : W₁ ≠ [] := by
          rintro rfl
          exact hnil hd
        obtain ⟨w, W, rfl⟩ := List.exists_cons_of_ne_nil hne
        exact ⟨by omega, w, by simp [hW], h₁ w (by simp)⟩
      rw [if_pos hjump, if_neg hnil]
      exact ⟨rfl, rfl⟩
  · have hep : epoch (c.now + 1 + comp) = epoch c.now := by
      simp only [epoch]
      omega
    have hno : ¬c.Jumps comp := by
      rintro ⟨hlt, -⟩
      omega
    obtain ⟨hnone, hall⟩ := @filter_lt_eq _ (c.now + 1 + comp) fun w hw => by
      have := h₂ w hw
      omega
    right
    rw [if_neg hno, incrementTick_eq hnext hx (by omega), hd, unblockLoop_eq (c.now + 1 + comp)
      (List.pairwise_append.mp (hW ▸ horder)).1 (fun w hw => (h₁ w hw).trans hep.symm)]
    have hwoken : W₁.filter (fun w => decide (w.deadline ≤ c.now + 1 + comp)) =
        c.waiting.filter (fun w => decide (w.deadline ≤ c.now + 1 + comp)) := by
      rw [hW, List.filter_append, hnone, List.append_nil]
    rw [hwoken]
    refine ⟨_, _, _, rfl, rfl, ⟨rfl, ?_, horder.filter _, hrest, W₁.filter _, W₂, ?_, rfl, ho, ?_, ?_⟩, rfl⟩
    · rw [hover, hep]
    · rw [hW, List.filter_append, hall]
    · exact fun w hw => (h₁ w (List.mem_of_mem_filter hw)).trans hep.symm
    · exact fun w hw => (h₂ w hw).trans (by rw [hep])

/-- `vTaskDelayUntil` waits for the previous wake time and the increment, if that is not past. -/
theorem Tracks.waitUntil {p : ℕ} (h : Tracks c d) (hp : p ≤ c.now ∧ c.now < p + 2 ^ 32) (hn : n < 2 ^ 32) :
    delayedLists.waitUntil p n d = clock.waitUntil p n c := by
  have hcount := h.count
  simp only [delayedLists, clock, DelayedLists.delayUntil, hcount]
  by_cases hwait : c.now < p + n
  · have hshould : if c.now % 2 ^ 32 < p % 2 ^ 32 then
        (p % 2 ^ 32 + n) % 2 ^ 32 < p % 2 ^ 32 ∧ (p % 2 ^ 32 + n) % 2 ^ 32 > c.now % 2 ^ 32
      else (p % 2 ^ 32 + n) % 2 ^ 32 < p % 2 ^ 32 ∨ (p % 2 ^ 32 + n) % 2 ^ 32 > c.now % 2 ^ 32 := by
      split_ifs <;> omega
    rw [if_pos hshould, if_pos hwait]
    congr 1
    omega
  · have hshould : ¬if c.now % 2 ^ 32 < p % 2 ^ 32 then
        (p % 2 ^ 32 + n) % 2 ^ 32 < p % 2 ^ 32 ∧ (p % 2 ^ 32 + n) % 2 ^ 32 > c.now % 2 ^ 32
      else (p % 2 ^ 32 + n) % 2 ^ 32 < p % 2 ^ 32 ∨ (p % 2 ^ 32 + n) % 2 ^ 32 > c.now % 2 ^ 32 := by
      split_ifs <;> omega
    rw [if_neg hshould, if_neg hwait]

end Ln882x.Kernel
