import Mathlib.Logic.Function.Basic
import Mathlib.Data.List.Infix
import Ln882x.Runtime.Machine

/-! Registration for sleep, from `hal_sleep.c`. A module that registers gets its bit of a word
and an entry with its interrupt and its callbacks; four of the timers set the bit of the first
one too, which is taken back only when the first one leaves. So the bookkeeping is right as
long as none of the four is registered without the first. -/

namespace Ln882x.Sleep

open Ln882x.Runtime (Machine)

/-! ### Modules and their interrupts -/

-- `hal_peripheral_module_t`
@[match_pattern] abbrev modQspi : ℕ := 1
@[match_pattern] abbrev modAddc : ℕ := 2
@[match_pattern] abbrev modI2s : ℕ := 3
@[match_pattern] abbrev modGpio : ℕ := 4
@[match_pattern] abbrev modSpim : ℕ := 5
@[match_pattern] abbrev modSpis : ℕ := 6
@[match_pattern] abbrev modI2c0 : ℕ := 7
@[match_pattern] abbrev modI2c1 : ℕ := 8
@[match_pattern] abbrev modUart0 : ℕ := 9
@[match_pattern] abbrev modUart1 : ℕ := 10
@[match_pattern] abbrev modSpim2 : ℕ := 11
@[match_pattern] abbrev modWdt : ℕ := 12
@[match_pattern] abbrev modTimer : ℕ := 13
@[match_pattern] abbrev modTimer1 : ℕ := 14
@[match_pattern] abbrev modTimer2 : ℕ := 15
@[match_pattern] abbrev modTimer3 : ℕ := 16
@[match_pattern] abbrev modTimer4 : ℕ := 17
@[match_pattern] abbrev modSdio : ℕ := 19
@[match_pattern] abbrev modMac : ℕ := 20
@[match_pattern] abbrev modDma : ℕ := 22
@[match_pattern] abbrev modPwm : ℕ := 24
@[match_pattern] abbrev modTrng : ℕ := 26
@[match_pattern] abbrev modAes : ℕ := 27
@[match_pattern] abbrev modExtInt : ℕ := 28

def modMax : ℕ := 29

/-- The interrupt of a module, 0 for those without one. -/
def halSleepPeripheralModuleToIrqn : ℕ → ℕ
  | modQspi => 6
  | modAddc => 22
  | modI2s => 32
  | modGpio => 31
  | modSpim => 26
  | modSpis => 27
  | modI2c0 => 24
  | modI2c1 => 25
  | modUart0 => 28
  | modUart1 => 29
  | modSpim2 => 30
  | modWdt => 0
  | modTimer | modTimer1 | modTimer2 | modTimer3 | modTimer4 => 23
  | modSdio => 7
  | modMac => 4
  | modDma => 5
  | modPwm => 34
  | modTrng => 35
  | modAes => 36
  | modExtInt => 1
  | _ => 0

/-- `MOD_TIMER1` to `MOD_TIMER4`. -/
def isTimerN (m : ℕ) : Bool := modTimer1 = m || modTimer2 = m || modTimer3 = m || modTimer4 = m

/-! ### The configuration -/

/-- The address of a callback. -/
abbrev Callback := ℕ

/-- `hal_sleep_action_t`; a missing callback is a null pointer. -/
structure HalSleepAction where
  irqNum : ℕ
  sleepCondition : Option Callback
  preSleep : Option Callback
  postSleep : Option Callback
  deriving DecidableEq

def HalSleepAction.zero : HalSleepAction := ⟨0, none, none, none⟩

inductive SleepMode
  | active
  | lightSleep
  | deepSleep
  | retentionSleep
  | frozenSleep
  deriving DecidableEq

/-- `hal_sleep_config_t` -/
structure HalSleepConfig where
  sleepMode : SleepMode
  peripheralMod : BitVec 32
  actions : ℕ → HalSleepAction

/-- Before anything is registered. -/
def HalSleepConfig.zero : HalSleepConfig := ⟨.active, 0, fun _ => .zero⟩

def lnSetBit (x : BitVec 32) (n : ℕ) : BitVec 32 := x ||| (1#32 <<< n)

def lnClrBit (x : BitVec 32) (n : ℕ) : BitVec 32 := x &&& ~~~(1#32 <<< n)

def halSleepRegister (m : ℕ) (sleepCondition preSleep postSleep : Option Callback) (config : HalSleepConfig) :
    ℤ × HalSleepConfig :=
  if m ≥ modMax ∨ m < modQspi then (-1, config)
  else
    let bits := lnSetBit config.peripheralMod m
    let bits := if isTimerN m then lnSetBit bits modTimer else bits
    let action := config.actions m
    (0, { config with
      peripheralMod := bits
      actions := Function.update config.actions m
        { irqNum := halSleepPeripheralModuleToIrqn m
          sleepCondition := sleepCondition.or action.sleepCondition
          preSleep := preSleep.or action.preSleep
          postSleep := postSleep.or action.postSleep } })

def halSleepUnregister (m : ℕ) (config : HalSleepConfig) : ℤ × HalSleepConfig :=
  if m ≥ modMax ∨ m < modQspi then (-1, config)
  else (0, { config with
    peripheralMod := lnClrBit config.peripheralMod m
    actions := Function.update config.actions m .zero })

inductive Call
  | register (m : ℕ) (sleepCondition preSleep postSleep : Option Callback)
  | unregister (m : ℕ)

/-- The module that a call is about. -/
def Call.mod : Call → ℕ
  | .register m _ _ _ => m
  | .unregister m => m

def Call.run : Call → HalSleepConfig → ℤ × HalSleepConfig
  | .register m sleepCondition preSleep postSleep, config =>
    halSleepRegister m sleepCondition preSleep postSleep config
  | .unregister m, config => halSleepUnregister m config

def registry : Machine HalSleepConfig Call ℤ where
  step config call := call.run config
  may _ _ := True

/-! ### What should be kept -/

/-- Which modules are registered after a call. -/
def noteCall (registered : ℕ → Bool) (call : Call) : ℕ → Bool :=
  if call.mod ≥ modMax ∨ call.mod < modQspi then registered
  else match call with
    | .register m _ _ _ => Function.update registered m true
    | .unregister m => Function.update registered m false

def registeredAfter (calls : List Call) : ℕ → Bool := calls.foldl noteCall fun _ => false

/-- The configuration after some calls. -/
def configAfter (calls : List Call) : HalSleepConfig := registry.after .zero calls

/-- A timer is registered. -/
def anyTimer (registered : ℕ → Bool) : Bool :=
  registered modTimer || registered modTimer1 || registered modTimer2 || registered modTimer3 || registered modTimer4

/-- The bookkeeping after some calls. -/
structure Booked (calls : List Call) : Prop where
  bit : ∀ m, m ≠ modTimer → (configAfter calls).peripheralMod.getLsbD m = registeredAfter calls m
  timer : (configAfter calls).peripheralMod.getLsbD modTimer = anyTimer (registeredAfter calls)
  irq : ∀ m, (configAfter calls).peripheralMod.getLsbD m = true →
    ((configAfter calls).actions m).irqNum = halSleepPeripheralModuleToIrqn m
  callbacks : ∀ before m sleepCondition preSleep postSleep later,
    calls = before ++ .register m sleepCondition preSleep postSleep :: later → modQspi ≤ m → m < modMax →
    registeredAfter before m = false → (∀ call ∈ later, call.mod ≠ m) →
    (configAfter calls).actions m = ⟨halSleepPeripheralModuleToIrqn m, sleepCondition, preSleep, postSleep⟩

/-- None of the other timers is registered without the first. -/
def TimerFirst (calls : List Call) : Prop :=
  anyTimer (registeredAfter calls) = true → registeredAfter calls modTimer = true

/-! ### One call -/

theorem getLsbD_bit {n : ℕ} (hn : n < 32) (m : ℕ) : (1#32 <<< n).getLsbD m = decide (m = n) := by
  rw [← BitVec.twoPow_eq, BitVec.getLsbD_twoPow, decide_eq_true hn, Bool.true_and]
  exact decide_eq_decide.mpr eq_comm

theorem getLsbD_lnSetBit (x : BitVec 32) {n : ℕ} (hn : n < 32) (m : ℕ) :
    (lnSetBit x n).getLsbD m = (x.getLsbD m || decide (m = n)) := by
  rw [lnSetBit, BitVec.getLsbD_or, getLsbD_bit hn]

theorem getLsbD_lnClrBit (x : BitVec 32) {n : ℕ} (hn : n < 32) (m : ℕ) :
    (lnClrBit x n).getLsbD m = (x.getLsbD m && !decide (m = n)) := by
  rw [lnClrBit, BitVec.getLsbD_and, BitVec.getLsbD_not, getLsbD_bit hn]
  by_cases hm : m < 32
  · rw [decide_eq_true hm, Bool.true_and]
  · rw [BitVec.getLsbD_of_ge _ _ (Nat.le_of_not_lt hm), Bool.false_and, Bool.false_and]

/-- What the configuration says of the registered modules whatever the order of the calls. -/
structure Kept (registered : ℕ → Bool) (config : HalSleepConfig) : Prop where
  bit : ∀ m, m ≠ modTimer → config.peripheralMod.getLsbD m = registered m
  timer : registered modTimer = true → config.peripheralMod.getLsbD modTimer = true
  irq : ∀ m, registered m = true → (config.actions m).irqNum = halSleepPeripheralModuleToIrqn m
  cleared : ∀ m, registered m = false → config.actions m = .zero

theorem kept_zero : Kept (fun _ => false) .zero where
  bit _ _ := BitVec.getLsbD_zero
  timer h := absurd h Bool.false_ne_true
  irq _ h := absurd h Bool.false_ne_true
  cleared _ _ := rfl

section Calls

variable {registered : ℕ → Bool} {config : HalSleepConfig} {m : ℕ} {sleepCondition preSleep postSleep : Option Callback}

theorem isTimerN_iff (m : ℕ) : isTimerN m = true ↔ m = modTimer1 ∨ m = modTimer2 ∨ m = modTimer3 ∨ m = modTimer4 := by
  simp only [isTimerN, Bool.or_eq_true, decide_eq_true_eq, or_assoc]
  omega

theorem noteCall_register (hlow : modQspi ≤ m) (hhigh : m < modMax) :
    noteCall registered (.register m sleepCondition preSleep postSleep) = Function.update registered m true := by
  rw [noteCall, Call.mod, if_neg (by omega)]

theorem noteCall_unregister (hlow : modQspi ≤ m) (hhigh : m < modMax) :
    noteCall registered (.unregister m) = Function.update registered m false := by
  rw [noteCall, Call.mod, if_neg (by omega)]

theorem actions_register (hlow : modQspi ≤ m) (hhigh : m < modMax) :
    (halSleepRegister m sleepCondition preSleep postSleep config).2.actions =
      Function.update config.actions m
        ⟨halSleepPeripheralModuleToIrqn m, sleepCondition.or (config.actions m).sleepCondition,
          preSleep.or (config.actions m).preSleep, postSleep.or (config.actions m).postSleep⟩ := by
  rw [halSleepRegister, if_neg (by omega)]

theorem actions_unregister (hlow : modQspi ≤ m) (hhigh : m < modMax) :
    (halSleepUnregister m config).2.actions = Function.update config.actions m .zero := by
  rw [halSleepUnregister, if_neg (by omega)]

/-- The bits after a registration. -/
theorem getLsbD_register (hlow : modQspi ≤ m) (hhigh : m < modMax) (n : ℕ) :
    (halSleepRegister m sleepCondition preSleep postSleep config).2.peripheralMod.getLsbD n =
      (config.peripheralMod.getLsbD n || decide (n = m) || (isTimerN m && decide (n = modTimer))) := by
  have hm : m < 32 := Nat.lt_trans hhigh (by decide)
  rw [halSleepRegister, if_neg (by omega)]
  simp only
  cases isTimerN m with
  | true => rw [if_pos rfl, getLsbD_lnSetBit _ (by decide), getLsbD_lnSetBit _ hm, Bool.true_and]
  | false => rw [if_neg Bool.false_ne_true, getLsbD_lnSetBit _ hm, Bool.false_and, Bool.or_false]

theorem getLsbD_unregister (hlow : modQspi ≤ m) (hhigh : m < modMax) (n : ℕ) :
    (halSleepUnregister m config).2.peripheralMod.getLsbD n = (config.peripheralMod.getLsbD n && !decide (n = m)) := by
  rw [halSleepUnregister, if_neg (by omega)]
  exact getLsbD_lnClrBit _ (Nat.lt_trans hhigh (by decide)) n

theorem Kept.register (h : Kept registered config) (hlow : modQspi ≤ m) (hhigh : m < modMax) :
    Kept (Function.update registered m true) (halSleepRegister m sleepCondition preSleep postSleep config).2 := by
  refine ⟨fun n hn => ?_, fun htimer => ?_, fun n hreg => ?_, fun n hreg => ?_⟩
  · rw [getLsbD_register hlow hhigh, decide_eq_false hn, Bool.and_false, Bool.or_false, h.bit n hn]
    by_cases hnm : n = m
    · rw [hnm, Function.update_self, decide_eq_true rfl, Bool.or_true]
    · rw [Function.update_of_ne hnm, decide_eq_false hnm, Bool.or_false]
  · rw [getLsbD_register hlow hhigh]
    by_cases hm : modTimer = m
    · rw [decide_eq_true hm, Bool.or_true, Bool.true_or]
    · rw [Function.update_of_ne hm] at htimer
      rw [h.timer htimer, Bool.true_or, Bool.true_or]
  · rw [actions_register hlow hhigh]
    by_cases hnm : n = m
    · rw [hnm, Function.update_self]
    · rw [Function.update_of_ne hnm] at hreg ⊢
      exact h.irq n hreg
  · rw [actions_register hlow hhigh]
    by_cases hnm : n = m
    · rw [hnm, Function.update_self] at hreg
      cases hreg
    · rw [Function.update_of_ne hnm] at hreg ⊢
      exact h.cleared n hreg

theorem Kept.unregister (h : Kept registered config) (hlow : modQspi ≤ m) (hhigh : m < modMax) :
    Kept (Function.update registered m false) (halSleepUnregister m config).2 := by
  refine ⟨fun n hn => ?_, fun htimer => ?_, fun n hreg => ?_, fun n hreg => ?_⟩
  · rw [getLsbD_unregister hlow hhigh, h.bit n hn]
    by_cases hnm : n = m
    · rw [hnm, Function.update_self, decide_eq_true rfl, Bool.not_true, Bool.and_false]
    · rw [Function.update_of_ne hnm, decide_eq_false hnm, Bool.not_false, Bool.and_true]
  · rw [getLsbD_unregister hlow hhigh]
    by_cases hm : modTimer = m
    · rw [hm, Function.update_self] at htimer
      cases htimer
    · rw [Function.update_of_ne hm] at htimer
      rw [h.timer htimer, decide_eq_false hm]
      rfl
  · rw [actions_unregister hlow hhigh]
    by_cases hnm : n = m
    · rw [hnm, Function.update_self] at hreg
      cases hreg
    · rw [Function.update_of_ne hnm] at hreg ⊢
      exact h.irq n hreg
  · rw [actions_unregister hlow hhigh]
    by_cases hnm : n = m
    · rw [hnm, Function.update_self]
    · rw [Function.update_of_ne hnm] at hreg ⊢
      exact h.cleared n hreg

/-- A call for no module changes nothing. -/
theorem run_of_bad {call : Call} (h : call.mod ≥ modMax ∨ call.mod < modQspi) : (call.run config).2 = config := by
  cases call with
  | register m c p q => exact congrArg Prod.snd (if_pos h)
  | unregister m => exact congrArg Prod.snd (if_pos h)

theorem noteCall_of_bad {call : Call} (h : call.mod ≥ modMax ∨ call.mod < modQspi) :
    noteCall registered call = registered := if_pos h

theorem Kept.call (h : Kept registered config) (call : Call) : Kept (noteCall registered call) (call.run config).2 := by
  by_cases hbad : call.mod ≥ modMax ∨ call.mod < modQspi
  · rw [run_of_bad hbad, noteCall_of_bad hbad]
    exact h
  · cases call with
    | register m c p q =>
      simp only [Call.mod] at hbad
      rw [noteCall_register (by omega) (by omega)]
      exact h.register (by omega) (by omega)
    | unregister m =>
      simp only [Call.mod] at hbad
      rw [noteCall_unregister (by omega) (by omega)]
      exact h.unregister (by omega) (by omega)

/-- A call about another module leaves an entry alone. -/
theorem actions_of_ne {call : Call} (hne : call.mod ≠ m) : (call.run config).2.actions m = config.actions m := by
  by_cases hbad : call.mod ≥ modMax ∨ call.mod < modQspi
  · rw [run_of_bad hbad]
  · cases call with
    | register n c p q =>
      simp only [Call.mod] at hbad hne
      rw [Call.run, actions_register (by omega) (by omega)]
      exact Function.update_of_ne hne.symm _ _
    | unregister n =>
      simp only [Call.mod] at hbad hne
      rw [Call.run, actions_unregister (by omega) (by omega)]
      exact Function.update_of_ne hne.symm _ _

end Calls

/-! ### Runs -/

theorem registeredAfter_concat (calls : List Call) (call : Call) :
    registeredAfter (calls ++ [call]) = noteCall (registeredAfter calls) call := List.foldl_concat ..

theorem configAfter_concat (calls : List Call) (call : Call) :
    configAfter (calls ++ [call]) = (call.run (configAfter calls)).2 := Machine.after_concat calls call

theorem kept_after (calls : List Call) : Kept (registeredAfter calls) (configAfter calls) := by
  induction calls using List.reverseRecOn with
  | nil => exact kept_zero
  | append_singleton calls call ih =>
    rw [registeredAfter_concat, configAfter_concat]
    exact ih.call call

theorem actions_after_of_ne {m : ℕ} (before : List Call) {later : List Call} (h : ∀ call ∈ later, call.mod ≠ m) :
    (configAfter (before ++ later)).actions m = (configAfter before).actions m := by
  induction later using List.reverseRecOn with
  | nil => rw [List.append_nil]
  | append_singleton later call ih =>
    rw [← List.append_assoc, configAfter_concat, actions_of_ne (h call (by simp))]
    exact ih fun c hc => h c (by simp [hc])

/-- A module that registers while it is not registered has exactly these callbacks. -/
theorem callbacks_after {before later : List Call} {m : ℕ} {sleepCondition preSleep postSleep : Option Callback}
    (hlow : modQspi ≤ m) (hhigh : m < modMax) (hreg : registeredAfter before m = false)
    (hlater : ∀ call ∈ later, call.mod ≠ m) :
    (configAfter (before ++ .register m sleepCondition preSleep postSleep :: later)).actions m =
      ⟨halSleepPeripheralModuleToIrqn m, sleepCondition, preSleep, postSleep⟩ := by
  have hsplit : before ++ .register m sleepCondition preSleep postSleep :: later =
      (before ++ [.register m sleepCondition preSleep postSleep]) ++ later := by simp
  have hclear := (kept_after before).cleared m hreg
  rw [hsplit, actions_after_of_ne _ hlater, configAfter_concat, Call.run, actions_register hlow hhigh,
    Function.update_self, hclear]
  simp [HalSleepAction.zero]

section Order

variable {calls : List Call}

theorem anyTimer_of_timer {registered : ℕ → Bool} (h : registered modTimer = true) : anyTimer registered = true := by
  rw [anyTimer, h, Bool.true_or, Bool.true_or, Bool.true_or, Bool.true_or]

theorem anyTimer_of_timerN {registered : ℕ → Bool} {m : ℕ} (hm : isTimerN m = true) (h : registered m = true) :
    anyTimer registered = true := by
  rw [isTimerN_iff] at hm
  rcases hm with rfl | rfl | rfl | rfl <;> simp [anyTimer, h]

/-- If at no time another timer is registered without the first, the bit of the first tells whether
it is registered. -/
theorem timer_bit (h : ∀ before, before <+: calls → TimerFirst before) :
    (configAfter calls).peripheralMod.getLsbD modTimer = registeredAfter calls modTimer := by
  induction calls using List.reverseRecOn with
  | nil => rfl
  | append_singleton calls call ih =>
    have hbefore := ih fun before hb => h before (hb.trans (List.prefix_append _ _))
    have hnow := h _ (List.prefix_refl _)
    rw [TimerFirst] at hnow
    rw [registeredAfter_concat] at hnow ⊢
    rw [configAfter_concat]
    by_cases hbad : call.mod ≥ modMax ∨ call.mod < modQspi
    · rw [run_of_bad hbad, noteCall_of_bad hbad]
      exact hbefore
    · cases call with
      | register m c p q =>
        simp only [Call.mod] at hbad
        rw [noteCall_register (by omega) (by omega)] at hnow ⊢
        rw [Call.run, getLsbD_register (by omega) (by omega), hbefore]
        cases hn : isTimerN m with
        | true =>
          -- the first timer must be registered already
          rw [hnow (anyTimer_of_timerN hn (by rw [Function.update_self]))]
          simp
        | false =>
          by_cases hm : modTimer = m
          · subst hm
            simp
          · rw [Function.update_of_ne hm]
            simp [hm]
      | unregister m =>
        simp only [Call.mod] at hbad
        rw [noteCall_unregister (by omega) (by omega)]
        rw [Call.run, getLsbD_unregister (by omega) (by omega), hbefore]
        by_cases hm : modTimer = m
        · subst hm
          simp
        · rw [Function.update_of_ne hm]
          simp [hm]

theorem booked_of_timerFirst (h : ∀ before, before <+: calls → TimerFirst before) : Booked calls := by
  have hkept := kept_after calls
  have htimer := timer_bit h
  have hnow := h calls (List.prefix_refl _)
  refine ⟨hkept.bit, ?_, fun m hm => ?_, ?_⟩
  · rw [htimer]
    cases hany : anyTimer (registeredAfter calls) with
    | true => exact hnow hany
    | false =>
      rw [← Bool.not_eq_true] at hany ⊢
      exact fun hreg => hany (anyTimer_of_timer hreg)
  · by_cases hmt : m = modTimer
    · rw [hmt, htimer] at hm
      rw [hmt]
      exact hkept.irq _ hm
    · rw [hkept.bit m hmt] at hm
      exact hkept.irq m hm
  · rintro before m c p q later rfl hlow hhigh hreg hlater
    exact callbacks_after hlow hhigh hreg hlater

/-- The bit of the first timer alone, without its interrupt, gives the order away. -/
theorem Booked.timerFirst (h : Booked calls) : TimerFirst calls := by
  intro hany
  by_contra hno
  rw [Bool.not_eq_true] at hno
  have hbit := h.timer
  rw [hany] at hbit
  have hirq := h.irq _ hbit
  rw [(kept_after calls).cleared _ hno] at hirq
  cases hirq

end Order

/-- The bookkeeping is right all the time exactly if at no time another timer is registered without
the first. -/
theorem booked_iff (calls : List Call) :
    (∀ before, before <+: calls → Booked before) ↔ ∀ before, before <+: calls → TimerFirst before :=
  ⟨fun h before hb => (h before hb).timerFirst,
    fun h _ hb => booked_of_timerFirst fun before hbefore => h before (hbefore.trans hb)⟩

/-- The second timer registers alone: the bit of the first comes with the interrupt of the
watchdog. -/
theorem not_booked_timer1 : ¬Booked [.register modTimer1 none none none] := by
  intro h
  have hirq := h.irq modTimer (by decide)
  exact absurd hirq (by decide)

end Ln882x.Sleep
