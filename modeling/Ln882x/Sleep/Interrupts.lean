import Ln882x.Runtime.BitWalk
import Ln882x.Sleep.Registration

/-! Entry into sleep and return from it, from `hal_sleep.c`. From deep sleep on, the entry saves
the enabled interrupts, disables all, and enables those that may wake the chip; every return
enables what was saved last. Nothing that was enabled on the way is disabled again, and a
light sleep saves nothing. The wake-up hardware and the BLE check, which the project leaves
out, are not part of the model. -/

namespace Ln882x.Sleep

open Ln882x.Runtime (Machine bitWalk mem_bitWalk)

/-! ### The interrupt controller -/

/-- The words of `NVIC->ISER` as they read. -/
abbrev Nvic := ℕ → BitVec 32

/-- A write to `NVIC->ISER[i]` sets bits. -/
def writeIser (i : ℕ) (bits : BitVec 32) (nvic : Nvic) : Nvic := Function.update nvic i (nvic i ||| bits)

/-- A write to `NVIC->ICER[i]` clears bits. -/
def writeIcer (i : ℕ) (bits : BitVec 32) (nvic : Nvic) : Nvic := Function.update nvic i (nvic i &&& ~~~bits)

def nvicEnableIrq (irqn : ℕ) (nvic : Nvic) : Nvic := writeIser (irqn >>> 5) (1#32 <<< (irqn &&& 0x1F)) nvic

/-- The interrupt is enabled. -/
def isEnabled (nvic : Nvic) (irqn : ℕ) : Bool := (nvic (irqn / 32)).getLsbD (irqn % 32)

def sleepIrqn : ℕ := 3

/-! ### Sleep control -/

def SleepMode.num : SleepMode → ℕ
  | .active => 0
  | .lightSleep => 1
  | .deepSleep => 2
  | .retentionSleep => 3
  | .frozenSleep => 4

def osHz : ℕ := 1000

def sleepTimerExtraCompensationUsec : ℕ := 220

/-- `hal_sleep_ctrl_t`, the interrupt controller, and what the calls leave outside: the duration
set at the sleep timer and the callbacks that ran. -/
structure Device where
  flag : Bool
  config : HalSleepConfig
  nvicIntEn0 : BitVec 32
  nvicIntEn1 : BitVec 32
  compensation : ℕ
  msec : ℕ
  nvic : Nvic
  duration : ℕ
  called : List Callback

/-- At the start, with some interrupts enabled. -/
def Device.start (nvic : Nvic) : Device := ⟨false, .zero, 0, 0, 0, 0, nvic, 0, []⟩

/-- The number of a bit, by a table of all 32. -/
def log2 (val : BitVec 32) : ℕ := ((List.range 32).find? fun k => val = 1#32 <<< k).getD 0

/-- The registered modules, in the order in which the loops visit them. -/
def registeredMods (config : HalSleepConfig) : List ℕ := bitWalk log2 32 config.peripheralMod

/-- `cond` is what the condition callbacks return; those behind the first `false` are not asked. -/
def halSleepConditionCheck (cond : Callback → Bool) (config : HalSleepConfig) : Bool :=
  (registeredMods config).all fun idx =>
    match (config.actions idx).sleepCondition with
    | none => true
    | some sleepCondition => cond sleepCondition

/-- One module: its interrupt from deep sleep on, then its callback. -/
def preSleepModule (d : Device) (idx : ℕ) : Device :=
  let action := d.config.actions idx
  let d :=
    if SleepMode.deepSleep.num ≤ d.config.sleepMode.num then { d with nvic := nvicEnableIrq action.irqNum d.nvic }
    else d
  { d with called := d.called ++ action.preSleep.toList }

def halPreSleepProcessingRegisteredCb (d : Device) : Device := (registeredMods d.config).foldl preSleepModule d

def halPostSleepProcessingRegisteredCb (d : Device) : Device :=
  { d with called := d.called ++ (registeredMods d.config).flatMap fun idx => (d.config.actions idx).postSleep.toList }

/-- `compensateNs` is what `HAL_SYSCON_CalculateCompensateNs` returns. -/
def halPreSleepProcessing (cond : Callback → Bool) (compensateNs xExpectedIdleTime : ℕ) (d : Device) : Device :=
  if d.config.sleepMode = .active ∨ d.flag = true then d
  else if !halSleepConditionCheck cond d.config then d
  else
    let d := { d with msec := xExpectedIdleTime, flag := true }
    let d :=
      if SleepMode.deepSleep.num ≤ d.config.sleepMode.num then
        let compensation := (compensateNs + sleepTimerExtraCompensationUsec * 1000) % 2 ^ 64
        let ns := xExpectedIdleTime * 1000000000 / osHz
        { d with
          nvicIntEn0 := d.nvic 0
          nvicIntEn1 := d.nvic 1
          compensation := compensation
          duration := if ns > compensation then ns - compensation else 1000000
          nvic := nvicEnableIrq sleepIrqn (writeIcer 1 0xFFFFFFFF (writeIcer 0 0xFFFFFFFF d.nvic)) }
      else d
    halPreSleepProcessingRegisteredCb d

/-- The value returned, the idle time as it is left, and the device; `real0` is what
`HAL_SYSCON_RealSleepTime` returns. -/
def halPostSleepProcessing (real0 xExpectedIdleTime : ℕ) (d : Device) : ℤ × ℕ × Device :=
  if d.config.sleepMode = .active ∨ d.flag = false then (-1, xExpectedIdleTime, d)
  else
    let d := { d with flag := false, nvic := writeIser 1 d.nvicIntEn1 (writeIser 0 d.nvicIntEn0 d.nvic) }
    let r :=
      if SleepMode.deepSleep.num ≤ d.config.sleepMode.num then
        let sleepNs := (real0 + d.compensation) % 2 ^ 64
        ((0 : ℤ), min d.msec (sleepNs * osHz % 2 ^ 64 / 1000000000))
      else (-1, xExpectedIdleTime)
    (r.1, r.2, halPostSleepProcessingRegisteredCb d)

/-! ### Histories -/

/-- Changes outside of sleep. -/
inductive Setting
  | setMode (sleepMode : SleepMode)
  | registration (call : Call)

def Setting.apply (d : Device) : Setting → Device
  | .setMode sleepMode => { d with config := { d.config with sleepMode := sleepMode } }
  | .registration call => { d with config := (call.run d.config).2 }

inductive Event
  | setting (s : Setting)
  | enable (i : ℕ) (bits : BitVec 32)
  | disable (i : ℕ) (bits : BitVec 32)
  | pre (cond : Callback → Bool) (compensateNs xExpectedIdleTime : ℕ)
  | post (real0 xExpectedIdleTime : ℕ)

def Event.apply (d : Device) : Event → Device
  | .setting s => s.apply d
  | .enable i bits => { d with nvic := writeIser i bits d.nvic }
  | .disable i bits => { d with nvic := writeIcer i bits d.nvic }
  | .pre cond compensateNs xExpectedIdleTime => halPreSleepProcessing cond compensateNs xExpectedIdleTime d
  | .post real0 xExpectedIdleTime => (halPostSleepProcessing real0 xExpectedIdleTime d).2.2

/-- From deep sleep on: the sleep timer and every module with its bit set have their interrupts
enabled. In light sleep: everything that was saved last is enabled. -/
def Restorable (d : Device) : Prop :=
  if SleepMode.deepSleep.num ≤ d.config.sleepMode.num then
    isEnabled d.nvic sleepIrqn = true ∧
      ∀ m, d.config.peripheralMod.getLsbD m = true → isEnabled d.nvic (d.config.actions m).irqNum = true
  else d.nvicIntEn0 ||| d.nvic 0 = d.nvic 0 ∧ d.nvicIntEn1 ||| d.nvic 1 = d.nvic 1

/-! ### Enabled interrupts -/

theorem nvic_ext {n n' : Nvic} (h : ∀ irqn, isEnabled n irqn = isEnabled n' irqn) : n = n' := by
  funext i
  refine BitVec.eq_of_getLsbD_eq fun j hj => ?_
  have hbit := h (32 * i + j)
  rwa [isEnabled, isEnabled, Nat.mul_add_div (by decide), Nat.div_eq_of_lt hj, Nat.add_zero, Nat.mul_add_mod,
    Nat.mod_eq_of_lt hj] at hbit

theorem isEnabled_writeIser (i : ℕ) (bits : BitVec 32) (n : Nvic) (irqn : ℕ) :
    isEnabled (writeIser i bits n) irqn =
      (isEnabled n irqn || (decide (irqn / 32 = i) && bits.getLsbD (irqn % 32))) := by
  rw [isEnabled, isEnabled, writeIser]
  by_cases h : irqn / 32 = i
  · rw [h, Function.update_self, BitVec.getLsbD_or, decide_eq_true rfl, Bool.true_and]
  · rw [Function.update_of_ne h, decide_eq_false h, Bool.false_and, Bool.or_false]

theorem isEnabled_nvicEnableIrq (irqn : ℕ) (n : Nvic) (i : ℕ) :
    isEnabled (nvicEnableIrq irqn n) i = (isEnabled n i || decide (i = irqn)) := by
  have hword : irqn >>> 5 = irqn / 32 := Nat.shiftRight_eq_div_pow irqn 5
  have hbit : irqn &&& 0x1F = irqn % 32 := Nat.and_two_pow_sub_one_eq_mod irqn 5
  rw [nvicEnableIrq, isEnabled_writeIser, hword, hbit, getLsbD_bit (Nat.mod_lt _ (by decide)), ← Bool.decide_and]
  congr 1
  exact decide_eq_decide.mpr ⟨by omega, by omega⟩

theorem isEnabled_writeIcer_all (i : ℕ) (n : Nvic) (irqn : ℕ) :
    isEnabled (writeIcer i 0xFFFFFFFF n) irqn = (isEnabled n irqn && !decide (irqn / 32 = i)) := by
  rw [isEnabled, isEnabled, writeIcer]
  by_cases h : irqn / 32 = i
  · have hnone : ~~~(0xFFFFFFFF : BitVec 32) = 0#32 := by decide
    rw [h, Function.update_self, hnone, BitVec.and_zero, BitVec.getLsbD_zero, decide_eq_true rfl, Bool.not_true,
      Bool.and_false]
  · rw [Function.update_of_ne h, decide_eq_false h, Bool.not_false, Bool.and_true]

/-! ### Entry -/

theorem log2_twoPow : ∀ k < 32, log2 (BitVec.twoPow 32 k) = k := by decide +kernel

theorem mem_registeredMods (config : HalSleepConfig) (m : ℕ) :
    m ∈ registeredMods config ↔ config.peripheralMod.getLsbD m = true := mem_bitWalk log2_twoPow _ m

/-- What the entry leaves of the control block, and which interrupts are enabled after it. -/
structure Entered (d e : Device) : Prop where
  flag : e.flag = true
  config : e.config = d.config
  deep : SleepMode.deepSleep.num ≤ d.config.sleepMode.num → e.nvicIntEn0 = d.nvic 0 ∧ e.nvicIntEn1 = d.nvic 1 ∧
    ∀ i, isEnabled e.nvic i = true ↔ (2 ≤ i / 32 ∧ isEnabled d.nvic i = true) ∨ i = sleepIrqn ∨
      ∃ m, d.config.peripheralMod.getLsbD m = true ∧ i = (d.config.actions m).irqNum
  light : ¬SleepMode.deepSleep.num ≤ d.config.sleepMode.num →
    e.nvicIntEn0 = d.nvicIntEn0 ∧ e.nvicIntEn1 = d.nvicIntEn1 ∧ e.nvic = d.nvic

theorem foldl_preSleepModule (l : List ℕ) (d : Device) :
    (l.foldl preSleepModule d).flag = d.flag ∧ (l.foldl preSleepModule d).config = d.config ∧
      (l.foldl preSleepModule d).nvicIntEn0 = d.nvicIntEn0 ∧ (l.foldl preSleepModule d).nvicIntEn1 = d.nvicIntEn1 := by
  induction l generalizing d with
  | nil => exact ⟨rfl, rfl, rfl, rfl⟩
  | cons idx l ih =>
    obtain ⟨h1, h2, h3, h4⟩ := ih (preSleepModule d idx)
    rw [List.foldl_cons, h1, h2, h3, h4]
    unfold preSleepModule
    by_cases hdeep : SleepMode.deepSleep.num ≤ d.config.sleepMode.num
    · simp only [if_pos hdeep, and_self]
    · simp only [if_neg hdeep, and_self]

theorem nvic_foldl_light (l : List ℕ) (d : Device) (h : ¬SleepMode.deepSleep.num ≤ d.config.sleepMode.num) :
    (l.foldl preSleepModule d).nvic = d.nvic := by
  induction l generalizing d with
  | nil => rfl
  | cons idx l ih =>
    have hone : (preSleepModule d idx).nvic = d.nvic ∧ (preSleepModule d idx).config = d.config := by
      unfold preSleepModule
      simp only [if_neg h, and_self]
    rw [List.foldl_cons, ih _ (by rw [hone.2]; exact h), hone.1]

theorem isEnabled_foldl_deep (l : List ℕ) (d : Device) (h : SleepMode.deepSleep.num ≤ d.config.sleepMode.num) (i : ℕ) :
    isEnabled (l.foldl preSleepModule d).nvic i = true ↔
      isEnabled d.nvic i = true ∨ ∃ m ∈ l, i = (d.config.actions m).irqNum := by
  induction l generalizing d with
  | nil => simp
  | cons idx l ih =>
    have hone : (preSleepModule d idx).nvic = nvicEnableIrq (d.config.actions idx).irqNum d.nvic ∧
        (preSleepModule d idx).config = d.config := by
      unfold preSleepModule
      simp only [if_pos h, and_self]
    rw [List.foldl_cons, ih _ (by rw [hone.2]; exact h), hone.1, hone.2, isEnabled_nvicEnableIrq, Bool.or_eq_true,
      decide_eq_true_eq, or_assoc]
    simp only [List.mem_cons, exists_eq_or_imp]

section Cycle

variable {cond : Callback → Bool} {compensateNs idle real0 : ℕ} {d e : Device}

/-- An entry that sets the flag. -/
theorem entered (hf : d.flag = false) (hset : (halPreSleepProcessing cond compensateNs idle d).flag = true) :
    Entered d (halPreSleepProcessing cond compensateNs idle d) := by
  unfold halPreSleepProcessing at hset ⊢
  by_cases hactive : d.config.sleepMode = .active ∨ d.flag = true
  · rw [if_pos hactive, hf] at hset
    cases hset
  rw [if_neg hactive] at hset ⊢
  by_cases hcond : (!halSleepConditionCheck cond d.config) = true
  · rw [if_pos hcond, hf] at hset
    cases hset
  rw [if_neg hcond]
  by_cases hdeep : SleepMode.deepSleep.num ≤ d.config.sleepMode.num
  · simp only [if_pos hdeep, halPreSleepProcessingRegisteredCb]
    refine ⟨(foldl_preSleepModule _ _).1, (foldl_preSleepModule _ _).2.1, fun _ => ?_, fun h => absurd hdeep h⟩
    refine ⟨(foldl_preSleepModule _ _).2.2.1, (foldl_preSleepModule _ _).2.2.2, fun i => ?_⟩
    refine (isEnabled_foldl_deep _ _ ?_ i).trans ?_
    · exact hdeep
    rw [isEnabled_nvicEnableIrq, isEnabled_writeIcer_all, isEnabled_writeIcer_all]
    simp only [Bool.or_eq_true, Bool.and_eq_true, Bool.not_eq_true', decide_eq_false_iff_not, decide_eq_true_eq,
      mem_registeredMods, or_assoc]
    refine or_congr ⟨fun h => ⟨by omega, h.1.1⟩, fun h => ⟨⟨h.2, by omega⟩, by omega⟩⟩ Iff.rfl
  · simp only [if_neg hdeep, halPreSleepProcessingRegisteredCb]
    refine ⟨(foldl_preSleepModule _ _).1, (foldl_preSleepModule _ _).2.1, fun h => absurd h hdeep, fun _ => ?_⟩
    exact ⟨(foldl_preSleepModule _ _).2.2.1, (foldl_preSleepModule _ _).2.2.2, nvic_foldl_light _ _ hdeep⟩

/-! ### Return -/

theorem nvic_halPostSleepProcessing (hf : e.flag = true) (hmode : e.config.sleepMode ≠ .active) :
    (halPostSleepProcessing real0 idle e).2.2.nvic = writeIser 1 e.nvicIntEn1 (writeIser 0 e.nvicIntEn0 e.nvic) := by
  have hgo : ¬(e.config.sleepMode = .active ∨ e.flag = false) := by simp [hmode, hf]
  rw [halPostSleepProcessing, if_neg hgo]
  rfl

theorem foldl_settings (between : List Setting) (d : Device) :
    (between.foldl Setting.apply d).flag = d.flag ∧ (between.foldl Setting.apply d).nvic = d.nvic ∧
      (between.foldl Setting.apply d).nvicIntEn0 = d.nvicIntEn0 ∧
      (between.foldl Setting.apply d).nvicIntEn1 = d.nvicIntEn1 := by
  induction between generalizing d with
  | nil => exact ⟨rfl, rfl, rfl, rfl⟩
  | cons s between ih =>
    have hone : (s.apply d).flag = d.flag ∧ (s.apply d).nvic = d.nvic ∧ (s.apply d).nvicIntEn0 = d.nvicIntEn0 ∧
        (s.apply d).nvicIntEn1 = d.nvicIntEn1 := by
      cases s <;> exact ⟨rfl, rfl, rfl, rfl⟩
    obtain ⟨h1, h2, h3, h4⟩ := ih (s.apply d)
    rw [List.foldl_cons, h1, h2, h3, h4]
    exact hone

/-- The bits of the first two words. -/
theorem isEnabled_saved (n n' : Nvic) (i : ℕ) :
    isEnabled (writeIser 1 (n' 1) (writeIser 0 (n' 0) n)) i = true ↔
      isEnabled n i = true ∨ (i / 32 < 2 ∧ isEnabled n' i = true) := by
  rw [isEnabled_writeIser, isEnabled_writeIser]
  simp only [Bool.or_eq_true, Bool.and_eq_true, decide_eq_true_eq, or_assoc]
  refine or_congr Iff.rfl ?_
  rw [isEnabled]
  constructor
  · rintro (⟨h, hb⟩ | ⟨h, hb⟩)
    · exact ⟨by omega, by rwa [h]⟩
    · exact ⟨by omega, by rwa [h]⟩
  · rintro ⟨hlt, hb⟩
    rcases (show i / 32 = 0 ∨ i / 32 = 1 by omega) with h | h
    · rw [h] at hb
      exact .inl ⟨h, hb⟩
    · rw [h] at hb
      exact .inr ⟨h, hb⟩

/-- The return from deep sleep enables what was enabled, the sleep timer and the modules. -/
theorem Entered.deep_restores (h : Entered d e) (hdeep : SleepMode.deepSleep.num ≤ d.config.sleepMode.num) :
    writeIser 1 e.nvicIntEn1 (writeIser 0 e.nvicIntEn0 e.nvic) = d.nvic ↔ Restorable d := by
  obtain ⟨h0, h1, hon⟩ := h.deep hdeep
  rw [Restorable, if_pos hdeep, h0, h1]
  have hafter : ∀ i, isEnabled (writeIser 1 (d.nvic 1) (writeIser 0 (d.nvic 0) e.nvic)) i = true ↔
      isEnabled d.nvic i = true ∨ i = sleepIrqn ∨
        ∃ m, d.config.peripheralMod.getLsbD m = true ∧ i = (d.config.actions m).irqNum := by
    intro i
    rw [isEnabled_saved, hon]
    by_cases hi : i / 32 < 2
    · simp only [hi, Nat.not_le.mpr hi, false_and, false_or, true_and]
      exact or_comm
    · simp only [hi, Nat.le_of_not_lt hi, true_and, false_and, or_false]
  constructor
  · intro heq
    rw [heq] at hafter
    exact ⟨(hafter _).mpr (.inr (.inl rfl)), fun m hm => (hafter _).mpr (.inr (.inr ⟨m, hm, rfl⟩))⟩
  · rintro ⟨htimer, hmods⟩
    refine nvic_ext fun i => ?_
    rw [Bool.eq_iff_iff, hafter]
    constructor
    · rintro (hi | rfl | ⟨m, hm, rfl⟩)
      · exact hi
      · exact htimer
      · exact hmods m hm
    · exact .inl

theorem Entered.light_restores (h : Entered d e) (hlight : ¬SleepMode.deepSleep.num ≤ d.config.sleepMode.num) :
    writeIser 1 e.nvicIntEn1 (writeIser 0 e.nvicIntEn0 e.nvic) = d.nvic ↔ Restorable d := by
  obtain ⟨h0, h1, hnvic⟩ := h.light hlight
  rw [Restorable, if_neg hlight, h0, h1, hnvic, BitVec.or_comm, BitVec.or_comm d.nvicIntEn1]
  constructor
  · intro heq
    have hword0 := congrFun heq 0
    have hword1 := congrFun heq 1
    rw [writeIser, Function.update_of_ne (by decide), writeIser, Function.update_self] at hword0
    rw [writeIser, Function.update_self, writeIser, Function.update_of_ne (by decide)] at hword1
    exact ⟨hword0, hword1⟩
  · rintro ⟨hword0, hword1⟩
    rw [writeIser, writeIser, hword0, Function.update_eq_self, hword1, Function.update_eq_self]

end Cycle

/-- After any history: an entry into sleep that sets the flag, and the return from it in the same
mode, leave the enabled interrupts as they were exactly if that state can be restored. -/
theorem sleep_keeps_nvic_iff (nvic : Nvic) (history : List Event) (cond : Callback → Bool)
    (compensateNs idle real0 idle' : ℕ) (between : List Setting)
    (hf : (history.foldl Event.apply (.start nvic)).flag = false)
    (hset : (halPreSleepProcessing cond compensateNs idle (history.foldl Event.apply (.start nvic))).flag = true)
    (hmode : (between.foldl Setting.apply
        (halPreSleepProcessing cond compensateNs idle (history.foldl Event.apply (.start nvic)))).config.sleepMode =
      (history.foldl Event.apply (.start nvic)).config.sleepMode) :
    (halPostSleepProcessing real0 idle' (between.foldl Setting.apply
        (halPreSleepProcessing cond compensateNs idle (history.foldl Event.apply (.start nvic))))).2.2.nvic =
      (history.foldl Event.apply (.start nvic)).nvic ↔ Restorable (history.foldl Event.apply (.start nvic)) := by
  generalize history.foldl Event.apply (.start nvic) = d at hf hset hmode ⊢
  have hin := entered hf hset
  have hactive : d.config.sleepMode ≠ .active := by
    intro hactive
    rw [halPreSleepProcessing, if_pos (.inl hactive), hf] at hset
    cases hset
  generalize halPreSleepProcessing cond compensateNs idle d = e at hin hmode ⊢
  obtain ⟨hflag, hnvic, h0, h1⟩ := foldl_settings between e
  rw [nvic_halPostSleepProcessing (by rw [hflag, hin.flag]) (by rw [hmode]; exact hactive), hnvic, h0, h1]
  by_cases hdeep : SleepMode.deepSleep.num ≤ d.config.sleepMode.num
  · exact hin.deep_restores hdeep
  · exact hin.light_restores hdeep

/-- Deep sleep with the interrupt of the sleep timer enabled, and no module registered. -/
theorem sleep_keeps_nvic_iff_deep :
    (halPostSleepProcessing 7000000 5 (halPreSleepProcessing (fun _ => true) 1000 5
        ([.setting (.setMode .deepSleep), .enable 0 8].foldl Event.apply (.start fun _ => 0)))).2.2.nvic =
      ([.setting (.setMode .deepSleep), .enable 0 8].foldl Event.apply (.start fun _ => 0)).nvic :=
  (sleep_keeps_nvic_iff (fun _ => 0) [.setting (.setMode .deepSleep), .enable 0 8] (fun _ => true)
    1000 5 7000000 5 [] rfl rfl rfl).mpr
      ⟨rfl, fun _ hm => absurd hm (by simp [Event.apply, Setting.apply, Device.start, HalSleepConfig.zero])⟩

/-- A deep sleep, after which interrupt 5 is disabled, and then light sleep. -/
def deepThenLight : List Event :=
  [.setting (.setMode .deepSleep), .enable 0 0x28, .pre (fun _ => true) 1000 5, .post 7000000 5, .disable 0 0x20,
    .setting (.setMode .lightSleep)]

/-- The first deep sleep leaves the interrupt of the sleep timer enabled, and light sleep enables
an interrupt that was disabled since the deep sleep. -/
theorem sleep_enables_more :
    (let d := Event.apply (.start fun _ => 0) (.setting (.setMode .deepSleep))
      let e := halPreSleepProcessing (fun _ => true) 1000 5 d
      d.flag = false ∧ e.flag = true ∧ isEnabled d.nvic sleepIrqn = false ∧
        isEnabled (halPostSleepProcessing 7000000 5 e).2.2.nvic sleepIrqn = true) ∧
    (let d := deepThenLight.foldl Event.apply (.start fun _ => 0)
      let e := halPreSleepProcessing (fun _ => true) 0 5 d
      d.flag = false ∧ e.flag = true ∧ isEnabled d.nvic 5 = false ∧
        isEnabled (halPostSleepProcessing 0 5 e).2.2.nvic 5 = true) := by
  decide

end Ln882x.Sleep
