import Mathlib.Algebra.BigOperators.Group.List.Basic
import Mathlib.Tactic.Ring

/-! Tick compensation. The system tick stands still while the flash is busy; each call
adds the cycles of the pause, read off a free-running 32-bit counter, and turns whole
milliseconds into ticks, carrying the rest. The difference of two counter values is one
cycle short when the counter wrapped between them, so the ticks and the rest account
for all cycles but one for each such call. -/

namespace Ln882x.Runtime

inductive SourceClock
  | pllClock
  | xtalClock
  deriving DecidableEq

def systemClock : SourceClock → ℕ
  | .pllClock => 160000000
  | .xtalClock => 40000000

/-- `SYSTEM_CLOCK/1000UL` -/
def tickCycles (clock : SourceClock) : ℕ := systemClock clock / 1000

def compMissedCycles : ℕ := 160 * 30

/-- `os_tick_compensate_val`, of 16 bits, and `remainder_cycles`. -/
structure TickComp where
  osTickCompensateVal : ℕ
  remainderCycles : ℕ
  deriving DecidableEq

def TickComp.init : TickComp := ⟨0, 0⟩

def lnRuntimeGetDeltaCycles (last curr : ℕ) : ℕ :=
  if curr ≥ last then curr - last else (0xFFFFFFFF - last + curr) % 2 ^ 32

/-- `delta` when the counter stands at `curr`. -/
def compDelta (s : TickComp) (last curr : ℕ) : ℕ :=
  let delta := 0
  let delta := (delta + s.remainderCycles) % 2 ^ 32
  let delta := (delta + lnRuntimeGetDeltaCycles last curr) % 2 ^ 32
  (delta + compMissedCycles) % 2 ^ 32

def lnOsTickCompValInc (clock : SourceClock) (s : TickComp) (last curr : ℕ) : TickComp :=
  let delta := compDelta s last curr
  { remainderCycles := delta % tickCycles clock
    osTickCompensateVal := (s.osTickCompensateVal + delta / tickCycles clock) % 2 ^ 16 }

/-! ### Runs -/

/-- A pause: the counter value read at its start, and the cycles since. -/
structure Pause where
  last : ℕ
  cycles : ℕ
  deriving DecidableEq

/-- The counter at the end. -/
def Pause.curr (p : Pause) : ℕ := (p.last + p.cycles) % 2 ^ 32

/-- The counter has 32 bits, and the pause leaves room for what a call adds to it. -/
structure Pause.Ok (clock : SourceClock) (p : Pause) : Prop where
  last_lt : p.last < 2 ^ 32
  short : p.cycles + compMissedCycles + tickCycles clock < 2 ^ 32

/-- The counter passes zero during the pause. -/
def Pause.Wraps (p : Pause) : Prop := 2 ^ 32 ≤ p.last + p.cycles

instance (p : Pause) : Decidable p.Wraps := inferInstanceAs (Decidable (_ ≤ _))

def afterPauses (clock : SourceClock) (s : TickComp) (ps : List Pause) : TickComp :=
  ps.foldl (fun s p => lnOsTickCompValInc clock s p.last p.curr) s

/-- The ticks the calls add, before the cut to 16 bits. -/
def ticksAdded (clock : SourceClock) : TickComp → List Pause → ℕ
  | _, [] => 0
  | s, p :: ps =>
    compDelta s p.last p.curr / tickCycles clock +
      ticksAdded clock (lnOsTickCompValInc clock s p.last p.curr) ps

/-- The cycles the calls should account for. -/
def pausedCycles (ps : List Pause) : ℕ := (ps.map fun p => p.cycles + compMissedCycles).sum

def wraps (ps : List Pause) : ℕ := ps.countP fun p => decide p.Wraps

/-! ### One call -/

variable {clock : SourceClock} {s : TickComp} {p : Pause}

theorem tickCycles_pos (clock : SourceClock) : 0 < tickCycles clock := by
  cases clock <;> decide

/-- A wrap costs one cycle. -/
theorem lnRuntimeGetDeltaCycles_eq (h : p.Ok clock) :
    lnRuntimeGetDeltaCycles p.last p.curr + (if p.Wraps then 1 else 0) = p.cycles := by
  obtain ⟨hlast, hshort⟩ := h
  rw [lnRuntimeGetDeltaCycles, Pause.curr]
  by_cases hw : p.Wraps
  · have hge : 2 ^ 32 ≤ p.last + p.cycles := hw
    have hcurr : (p.last + p.cycles) % 2 ^ 32 = p.last + p.cycles - 2 ^ 32 := by omega
    rw [hcurr, if_neg (by omega), if_pos hw]
    omega
  · have hlt : p.last + p.cycles < 2 ^ 32 := Nat.lt_of_not_le hw
    rw [Nat.mod_eq_of_lt hlt, if_pos (by omega), if_neg hw]
    omega

/-- The remainder stays below a tick, and no sum of a call leaves 32 bits. -/
theorem compDelta_eq (h : p.Ok clock) (hs : s.remainderCycles < tickCycles clock) :
    compDelta s p.last p.curr + (if p.Wraps then 1 else 0) =
      s.remainderCycles + p.cycles + compMissedCycles := by
  have hd := lnRuntimeGetDeltaCycles_eq h
  have hshort := h.short
  rw [compDelta]
  omega

theorem remainderCycles_lt (s : TickComp) (p : Pause) :
    (lnOsTickCompValInc clock s p.last p.curr).remainderCycles < tickCycles clock :=
  Nat.mod_lt _ (tickCycles_pos clock)

/-- Ticks and remainder take up the cycles of the pause, but one if the counter wrapped. -/
theorem lnOsTickCompValInc_cycles (h : p.Ok clock) (hs : s.remainderCycles < tickCycles clock) :
    compDelta s p.last p.curr / tickCycles clock * tickCycles clock +
        (lnOsTickCompValInc clock s p.last p.curr).remainderCycles + (if p.Wraps then 1 else 0) =
      s.remainderCycles + (p.cycles + compMissedCycles) := by
  have hd := compDelta_eq h hs
  have hdm := Nat.div_add_mod' (compDelta s p.last p.curr) (tickCycles clock)
  have hrest : (lnOsTickCompValInc clock s p.last p.curr).remainderCycles =
      compDelta s p.last p.curr % tickCycles clock := rfl
  omega

/-! ### All calls -/

/-- What a run leaves: the ticks cut to 16 bits, a remainder below a tick, and every cycle
accounted for but one for each wrap. -/
structure Accounts (clock : SourceClock) (s s' : TickComp) (ps : List Pause) : Prop where
  ticks : s'.osTickCompensateVal % 2 ^ 16 = (s.osTickCompensateVal + ticksAdded clock s ps) % 2 ^ 16
  rest_lt : s'.remainderCycles < tickCycles clock
  cycles : ticksAdded clock s ps * tickCycles clock + s'.remainderCycles + wraps ps =
    s.remainderCycles + pausedCycles ps

theorem afterPauses_accounts (ps : List Pause) (hok : ∀ p ∈ ps, p.Ok clock)
    (hs : s.remainderCycles < tickCycles clock) : Accounts clock s (afterPauses clock s ps) ps := by
  induction ps generalizing s with
  | nil => exact ⟨by simp [afterPauses, ticksAdded], hs, by simp [afterPauses, ticksAdded, wraps, pausedCycles]⟩
  | cons p ps ih =>
    obtain ⟨hp, hps⟩ := List.forall_mem_cons.mp hok
    have hone := lnOsTickCompValInc_cycles hp hs
    have htick : (lnOsTickCompValInc clock s p.last p.curr).osTickCompensateVal % 2 ^ 16 =
        (s.osTickCompensateVal + compDelta s p.last p.curr / tickCycles clock) % 2 ^ 16 := Nat.mod_mod _ _
    obtain ⟨ht, hr, hc⟩ := ih (s := lnOsTickCompValInc clock s p.last p.curr) hps (remainderCycles_lt s p)
    refine ⟨?_, hr, ?_⟩
    · rw [ticksAdded]
      exact ht.trans (by omega)
    · have hw : wraps (p :: ps) = (if p.Wraps then 1 else 0) + wraps ps := by
        simp [wraps, List.countP_cons, Nat.add_comm]
      have hp' : pausedCycles (p :: ps) = p.cycles + compMissedCycles + pausedCycles ps := by
        simp [pausedCycles]
      rw [ticksAdded, Nat.add_mul, hw, hp']
      rw [afterPauses, List.foldl_cons]
      rw [afterPauses] at hc
      omega

theorem afterPauses_val_lt (ps : List Pause) (hs : s.osTickCompensateVal < 2 ^ 16) :
    (afterPauses clock s ps).osTickCompensateVal < 2 ^ 16 := by
  induction ps generalizing s with
  | nil => exact hs
  | cons p ps ih => exact ih (Nat.mod_lt _ (by decide))

/-- While fewer than 65536 ticks accumulate, ticks and remainder account for every cycle exactly
when the counter wraps in no pause. -/
theorem afterPauses_exact_iff (clock : SourceClock) (ps : List Pause) (hok : ∀ p ∈ ps, p.Ok clock)
    (hfew : ticksAdded clock TickComp.init ps < 2 ^ 16) :
    ((afterPauses clock TickComp.init ps).osTickCompensateVal * tickCycles clock +
          (afterPauses clock TickComp.init ps).remainderCycles =
        (ps.map fun p => p.cycles + compMissedCycles).sum ∧
      (afterPauses clock TickComp.init ps).remainderCycles < tickCycles clock) ↔
    ∀ p ∈ ps, p.last + p.cycles < 2 ^ 32 := by
  obtain ⟨ht, hr, hc⟩ := afterPauses_accounts (s := TickComp.init) ps hok (tickCycles_pos clock)
  have hlt : (afterPauses clock TickComp.init ps).osTickCompensateVal < 2 ^ 16 :=
    afterPauses_val_lt ps (by decide)
  have hval : (afterPauses clock TickComp.init ps).osTickCompensateVal = ticksAdded clock TickComp.init ps := by
    rw [Nat.mod_eq_of_lt hlt] at ht
    rw [ht]
    exact (congrArg (· % 2 ^ 16) (Nat.zero_add _)).trans (Nat.mod_eq_of_lt hfew)
  have hinit : TickComp.init.remainderCycles = 0 := rfl
  have hwraps : wraps ps = 0 ↔ ∀ p ∈ ps, p.last + p.cycles < 2 ^ 32 := by
    rw [wraps, List.countP_eq_zero]
    refine forall₂_congr fun p _ => ?_
    rw [decide_eq_true_eq, Pause.Wraps, Nat.not_le]
  rw [hval, ← hwraps]
  rw [hinit, pausedCycles] at hc
  constructor
  · rintro ⟨heq, -⟩
    omega
  · intro h0
    exact ⟨by omega, hr⟩

/-- Two pauses before the counter wraps: one tick, and 16960 cycles left over. -/
theorem afterPauses_exact_iff_two :
    ((afterPauses .pllClock TickComp.init [⟨0, 155200⟩, ⟨200000, 12160⟩]).osTickCompensateVal *
          tickCycles .pllClock +
          (afterPauses .pllClock TickComp.init [⟨0, 155200⟩, ⟨200000, 12160⟩]).remainderCycles =
        ([⟨0, 155200⟩, ⟨200000, 12160⟩].map fun p : Pause => p.cycles + compMissedCycles).sum ∧
      (afterPauses .pllClock TickComp.init [⟨0, 155200⟩, ⟨200000, 12160⟩]).remainderCycles <
        tickCycles .pllClock) ↔
    ∀ p ∈ [(⟨0, 155200⟩ : Pause), ⟨200000, 12160⟩], p.last + p.cycles < 2 ^ 32 :=
  afterPauses_exact_iff .pllClock [⟨0, 155200⟩, ⟨200000, 12160⟩]
    (by rintro p (_ | ⟨_, _ | ⟨_, ⟨⟩⟩⟩) <;> exact ⟨by decide, by decide⟩) (by decide)

/-- A pause of ten cycles over the wrap counts as nine. -/
theorem afterPauses_loses_a_cycle :
    ¬ ∀ (clock : SourceClock) (ps : List Pause), (∀ p ∈ ps, p.Ok clock) →
      ticksAdded clock TickComp.init ps < 2 ^ 16 →
      (afterPauses clock TickComp.init ps).osTickCompensateVal * tickCycles clock +
          (afterPauses clock TickComp.init ps).remainderCycles =
        (ps.map fun p => p.cycles + compMissedCycles).sum ∧
      (afterPauses clock TickComp.init ps).remainderCycles < tickCycles clock := by
  intro h
  have h1 := h .pllClock [⟨0xFFFFFFFB, 10⟩]
    (by rintro p (_ | ⟨_, ⟨⟩⟩); exact ⟨by decide, by decide⟩) (by decide)
  exact absurd h1.1 (by decide)

end Ln882x.Runtime
