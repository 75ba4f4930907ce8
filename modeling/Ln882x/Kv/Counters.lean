import Mathlib.Data.List.Nodup
import Mathlib.Data.List.Induction
import Ln882x.Kv.Effects

/-! The counters of the block index. The store changes its index only through
the helpers of `IdxCall`, so what holds after every such call holds throughout
every run, whatever fails. The counters stay equal to the numbers of flagged
blocks exactly as long as no helper throws away a counted flag: `kv_blk_set_fresh`
and `kv_blk_set_bad` overwrite the whole flag byte and leave the counters of the
flags they erase as they were. -/

namespace Ln882x.Kv

open Nor

/-! ### Index changes are recorded -/

section Tracked
variable {α β : Type}

/-- The index changes by the calls added to the record. -/
def Tracked (x : K α) : Prop :=
  ∀ s, wp x (fun _ t => ∃ is, t.calls = s.calls ++ is ∧ t.ctl = replay s.ctl is) s

theorem Tracked.pure (a : α) : Tracked (Pure.pure a) := fun s => ⟨[], (List.append_nil s.calls).symm, rfl⟩

theorem Tracked.bind {x : K α} {k : α → K β} (hx : Tracked x) (hk : ∀ a, Tracked (k a)) :
    Tracked (x >>= k) := by
  intro s
  refine (hx s).bind fun a t ⟨is, hc, hr⟩ => (hk a t).mono fun b u ⟨js, hc', hr'⟩ => ?_
  refine ⟨is ++ js, by rw [hc', hc, List.append_assoc], ?_⟩
  rw [hr', hr, replay, replay, replay, List.foldl_append]

theorem Makes.tracked {S : Scope} {x : K α} (h : Makes S x) : Tracked x := by
  intro s
  obtain ⟨-, is, hc, hr, -⟩ := h s
  exact ⟨is, hc, hr⟩

end Tracked

variable {G : Geo} {E : Env}

theorem tracked_lnKvInit : Tracked (lnKvInit G E) := by
  have hclear : ∀ {s t : St}, Made Scope.full { s with ctl := .zero, calls := s.calls ++ [.clear] } t →
      ∃ is, t.calls = s.calls ++ is ∧ t.ctl = replay s.ctl is := by
    rintro s t ⟨-, is, hc, hr, -⟩
    exact ⟨.clear :: is, by rw [hc, List.append_assoc, List.singleton_append], hr⟩
  intro s
  refine wp_lnKvInit_made (.full G) (fun b _ => Set.mem_univ b) s (fun t r _ ht => hclear ht) fun t ht => ?_
  exact (makes_kvMgrWorkspaceLocate t).mono fun _ u hu => hclear (ht.trans hu)

/-! ### Counting flagged blocks -/

theorem countP_update {α : Type} {l : List ℕ} (hl : l.Nodup) {b : ℕ} (hb : b ∈ l) (f : ℕ → α) (p : α → Bool)
    (v : α) :
    l.countP (fun x => p (Function.update f b v x)) + (p (f b)).toNat =
      l.countP (fun x => p (f x)) + (p v).toNat := by
  induction l with
  | nil => simp at hb
  | cons a l ih =>
    obtain ⟨ha, hl⟩ := List.nodup_cons.mp hl
    simp only [List.countP_cons]
    rcases List.mem_cons.mp hb with rfl | hb
    · have hsame : l.countP (fun x => p (Function.update f b v x)) = l.countP (fun x => p (f x)) :=
        List.countP_congr fun x hx => by
          rw [Function.update_of_ne (ne_of_mem_of_not_mem hx ha)]
      rw [hsame, Function.update_self]
      cases p v <;> cases p (f b) <;> simp
    · have := ih hl hb
      rw [Function.update_of_ne (ne_of_mem_of_not_mem hb ha).symm]
      omega

theorem Geo.nodup_blks (G : Geo) : G.blks.Nodup := by
  refine List.Nodup.map (fun i j h => ?_) List.nodup_range
  simp only [kvBlkSize] at h
  omega

theorem Geo.length_blks (G : Geo) : G.blks.length = G.blocks := by simp [Geo.blks]

/-- The number of blocks whose flags pass a test. -/
def numFlagged (G : Geo) (p : Flags → Bool) (c : Ctl) : ℕ := G.blks.countP fun b => p (kvBlkFlagsGet b c)

/-- The counters are right, and no fresh block is in use or dirty. -/
structure Counters (G : Geo) (c : Ctl) : Prop where
  fresh : c.numFresh = numFlagged G Flags.fresh c
  inuse : c.numInuse = numFlagged G Flags.inuse c
  hanging : c.numHanging = numFlagged G Flags.hanging c
  apart : ∀ b ∈ G.blks, kvBlkIsFresh b c → ¬kvBlkIsInuse b c ∧ ¬kvBlkIsDirty b c

theorem counters_zero : Counters G .zero := by
  constructor <;> simp [Ctl.zero, numFlagged, kvBlkFlagsGet, Flags.zero, kvBlkIsFresh]

/-- A counter over distinct blocks leaves room for a block that is not counted. -/
theorem numFlagged_room {c : Ctl} {b : ℕ} (hb : b ∈ G.blks) (p : Flags → Bool)
    (hp : p (kvBlkFlagsGet b c) = false) : numFlagged G p c + 1 < 2 ^ 16 := by
  have hlt : numFlagged G p c < G.blks.length :=
    lt_of_le_of_ne List.countP_le_length fun h => by simp [List.countP_eq_length.mp h b hb] at hp
  have := G.few
  rw [G.length_blks] at hlt
  omega

theorem numFlagged_pos {c : Ctl} {b : ℕ} (hb : b ∈ G.blks) (p : Flags → Bool)
    (hp : p (kvBlkFlagsGet b c) = true) : 0 < numFlagged G p c :=
  List.countP_pos_iff.mpr ⟨b, hb, hp⟩

/-! ### One helper call -/

/-- The block whose entry a helper call indexes belongs to the area. -/
def IdxCall.InArea (G : Geo) : IdxCall → Prop
  | .clear | .setWorkspace _ => True
  | .freeszSet b _ | .freeszReduce b _ | .setFresh b | .setInuse b | .setDirty b | .setBad b
  | .setHanging b | .resetFresh b | .resetInuse b | .resetHanging b => b ∈ G.blks

instance : ∀ i : IdxCall, Decidable (i.InArea G)
  | .clear | .setWorkspace _ => inferInstanceAs (Decidable True)
  | .freeszSet b _ | .freeszReduce b _ | .setFresh b | .setInuse b | .setDirty b | .setBad b
  | .setHanging b | .resetFresh b | .resetInuse b | .resetHanging b => inferInstanceAs (Decidable (b ∈ G.blks))

/-- The call throws away no counted flag and adds none that a fresh block must not have. -/
def IdxCall.Keeps (c : Ctl) : IdxCall → Prop
  | .setFresh b => ¬kvBlkIsInuse b c ∧ ¬kvBlkIsHanging b c
  | .setInuse b | .setDirty b => ¬kvBlkIsFresh b c
  | .setBad b => ¬kvBlkIsFresh b c ∧ ¬kvBlkIsInuse b c ∧ ¬kvBlkIsHanging b c
  | _ => True

/-- The call takes a counter below zero. -/
def IdxCall.Wraps (c : Ctl) : IdxCall → Prop
  | .resetFresh b => kvBlkIsFresh b c ∧ c.numFresh = 0
  | .resetInuse b => kvBlkIsInuse b c ∧ c.numInuse = 0
  | .resetHanging b => kvBlkIsHanging b c ∧ c.numHanging = 0
  | _ => False

section OneCall
variable {c : Ctl}

/-- A change that leaves all flags and counters as they are. -/
theorem counters_same (hc : Counters G c) {c' : Ctl}
    (hf : (fun x => kvBlkFlagsGet x c') = fun x => kvBlkFlagsGet x c) (h1 : c'.numFresh = c.numFresh)
    (h2 : c'.numInuse = c.numInuse) (h3 : c'.numHanging = c.numHanging) : Counters G c' := by
  have hx : ∀ x, kvBlkFlagsGet x c' = kvBlkFlagsGet x c := congrFun hf
  have hcount : ∀ p, numFlagged G p c' = numFlagged G p c := fun p => by simp only [numFlagged, hx]
  refine ⟨by rw [h1, hcount, hc.fresh], by rw [h2, hcount, hc.inuse], by rw [h3, hcount, hc.hanging], ?_⟩
  simpa only [kvBlkIsFresh, kvBlkIsInuse, kvBlkIsDirty, hx] using hc.apart

theorem flags_kvBlkFlagsSet (b : ℕ) (fl : Flags) :
    (fun x => kvBlkFlagsGet x (kvBlkFlagsSet b c fl)) = Function.update (fun x => kvBlkFlagsGet x c) b fl := by
  funext x
  by_cases hx : x = b
  · subst hx; simp [kvBlkFlagsGet, kvBlkFlagsSet]
  · simp [kvBlkFlagsGet, kvBlkFlagsSet, hx]

theorem flags_kvBlkFreeszSet (b n : ℕ) :
    (fun x => kvBlkFlagsGet x (kvBlkFreeszSet b c n)) = fun x => kvBlkFlagsGet x c := by
  funext x
  by_cases hx : x = b
  · subst hx; simp [kvBlkFlagsGet, kvBlkFreeszSet]
  · simp [kvBlkFlagsGet, kvBlkFreeszSet, hx]

/-- What a new flag byte for one block asks of the counters. -/
theorem counters_flagsSet (hc : Counters G c) {b : ℕ} (hb : b ∈ G.blks) {d : Ctl}
    (hd : ∀ x, kvBlkFlagsGet x d = kvBlkFlagsGet x c) (fl : Flags) :
    Counters G (kvBlkFlagsSet b d fl) ↔
      (d.numFresh + (kvBlkFlagsGet b c).fresh.toNat = c.numFresh + fl.fresh.toNat ∧
        d.numInuse + (kvBlkFlagsGet b c).inuse.toNat = c.numInuse + fl.inuse.toNat ∧
        d.numHanging + (kvBlkFlagsGet b c).hanging.toNat = c.numHanging + fl.hanging.toNat) ∧
      (fl.fresh → ¬fl.inuse ∧ ¬fl.dirty) := by
  have hx : ∀ x, kvBlkFlagsGet x (kvBlkFlagsSet b d fl) =
      Function.update (fun x => kvBlkFlagsGet x c) b fl x := by
    intro x
    rw [← funext hd]
    exact congrFun (flags_kvBlkFlagsSet b fl) x
  have hcount : ∀ p : Flags → Bool, numFlagged G p (kvBlkFlagsSet b d fl) + (p (kvBlkFlagsGet b c)).toNat =
      numFlagged G p c + (p fl).toNat := by
    intro p
    simp only [numFlagged, hx]
    exact countP_update G.nodup_blks hb (fun x => kvBlkFlagsGet x c) p fl
  have h1 := hcount Flags.fresh
  have h2 := hcount Flags.inuse
  have h3 := hcount Flags.hanging
  have e1 := hc.fresh
  have e2 := hc.inuse
  have e3 := hc.hanging
  constructor
  · intro h
    have f1 : d.numFresh = _ := h.fresh
    have f2 : d.numInuse = _ := h.inuse
    have f3 : d.numHanging = _ := h.hanging
    refine ⟨⟨by omega, by omega, by omega⟩, ?_⟩
    have := h.apart b hb
    simpa only [kvBlkIsFresh, kvBlkIsInuse, kvBlkIsDirty, hx, Function.update_self] using this
  · rintro ⟨⟨f1, f2, f3⟩, ha⟩
    refine ⟨(by omega : d.numFresh = _), (by omega : d.numInuse = _), (by omega : d.numHanging = _), ?_⟩
    intro x hxb
    simp only [kvBlkIsFresh, kvBlkIsInuse, kvBlkIsDirty, hx]
    by_cases hbx : x = b
    · subst hbx
      simpa only [Function.update_self] using ha
    · rw [Function.update_of_ne hbx]
      exact hc.apart x hxb

/-- Counting a block up, unless it is counted already. -/
theorem count_up {b : ℕ} (hb : b ∈ G.blks) (p : Flags → Bool) :
    (if p (kvBlkFlagsGet b c) then numFlagged G p c else inc16 (numFlagged G p c)) +
      (p (kvBlkFlagsGet b c)).toNat = numFlagged G p c + 1 := by
  cases hp : p (kvBlkFlagsGet b c) with
  | true => simp
  | false =>
    have := numFlagged_room hb p hp
    simp only [Bool.false_eq_true, if_false, Bool.toNat_false, inc16]
    omega

/-- Counting a block down, if it is counted. -/
theorem count_down {b : ℕ} (hb : b ∈ G.blks) (p : Flags → Bool) :
    (if p (kvBlkFlagsGet b c) then dec16 (numFlagged G p c) else numFlagged G p c) +
      (p (kvBlkFlagsGet b c)).toNat = numFlagged G p c := by
  cases hp : p (kvBlkFlagsGet b c) with
  | false => simp
  | true =>
    have hpos := numFlagged_pos hb p hp
    have hle : numFlagged G p c ≤ G.blks.length := List.countP_le_length
    have := G.few
    rw [G.length_blks] at hle
    simp only [if_true, Bool.toNat_true, dec16, Nat.pos_iff_ne_zero.mp hpos, if_false]
    omega

section Flag
variable (b : ℕ)

/-! Each helper is a change to one counter and one update of the flags. -/

theorem kvBlkSetFresh_eq : kvBlkSetFresh b c = kvBlkFlagsSet b (kvBlkFreeszSet b
    { c with numFresh := if (kvBlkFlagsGet b c).fresh then c.numFresh else inc16 c.numFresh } kvBlkFreshSize)
    { Flags.zero with fresh := true } := by
  by_cases h : (kvBlkFlagsGet b c).fresh
  · rw [kvBlkSetFresh, kvBlkIsFresh, if_pos h, if_pos h]
  · rw [kvBlkSetFresh, kvBlkIsFresh, if_neg h, if_neg h]

theorem kvBlkSetInuse_eq : kvBlkSetInuse b c = kvBlkFlagsSet b
    { c with numInuse := if (kvBlkFlagsGet b c).inuse then c.numInuse else inc16 c.numInuse }
    { kvBlkFlagsGet b c with inuse := true } := by
  by_cases h : (kvBlkFlagsGet b c).inuse
  · rw [kvBlkSetInuse, kvBlkIsInuse, if_pos h, if_pos h]
  · rw [kvBlkSetInuse, kvBlkIsInuse, if_neg h, if_neg h]
    rfl

theorem kvBlkSetHanging_eq : kvBlkSetHanging b c = kvBlkFlagsSet b
    { c with numHanging := if (kvBlkFlagsGet b c).hanging then c.numHanging else inc16 c.numHanging }
    { kvBlkFlagsGet b c with hanging := true } := by
  by_cases h : (kvBlkFlagsGet b c).hanging
  · rw [kvBlkSetHanging, kvBlkIsHanging, if_pos h, if_pos h]
  · rw [kvBlkSetHanging, kvBlkIsHanging, if_neg h, if_neg h]
    rfl

theorem kvBlkResetFresh_eq : kvBlkResetFresh b c = kvBlkFlagsSet b
    { c with numFresh := if (kvBlkFlagsGet b c).fresh then dec16 c.numFresh else c.numFresh }
    { kvBlkFlagsGet b c with fresh := false } := by
  by_cases h : (kvBlkFlagsGet b c).fresh
  · rw [kvBlkResetFresh, kvBlkIsFresh, if_pos h, if_pos h]
    rfl
  · rw [kvBlkResetFresh, kvBlkIsFresh, if_neg h, if_neg h]

theorem kvBlkResetInuse_eq : kvBlkResetInuse b c = kvBlkFlagsSet b
    { c with numInuse := if (kvBlkFlagsGet b c).inuse then dec16 c.numInuse else c.numInuse }
    { kvBlkFlagsGet b c with inuse := false } := by
  by_cases h : (kvBlkFlagsGet b c).inuse
  · rw [kvBlkResetInuse, kvBlkIsInuse, if_pos h, if_pos h]
    rfl
  · rw [kvBlkResetInuse, kvBlkIsInuse, if_neg h, if_neg h]

theorem kvBlkResetHanging_eq : kvBlkResetHanging b c = kvBlkFlagsSet b
    { c with numHanging := if (kvBlkFlagsGet b c).hanging then dec16 c.numHanging else c.numHanging }
    { kvBlkFlagsGet b c with hanging := false } := by
  by_cases h : (kvBlkFlagsGet b c).hanging
  · rw [kvBlkResetHanging, kvBlkIsHanging, if_pos h, if_pos h]
    rfl
  · rw [kvBlkResetHanging, kvBlkIsHanging, if_neg h, if_neg h]

end Flag

/-- A helper call keeps the counters right exactly when it meets `Keeps`. -/
theorem counters_run_iff (hc : Counters G c) {i : IdxCall} (hi : i.InArea G) :
    Counters G (i.run c) ↔ i.Keeps c := by
  have e1 := hc.fresh
  have e2 := hc.inuse
  have e3 := hc.hanging
  cases i with
  | clear => exact iff_of_true counters_zero trivial
  | setWorkspace b => exact iff_of_true (counters_same hc rfl rfl rfl rfl) trivial
  | freeszSet b n => exact iff_of_true (counters_same hc (flags_kvBlkFreeszSet b n) rfl rfl rfl) trivial
  | freeszReduce b n => exact iff_of_true (counters_same hc (flags_kvBlkFreeszSet b _) rfl rfl rfl) trivial
  | setFresh b =>
    have hn := count_up (c := c) hi Flags.fresh
    rw [← e1] at hn
    rw [IdxCall.run, kvBlkSetFresh_eq, counters_flagsSet hc hi]
    · simp [IdxCall.Keeps, kvBlkIsInuse, kvBlkIsHanging, Flags.zero, kvBlkFreeszSet, hn]
    · exact fun x => congrFun (flags_kvBlkFreeszSet b _) x
  | setInuse b =>
    have hn := count_up (c := c) hi Flags.inuse
    rw [← e2] at hn
    rw [IdxCall.run, kvBlkSetInuse_eq, counters_flagsSet hc hi]
    · simp [IdxCall.Keeps, kvBlkIsFresh, hn]
    · exact fun _ => rfl
  | setDirty b =>
    rw [IdxCall.run, kvBlkSetDirty, counters_flagsSet hc hi]
    · simp [IdxCall.Keeps, kvBlkIsFresh]
    · exact fun _ => rfl
  | setBad b =>
    rw [IdxCall.run, kvBlkSetBad, counters_flagsSet hc hi]
    · simp [IdxCall.Keeps, kvBlkIsFresh, kvBlkIsInuse, kvBlkIsHanging, Flags.zero]
    · exact fun _ => rfl
  | setHanging b =>
    have ha := hc.apart b hi
    simp only [kvBlkIsFresh, kvBlkIsInuse, kvBlkIsDirty] at ha
    have hn := count_up (c := c) hi Flags.hanging
    rw [← e3] at hn
    rw [IdxCall.run, kvBlkSetHanging_eq, counters_flagsSet hc hi]
    · simpa [IdxCall.Keeps, hn] using ha
    · exact fun _ => rfl
  | resetFresh b =>
    have hn := count_down (c := c) hi Flags.fresh
    rw [← e1] at hn
    rw [IdxCall.run, kvBlkResetFresh_eq, counters_flagsSet hc hi]
    · simp [IdxCall.Keeps, hn]
    · exact fun _ => rfl
  | resetInuse b =>
    have ha := hc.apart b hi
    simp only [kvBlkIsFresh, kvBlkIsInuse, kvBlkIsDirty, Bool.not_eq_true] at ha
    have hn := count_down (c := c) hi Flags.inuse
    rw [← e2] at hn
    rw [IdxCall.run, kvBlkResetInuse_eq, counters_flagsSet hc hi]
    · simpa [IdxCall.Keeps, hn] using fun h => (ha h).2
    · exact fun _ => rfl
  | resetHanging b =>
    have ha := hc.apart b hi
    simp only [kvBlkIsFresh, kvBlkIsInuse, kvBlkIsDirty] at ha
    have hn := count_down (c := c) hi Flags.hanging
    rw [← e3] at hn
    rw [IdxCall.run, kvBlkResetHanging_eq, counters_flagsSet hc hi]
    · simpa [IdxCall.Keeps, hn] using ha
    · exact fun _ => rfl

/-- Right counters do not wrap. -/
theorem not_wraps (hc : Counters G c) {i : IdxCall} (hi : i.InArea G) : ¬i.Wraps c := by
  have e1 := hc.fresh
  have e2 := hc.inuse
  have e3 := hc.hanging
  cases i with
  | resetFresh b => exact fun ⟨h, h0⟩ => absurd (numFlagged_pos hi Flags.fresh h) (by omega)
  | resetInuse b => exact fun ⟨h, h0⟩ => absurd (numFlagged_pos hi Flags.inuse h) (by omega)
  | resetHanging b => exact fun ⟨h, h0⟩ => absurd (numFlagged_pos hi Flags.hanging h) (by omega)
  | _ => exact fun h => h

end OneCall

/-! ### Whole runs -/

theorem tracked_runCalls (cs : List Call) : Tracked (runCalls G E cs) := by
  induction cs with
  | nil => exact .pure _
  | cons c cs ih =>
    have hc : Tracked (c.run G E) := by
      cases c with
      | init => exact tracked_lnKvInit.bind fun _ => .pure _
      | set k v => exact (makes_lnKvSet k v).tracked.bind fun _ => .pure _
      | get k n => exact (makes_lnKvGet (.full G) k n).tracked.bind fun _ => .pure _
      | hasKey k => exact (makes_lnKvHasKey (.full G) k).tracked.bind fun _ => .pure _
      | del k => exact (makes_lnKvDel (.full G) k).tracked.bind fun _ => .pure _
    exact hc.bind fun _ => ih.bind fun _ => .pure _

/-- The counters are right at every moment of a record of helper calls, and none of the calls
wraps one. -/
def AlwaysRight (G : Geo) (is : List IdxCall) : Prop :=
  ∀ js, js <+: is → Counters G (replay .zero js) ∧ ∀ i, js ++ [i] <+: is → ¬i.Wraps (replay .zero js)

/-- Every call of the record meets `Keeps` when it is made. -/
def AlwaysKeeps (is : List IdxCall) : Prop := ∀ js i, js ++ [i] <+: is → i.Keeps (replay .zero js)

theorem replay_snoc (c : Ctl) (is : List IdxCall) (i : IdxCall) : replay c (is ++ [i]) = i.run (replay c is) := by
  simp [replay]

theorem alwaysRight_iff {is : List IdxCall} (hin : ∀ i ∈ is, i.InArea G) : AlwaysRight G is ↔ AlwaysKeeps is := by
  constructor
  · intro h js i hp
    have hi := hin i (hp.subset (by simp))
    have hnow := (h js ((List.prefix_append js [i]).trans hp)).1
    have hnext := (h (js ++ [i]) hp).1
    rw [replay_snoc] at hnext
    exact (counters_run_iff hnow hi).mp hnext
  · intro h
    have hall : ∀ js, js <+: is → Counters G (replay .zero js) := by
      intro js
      induction js using List.reverseRecOn with
      | nil => exact fun _ => counters_zero
      | append_singleton js i ih =>
        intro hp
        have hnow := ih ((List.prefix_append js [i]).trans hp)
        rw [replay_snoc, counters_run_iff hnow (hin i (hp.subset (by simp)))]
        exact h js i hp
    exact fun js hp => ⟨hall js hp, fun i hi => not_wraps (hall js hp) (hin i (hi.subset (by simp)))⟩

end Ln882x.Kv
