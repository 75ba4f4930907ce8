import Ln882x.Kv.Semantics

/-! A value that looks like an item. A run of seven calls on three sectors: the last one
replaces an item in the first sector, collects that sector and then the second into it, where
a value of the second now shows the bytes of the replaced item at its old place. The discard
mark goes into that value. The state between two calls is written down as its driver calls and
index changes, which tell the flash and the index. -/

namespace Ln882x.Kv

open Nor

variable {G : Geo} {s t : St} {f : Flash} {m : Bytes → Option Bytes}

/-! ### States from their records -/

/-- The flash and the index are what the recorded calls make of `f` and of an empty index. -/
def Logged (f : Flash) (s : St) : Prop := s.dev.flash = applyAll s.dev.ops f ∧ s.ctl = replay .zero s.calls

/-- The state with these records. -/
def logState (f : Flash) (ops : List Op) (calls : List IdxCall) (tick : ℕ) : St :=
  ⟨⟨applyAll ops f, ops⟩, replay .zero calls, tick, calls⟩

theorem Logged.eq (h : Logged f s) {ops : List Op} {calls : List IdxCall} {tick : ℕ} (ho : s.dev.ops = ops)
    (hc : s.calls = calls) (ht : s.tick = tick) : s = logState f ops calls tick := by
  obtain ⟨⟨flash, _⟩, ctl, _, _⟩ := s
  obtain ⟨hf, hctl⟩ := h
  subst ho hc ht
  simp only at hf hctl
  rw [hf, hctl]
  rfl

/-- Driver calls of any content. -/
abbrev Drives (s t : St) : Prop := Dev.Steps (fun _ => True) s.dev t.dev

theorem Logged.after (h : Logged f s) (hd : Drives s t)
    (hc : ∃ is, t.calls = s.calls ++ is ∧ t.ctl = replay s.ctl is) : Logged f t := by
  obtain ⟨ops, ho, hf, -⟩ := hd
  obtain ⟨is, hcalls, hctl⟩ := hc
  refine ⟨?_, ?_⟩
  · rw [hf, ho, h.1, applyAll_append]
  · rw [hctl, hcalls, h.2, replay, replay, replay, List.foldl_append]

theorem logged_on (f : Flash) : Logged f (.on f) := ⟨rfl, rfl⟩

theorem Dev.Still.drives (h : Dev.Still s.dev t.dev) : Drives s t := h.steps trivial

theorem LSteps.drives {P : (ℕ → Blk) → Prop} (h : LSteps G P s.dev t.dev) : Drives s t :=
  Dev.Steps.mono h fun _ _ => trivial

theorem Inited.drives {x : Bool} {L₀ L : ℕ → Blk} {u : St} {r : KvErr} (h : Inited G x s L₀ L u r t) : Drives s t := by
  obtain ⟨scan, hscan⟩ := h.scan
  exact (hscan.boot.steps.mono fun _ _ => trivial).trans (LSteps.drives h.steps)

theorem AreaErased.drives (hf : AreaErased G f) : Drives (.on f) (lnKvInit G .good (.on f)).2 := by
  have hlive : false = true → ∀ f' L, Boots G f (fun _ => .erased) f' L → AllFull G L →
      ∀ src rest, dirtyBlks G L = src :: rest → (L src).liveSlots ≠ [] := fun hx => absurd hx Bool.false_ne_true
  have hinit : wp (lnKvInit G .good) _ (St.on f) := wp_lnKvInit_plain (hf.bootHyp good_drvOk (good_mallocOk _))
    (good_mallocOk _) (good_mallocOk _) (fun _ _ => ⟨rfl, by simp [Blk.erased]⟩) hlive
  obtain ⟨L, u, hin⟩ := hinit
  exact hin.drives

/-- A harmless set changes the flash by its driver calls. -/
theorem Running.drives_set (h : Running G false m s) {key value : Bytes} (hc : CallOk G s (.set key value)) :
    Drives s (lnKvSet G .good key value s).2 := by
  by_cases hlong : key.length ≥ 0xFF ∨ value.length ≥ 0xFFFF
  · unfold lnKvSet
    rw [if_pos hlong]
    exact .refl trivial
  · rw [not_or] at hlong
    have hok : SetOk G .good false s key value := (hc.resolve_left hlong.1).resolve_left hlong.2
    rcases h.ready with hw | hidle
    · have hset : wp (lnKvSet G .good key value) _ s := Kv.wp_lnKvSet good_drvOk ⟨h.core, hw⟩ h.holds hok
      obtain ⟨s₁, L', hst, -, -, hsteps⟩ := hset
      exact (Dev.Still.drives hst).trans (LSteps.drives hsteps)
    · have hset : wp (lnKvSet G .good key value) _ s := wp_lnKvSet_idle good_drvOk h.core hidle
        (Nat.lt_of_not_ge hlong.1) (Nat.lt_of_not_ge hlong.2)
      exact Dev.Still.drives hset.1

theorem Running.drives_del (h : Running G false m s) (key : Bytes) : Drives s (lnKvDel G .good key s).2 := by
  by_cases hlong : key.length ≥ 0xFF
  · unfold lnKvDel
    rw [if_pos hlong]
    exact .refl trivial
  · have hdel : wp (lnKvDel G .good key) _ s := Kv.wp_lnKvDel good_drvOk h.core (Nat.lt_of_not_ge hlong)
    obtain ⟨s₁, hst, -, ⟨-, heq, -⟩ | ⟨-, it, item, L', -, -, hdone⟩⟩ := hdel
    · rw [heq]
      exact Dev.Still.drives hst
    · exact (Dev.Still.drives hst).trans (LSteps.drives hdone.steps)

theorem Running.drives_get (h : Running G false m s) (key : Bytes) (n : ℕ) : Drives s (lnKvGet G .good key n s).2 := by
  by_cases hlong : key.length ≥ 0xFF
  · unfold lnKvGet
    rw [if_pos hlong]
    exact .refl trivial
  · have hget : wp (lnKvGet G .good key n) _ s :=
      Kv.wp_lnKvGet good_drvOk (good_mallocOk _) h.core h.holds (Nat.lt_of_not_ge hlong) n
    exact Dev.Still.drives hget.1

theorem Running.drives_hasKey (h : Running G false m s) (key : Bytes) : Drives s (lnKvHasKey G .good key s).2 := by
  by_cases hlong : key.length ≥ 0xFF
  · unfold lnKvHasKey
    rw [if_pos hlong]
    exact .refl trivial
  · have hkey : wp (lnKvHasKey G .good key) _ s :=
      Kv.wp_lnKvHasKey good_drvOk (good_mallocOk _) h.core h.holds (Nat.lt_of_not_ge hlong)
    exact Dev.Still.drives hkey.1

theorem Running.drives_init (h : Running G false m s) (hq : Quiet G s.dev.flash) : Drives s (lnKvInit G .good s).2 := by
  have hlive : false = true → TryLive G (blksOf s.dev.flash) := fun hx => absurd hx Bool.false_ne_true
  have hinit : wp (lnKvInit G .good) _ s :=
    h.stored.wp_lnKvInit hq good_drvOk (good_mallocOk _) (good_mallocOk _) (good_mallocOk _) hlive
  obtain ⟨-, -, u, -, hin⟩ := hinit
  exact hin.drives

theorem Running.drives (h : Running G false m s) {c : Call} (hc : CallOk G s c) : Drives s (c.run G .good s).2 := by
  cases c with
  | init => exact h.drives_init hc
  | set key value => exact h.drives_set hc
  | get key n => exact h.drives_get key n
  | hasKey key => exact h.drives_hasKey key
  | del key => exact h.drives_del key

/-- The records tell the state after harmless calls. -/
theorem Running.logged (h : Running G false m s) (hlog : Logged f s) {calls : List Call} (hc : CallsOk G calls s) :
    Logged f (runCalls G .good calls s).2 := by
  induction calls generalizing m s with
  | nil => exact hlog
  | cons c cs ih =>
    obtain ⟨m', hrun⟩ := h.call hc.1
    have htracked := tracked_runCalls (G := G) (E := .good) [c] s
    have hone : (runCalls G .good [c] s).2 = (c.run G .good s).2 := rfl
    rw [wp_iff, hone] at htracked
    exact ih hrun (hlog.after (h.drives hc.1) htracked) hc.2

theorem AreaErased.logged (hf : AreaErased G f) {calls : List Call}
    (hc : CallsOk G calls (lnKvInit G .good (.on f)).2) : Logged f (afterCalls G f calls) := by
  have hinit : Logged f (lnKvInit G .good (.on f)).2 := (logged_on f).after hf.drives (tracked_lnKvInit (.on f))
  exact hf.started.logged hinit hc

/-! ### The run -/

/-- A value with the bytes of an item, where the padding takes the place of one byte of a header. -/
def lookalike : Bytes := 0 :: (newItem [2] [7] 0).slot.image

/-- The third item fills the first sector, the fifth holds the look-alike in the second. -/
def before : List Call :=
  [.set [1] [1], .set [2] [7], .set [3, 3] (List.replicate 3986 0), .set [4] [9], .set [4] lookalike, .del [3, 3]]

/-- The driver calls that write an item. -/
def writeItem (addr : ℕ) (it : Item) : List Op :=
  [.program (addr + 16) it.slot.hdr.tail, .program (addr + 8) (leBytes 8 kvItemHdrMagic), .program (addr + 24) it.body]

/-- The state after these calls. -/
def stateBefore : St := afterCalls threeBlocks (fun _ => 0xFF) before

def opsFirst : List Op :=
  ([0x1000, 0x2000, 0x3000].flatMap fun b => [.erase b kvBlkSize, .program b (leBytes 8 kvBlkHdrMagic)]) ++
    writeItem 0x1020 (newItem [1] [1] 0) ++ writeItem 0x103A (newItem [2] [7] 0)

def opsLater : List Op :=
  [.program 0x105C (leBytes 8 kvItemHdrMagic), .program 0x106C ([3, 3] ++ List.replicate 3986 0)] ++
    writeItem 0x2020 (newItem [4] [9] 0) ++ writeItem 0x203A (newItem [4] lookalike 0x2020) ++
    [.program 0x2020 (leBytes 8 kvItemDiscarded), .program 0x1054 (leBytes 8 kvItemDiscarded)]

/-- The driver calls up to there; `sum` is the checksum of the long item, which no later call
looks at. -/
def opsBefore (sum : UInt8) : List Op := opsFirst ++ .program 0x1064 [sum, 2, 146, 15, 0, 0, 0, 0] :: opsLater

def callsBefore : List IdxCall :=
  [.clear, .setFresh 0x1000, .setFresh 0x2000, .setFresh 0x3000, .setWorkspace 0x1000,
    .freeszReduce 0x1000 26, .resetFresh 0x1000, .setInuse 0x1000,
    .freeszSet 0x1000 4038, .setInuse 0x1000, .freeszReduce 0x1000 26,
    .freeszSet 0x1000 4012, .setInuse 0x1000, .freeszReduce 0x1000 4012, .resetInuse 0x1000,
    .freeszSet 0x1000 0, .resetInuse 0x1000, .setWorkspace 0x2000, .freeszReduce 0x2000 26, .resetFresh 0x2000,
    .setInuse 0x2000, .freeszSet 0x1000 0, .resetInuse 0x1000, .freeszReduce 0x2000 52, .setDirty 0x2000,
    .setDirty 0x1000]

/-- A write without its first byte. -/
def behindFirst : Op → ℕ × ℕ × Bytes
  | .program addr data => (addr, data.length, data.tail)
  | .erase addr len => (addr, len, [])

def firstByte : Op → UInt8
  | .program _ data => data.headD 0
  | .erase _ _ => 0

def longHdr : Op := (stateBefore.dev.ops.drop 12).headD (.erase 0 0)

theorem stateBefore_records : stateBefore.dev.ops.take 12 = opsFirst ∧ stateBefore.dev.ops.drop 13 = opsLater ∧
    stateBefore.calls = callsBefore ∧ stateBefore.tick = 79 := by
  decide +kernel

theorem longHdr_behindFirst : behindFirst longHdr = (0x1064, 8, [2, 146, 15, 0, 0, 0, 0]) := by
  decide +kernel

theorem eq_program {o : Op} {addr len : ℕ} {rest : Bytes} (h : behindFirst o = (addr, len + 1, rest))
    (hrest : rest ≠ []) : o = .program addr (firstByte o :: rest) := by
  cases o with
  | erase a n =>
    simp only [behindFirst, Prod.mk.injEq] at h
    exact absurd h.2.2.symm hrest
  | program a data =>
    simp only [behindFirst, Prod.mk.injEq] at h
    obtain ⟨rfl, hlen, rfl⟩ := h
    cases data with
    | nil => cases hlen
    | cons d data => rfl

theorem eq_take_append_drop {α : Type} {xs : List α} {n : ℕ} (a : α) (h : xs.drop (n + 1) ≠ []) :
    xs = xs.take n ++ (xs.drop n).headD a :: xs.drop (n + 1) := by
  have hlt : n < xs.length := by
    by_contra hge
    exact h (List.drop_eq_nil_iff.mpr (by omega))
  conv_lhs => rw [← List.take_append_drop n xs, List.drop_eq_getElem_cons hlt]
  rw [List.drop_eq_getElem_cons hlt, List.headD_cons]

theorem stateBefore_ops : stateBefore.dev.ops = opsBefore (firstByte longHdr) := by
  obtain ⟨htake, hdrop, -, -⟩ := stateBefore_records
  have hne : opsLater ≠ [] := by decide +kernel
  have hsplit := eq_take_append_drop (.erase 0 0) (hdrop ▸ hne)
  rw [htake, hdrop] at hsplit
  have hhdr := eq_program longHdr_behindFirst (List.cons_ne_nil _ _)
  exact hsplit.trans (congrArg (fun o => opsFirst ++ o :: opsLater) hhdr)

/-- The same state, from its records. -/
def stateFull : St := logState (fun _ => 0xFF) (opsBefore (firstByte longHdr)) callsBefore 79

/-- The item that is replaced, as it is found. -/
def replaced : KvItem := ⟨(newItem [2] [7] 0).slot.hdr, 0x103A, [2, 7]⟩

/-- The driver calls of the two collections. -/
def opsCollect : List Op :=
  [.program 0x1008 (leBytes 8 kvBlkHdrGcSrc), .program 0x3010 (leBytes 8 kvBlkHdrGcDst)] ++
    writeItem 0x3020 (newItem [1] [1] 0) ++ writeItem 0x303A (newItem [2] [7] 0) ++
    [.erase 0x1000 kvBlkSize, .program 0x1000 (leBytes 8 kvBlkHdrMagic), .program 0x3018 (leBytes 8 kvBlkHdrGcDone),
      .program 0x2008 (leBytes 8 kvBlkHdrGcSrc), .program 0x1010 (leBytes 8 kvBlkHdrGcDst)] ++
    writeItem 0x1020 (newItem [4] lookalike 0x2020) ++
    [.erase 0x2000 kvBlkSize, .program 0x2000 (leBytes 8 kvBlkHdrMagic), .program 0x1018 (leBytes 8 kvBlkHdrGcDone)]

def callsCollect : List IdxCall :=
  [.freeszReduce 0x3000 26, .freeszReduce 0x3000 26, .setDirty 0x1000, .freeszSet 0x1000 0, .resetInuse 0x1000,
    .resetInuse 0x1000, .setFresh 0x1000, .resetFresh 0x3000, .setInuse 0x3000, .setWorkspace 0x3000,
    .setDirty 0x2000, .freeszReduce 0x1000 52, .freeszSet 0x2000 3986, .setInuse 0x2000, .resetInuse 0x2000,
    .setFresh 0x2000, .resetFresh 0x1000, .setInuse 0x1000, .setWorkspace 0x1000, .setWorkspace 0x2000]

def stateFound : St := (kvItemFind threeBlocks .good [2] stateFull).2
def stateRoom : St := logState (fun _ => 0xFF) (opsBefore (firstByte longHdr) ++ opsCollect) (callsBefore ++ callsCollect) 124

/-! ### Up to the last call -/

theorem before_harmless : CallsOk threeBlocks before (lnKvInit threeBlocks .good (.on fun _ => 0xFF)).2 := by
  refine ⟨.inr (.inr (setOk_of_room ⟨?_, ?_, ?_, ?_⟩ ?_)), .inr (.inr (setOk_of_room ⟨?_, ?_, ?_, ?_⟩ ?_)),
    .inr (.inr (setOk_of_room ⟨?_, ?_, ?_, ?_⟩ ?_)), .inr (.inr (setOk_of_room ⟨?_, ?_, ?_, ?_⟩ ?_)),
    .inr (.inr (setOk_of_room ⟨?_, ?_, ?_, ?_⟩ ?_)), trivial, trivial⟩
  all_goals decide +kernel

theorem stateBefore_eq : stateBefore = stateFull := by
  have hlog : Logged (fun _ => 0xFF) stateBefore := threeBlocks_erased.logged before_harmless
  exact hlog.eq stateBefore_ops stateBefore_records.2.2.1 stateBefore_records.2.2.2

/-! ### The last call -/

theorem drives_ops (h : Drives s t) : t.dev.ops = s.dev.ops ++ t.dev.ops.drop s.dev.ops.length := by
  obtain ⟨ops, ho, -, -⟩ := h
  rw [ho, List.drop_left]

/-- A set whose search finds an item, which is taken as not moved. -/
theorem lnKvSet_of_notMoved {E : Env} {key value : Bytes} {item : KvItem} {blk : ℕ} {s₁ s₂ s₃ s₄ : St}
    (hlong : ¬(key.length ≥ 0xFF ∨ value.length ≥ 0xFFFF)) (hfind : kvItemFind G E key s = (some item, s₁))
    (hne : kvItemValueIsMatch item value = false)
    (hroom : kvBlkSearchSuitable G E (kvItemSize key.length value.length) s₁ = (blk, s₂)) (hblk : blk ≠ kvBlkInvalid)
    (hmoved : kvItemIsMoved E item s₂ = (false, s₃)) (hsave : kvItemSaveAt E key value blk item.pos s₃ = (.none, s₄)) :
    lnKvSet G E key value s = kvItemDelete G E item s₄ := by
  unfold lnKvSet
  rw [if_neg hlong, run_bind_eq hfind]
  simp only [kvItemUpdate, hne, Bool.false_eq_true, if_false]
  have hitem : kvItemSave G E key value (some item) s₁ = ((.none, some item), s₄) := by
    unfold kvItemSave
    rw [run_bind_eq hroom, if_neg hblk]
    simp only []
    rw [run_bind_eq hmoved, if_neg Bool.false_ne_true, run_bind_eq hsave]
    rfl
  rw [run_bind_eq hitem]

theorem found_replaced : kvItemFind threeBlocks .good [2] stateFull = (some replaced, stateFound) := by
  have hitem : (kvItemFind threeBlocks .good [2] stateFull).1 = some replaced := by decide +kernel
  exact Prod.ext hitem rfl

/-- What the collections record, and the block that is chosen then. -/
theorem search_records :
    (kvBlkSearchSuitable threeBlocks .good (kvItemSize 1 4000) stateFound).1 = 0x2000 ∧
      (kvBlkSearchSuitable threeBlocks .good (kvItemSize 1 4000) stateFound).2.dev.ops.drop 23 = opsCollect ∧
      (kvBlkSearchSuitable threeBlocks .good (kvItemSize 1 4000) stateFound).2.calls = callsBefore ++ callsCollect ∧
      (kvBlkSearchSuitable threeBlocks .good (kvItemSize 1 4000) stateFound).2.tick = 124 := by
  decide +kernel

theorem search_room : kvBlkSearchSuitable threeBlocks .good (kvItemSize 1 4000) stateFound = (0x2000, stateRoom) := by
  obtain ⟨hblk, hops, hcalls, htick⟩ := search_records
  obtain ⟨m, hrun⟩ : ∃ m, Running threeBlocks false m stateFull := stateBefore_eq ▸ threeBlocks_erased.running before_harmless
  have hlog : Logged (fun _ => 0xFF) stateFull := ⟨rfl, rfl⟩
  have hfind : wp (kvItemFind threeBlocks .good [2]) _ stateFull := wp_find good_drvOk hrun.core [2]
  obtain ⟨hst, hset, -⟩ := hfind
  have hws : stateFound.ctl.workspace ∈ threeBlocks.blks := by decide +kernel
  have hinv : Inv threeBlocks false (blksOf stateFull.dev.flash) stateFound := ⟨hrun.core.still hst hset, hws⟩
  have hsearch : wp (kvBlkSearchSuitable threeBlocks .good (kvItemSize 1 4000)) _ stateFound :=
    wp_kvBlkSearchSuitable good_drvOk (good_mallocOk _) (by decide) (by decide) hinv fun hx => absurd hx Bool.false_ne_true
  have hfresh : stateFound.ctl.numFresh ≠ 0 := by decide +kernel
  have hchosen := hsearch.resolve_left fun h => hfresh h.2.2
  have hdrives : Drives stateFull (kvBlkSearchSuitable threeBlocks .good (kvItemSize 1 4000) stateFound).2 :=
    (Dev.Still.drives hst).trans (LSteps.drives hchosen.steps)
  have hmade : Made .full stateFull (kvBlkSearchSuitable threeBlocks .good (kvItemSize 1 4000) stateFound).2 :=
    Made.trans (makes_kvItemFind (.full _) [2] stateFull) (makes_kvBlkSearchSuitable (kvItemSize 1 4000) stateFound)
  obtain ⟨-, is, his, hctl, -⟩ := hmade
  have hlen : stateFull.dev.ops.length = 23 := by decide +kernel
  have hall := drives_ops hdrives
  rw [hlen, hops] at hall
  exact Prod.ext hblk ((hlog.after hdrives ⟨is, his, hctl⟩).eq hall hcalls htick)

/-- The value that does not fit behind what the first collection moved. -/
def long : Bytes := List.replicate 4000 0

def stateAsked : St := (kvItemIsMoved .good replaced stateRoom).2

def stateSaved : St := (kvItemSaveAt .good [2] long 0x2000 replaced.pos stateAsked).2

def stateLast : St := (kvItemDelete threeBlocks .good replaced stateSaved).2

theorem set_long : lnKvSet threeBlocks .good [2] long stateFull = (.none, stateLast) := by
  have hmoved : (kvItemIsMoved .good replaced stateRoom).1 = false := by decide +kernel
  have hsaved : (kvItemSaveAt .good [2] long 0x2000 replaced.pos stateAsked).1 = .none := by decide +kernel
  have hdel : (kvItemDelete threeBlocks .good replaced stateSaved).1 = .none := by decide +kernel
  have hne : kvItemValueIsMatch replaced long = false := by decide +kernel
  have hlong : ¬(([2] : Bytes).length ≥ 0xFF ∨ long.length ≥ 0xFFFF) := by decide +kernel
  have hsize : kvItemSize ([2] : Bytes).length long.length = kvItemSize 1 4000 := by
    rw [long, List.length_replicate]
    rfl
  have hroom : kvBlkSearchSuitable threeBlocks .good (kvItemSize ([2] : Bytes).length long.length) stateFound =
      (0x2000, stateRoom) := by rw [hsize, search_room]
  have hasked : kvItemIsMoved .good replaced stateRoom = (false, stateAsked) := Prod.ext hmoved (by rw [stateAsked])
  have hsave : kvItemSaveAt .good [2] long 0x2000 replaced.pos stateAsked = (.none, stateSaved) :=
    Prod.ext hsaved (by rw [stateSaved])
  rw [lnKvSet_of_notMoved hlong found_replaced hne hroom (by decide) hasked hsave]
  exact Prod.ext hdel (by rw [stateLast])

theorem get_spoiled : (lnKvGet threeBlocks .good [4] 100 stateLast).1 ≠ (.none, lookalike) := by
  decide +kernel

/-! ### The lookup that is wrong -/

theorem run_set (key value : Bytes) (s : St) : (Call.set key value).run G .good s =
    (.code (lnKvSet G .good key value s).1, (lnKvSet G .good key value s).2) := rfl

theorem run_get (key : Bytes) (n : ℕ) (s : St) : (Call.get key n).run G .good s =
    (.data (lnKvGet G .good key n s).1.1 (lnKvGet G .good key n s).1.2, (lnKvGet G .good key n s).2) := rfl

/-- The sets and the delete of the run, the last set and a lookup of the other key. -/
def spoiling : List Call := before ++ [.set [2] long, .get [4] 100]

theorem spoiling_admissible : ∀ c ∈ spoiling, Admissible c := by
  have hbefore : ∀ c ∈ before, Admissible c := by
    rw [before]
    refine List.forall_mem_cons.mpr ⟨⟨?_, ?_, ?_, ?_⟩, List.forall_mem_cons.mpr ⟨⟨?_, ?_, ?_, ?_⟩,
      List.forall_mem_cons.mpr ⟨⟨?_, ?_, ?_, ?_⟩, List.forall_mem_cons.mpr ⟨⟨?_, ?_, ?_, ?_⟩,
      List.forall_mem_cons.mpr ⟨⟨?_, ?_, ?_, ?_⟩, List.forall_mem_singleton.mpr ⟨?_, ?_⟩⟩⟩⟩⟩⟩
    all_goals decide +kernel
  have hlast : Admissible (.set [2] long) := ⟨by decide, by decide, by decide +kernel, by decide +kernel⟩
  intro c hc
  rcases List.mem_append.mp hc with hc | hc
  · exact hbefore c hc
  · rcases List.mem_pair.mp hc with rfl | rfl
    · exact hlast
    · exact ⟨by decide, by decide⟩

/-- The value of the fourth key is not what the last set of it stored. -/
theorem lookups_wrong : AreaErased threeBlocks (fun _ => 0xFF) ∧ (∀ c ∈ spoiling, Admissible c) ∧
    ¬AllRight threeBlocks (fun _ => none) spoiling (lnKvInit threeBlocks .good (.on fun _ => 0xFF)).2 := by
  refine ⟨threeBlocks_erased, spoiling_admissible, fun h => ?_⟩
  have hright := h.behind
  have hmap : mapAfterAll threeBlocks (fun _ => none) before
      (lnKvInit threeBlocks .good (.on fun _ => 0xFF)).2 [4] = some lookalike := by decide +kernel
  have hstate : (runCalls threeBlocks .good before (lnKvInit threeBlocks .good (.on fun _ => 0xFF)).2).2 = stateFull :=
    stateBefore_eq
  rw [hstate] at hright
  generalize mapAfterAll threeBlocks (fun _ => none) before (lnKvInit threeBlocks .good (.on fun _ => 0xFF)).2 = m at hright hmap
  obtain ⟨-, hget, -⟩ := hright
  rw [run_set, set_long] at hget
  have hkey : mapAfter m (.set [2] long) (.code .none) [4] = some lookalike := by
    rw [mapAfter, Function.update_of_ne (by decide), hmap]
  simp only [run_get, Call.Right, hkey] at hget
  rw [if_neg (by decide)] at hget
  injection hget with herr hval
  exact get_spoiled (Prod.ext herr hval)

end Ln882x.Kv
