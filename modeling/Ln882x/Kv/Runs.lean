import Ln882x.Kv.Running

/-! Whole runs of the store, from an erased area and without failures. A call is
harmless in a state if it keeps the store running: a set must fit a block and
must not meet a copy of the item it replaces, a start must not meet the old copy
of an item that was updated. After any number of harmless calls, collecting a
dirty block into a fresh one moves its live items and changes nothing else. -/

namespace Ln882x.Kv

open Nor

variable {G : Geo} {x : Bool} {s t : St} {f : Flash} {m : Bytes → Option Bytes} {key value : Bytes}

/-! ### Harmless calls -/

theorem good_drvOk : Env.good.DrvOk := fun _ => rfl

theorem good_mallocOk (ph : Phase) : Env.good.MallocOk ph := fun _ => rfl

/-- A set is refused for its sizes, or fits a block and takes no copy for the item it replaces. -/
def CallOk (G : Geo) (s : St) : Call → Prop
  | .init => Quiet G s.dev.flash
  | .set key value => key.length ≥ 0xFF ∨ value.length ≥ 0xFFFF ∨ SetOk G .good false s key value
  | .get _ _ => True
  | .hasKey _ => True
  | .del _ => True

/-- Every call is harmless in the state before it. -/
def CallsOk (G : Geo) : List Call → St → Prop
  | [], _ => True
  | c :: cs, s => CallOk G s c ∧ CallsOk G cs (c.run G .good s).2

/-- The state after the first start on an area and the calls that follow. -/
def afterCalls (G : Geo) (f : Flash) (calls : List Call) : St := (runCalls G .good calls (lnKvInit G .good (.on f)).2).2

theorem Running.loose (h : Running G true m s) : Running G false m s where
  core := h.core.weaken
  legal := h.legal
  holds := h.holds
  ready := h.ready

/-! ### One call -/

theorem Running.wp_set (h : Running G false m s) (hc : CallOk G s (.set key value)) :
    wp (lnKvSet G .good key value) (fun _ t => ∃ m', Running G false m' t) s := by
  by_cases hlong : key.length ≥ 0xFF ∨ value.length ≥ 0xFFFF
  · unfold lnKvSet
    rw [if_pos hlong]
    exact wp.pure ⟨m, h⟩
  · rw [not_or] at hlong
    have hok : SetOk G .good false s key value := by
      rcases hc with hk | hv | hok
      · exact absurd hk hlong.1
      · exact absurd hv hlong.2
      · exact hok
    exact (h.wp_lnKvSet good_drvOk hok).mono fun r t ht => ⟨_, ht⟩

theorem Running.wp_del (h : Running G false m s) (key : Bytes) :
    wp (lnKvDel G .good key) (fun _ t => ∃ m', Running G false m' t) s := by
  by_cases hlong : key.length ≥ 0xFF
  · unfold lnKvDel
    rw [if_pos hlong]
    exact wp.pure ⟨m, h⟩
  · exact (h.wp_lnKvDel good_drvOk (good_mallocOk _) (Nat.lt_of_not_ge hlong)).mono fun r t ht => ⟨_, ht.1⟩

theorem Running.wp_get (h : Running G false m s) (key : Bytes) (n : ℕ) :
    wp (lnKvGet G .good key n) (fun _ t => ∃ m', Running G false m' t) s := by
  by_cases hlong : key.length ≥ 0xFF
  · unfold lnKvGet
    rw [if_pos hlong]
    exact wp.pure ⟨m, h⟩
  · exact (h.wp_lnKvGet good_drvOk (good_mallocOk _) (Nat.lt_of_not_ge hlong) n).mono fun r t ht => ⟨_, ht.1⟩

theorem Running.wp_hasKey (h : Running G false m s) (key : Bytes) :
    wp (lnKvHasKey G .good key) (fun _ t => ∃ m', Running G false m' t) s := by
  by_cases hlong : key.length ≥ 0xFF
  · unfold lnKvHasKey
    rw [if_pos hlong]
    exact wp.pure ⟨m, h⟩
  · exact (h.wp_lnKvHasKey good_drvOk (good_mallocOk _) (Nat.lt_of_not_ge hlong)).mono fun r t ht => ⟨_, ht.1⟩

theorem Running.wp_init (h : Running G false m s) (hq : Quiet G s.dev.flash) :
    wp (lnKvInit G .good) (fun _ t => ∃ m', Running G false m' t) s := by
  have hlive : false = true → TryLive G (blksOf s.dev.flash) := fun hx => absurd hx Bool.false_ne_true
  apply wp.mono (h.stored.wp_lnKvInit hq good_drvOk (good_mallocOk _) (good_mallocOk _) (good_mallocOk _) hlive)
  rintro r t ⟨hrun, -, -⟩
  exact ⟨m, hrun⟩

/-- A harmless call leaves the store running. -/
theorem Running.call (h : Running G false m s) {c : Call} (hc : CallOk G s c) :
    ∃ m', Running G false m' (c.run G .good s).2 := by
  cases c with
  | init => exact h.wp_init hc
  | set key value => exact h.wp_set hc
  | get key n => exact h.wp_get key n
  | hasKey key => exact h.wp_hasKey key
  | del key => exact h.wp_del key

/-! ### Runs -/

theorem Running.calls (h : Running G false m s) {cs : List Call} (hc : CallsOk G cs s) :
    ∃ m', Running G false m' (runCalls G .good cs s).2 := by
  induction cs generalizing m s with
  | nil => exact ⟨m, h⟩
  | cons c cs ih =>
    obtain ⟨hcall, hrest⟩ := hc
    obtain ⟨m₁, h₁⟩ := h.call hcall
    exact ih h₁ hrest

theorem AreaErased.running (hf : AreaErased G f) {cs : List Call} (hc : CallsOk G cs (lnKvInit G .good (.on f)).2) :
    ∃ m, Running G false m (afterCalls G f cs) := by
  have hinit : wp (lnKvInit G .good) _ (St.on f) :=
    AreaErased.wp_lnKvInit hf good_drvOk (good_mallocOk _) (good_mallocOk _) (good_mallocOk _)
  exact hinit.1.loose.calls hc

/-! ### Collecting a block -/

/-- The slots of a block that hold live items, in the order of their addresses. -/
def liveOf (s : St) (blk : ℕ) : List Slot := (blksOf s.dev.flash blk).liveSlots

/-- `dst` holds the live items of `src` and nothing else, `src` is a fresh block, every other
block is as before, and every lookup finds what it found before. -/
structure Collected (G : Geo) (s : St) (src dst : ℕ) (t : St) : Prop where
  items : readBytes t.dev.flash (kvBlkFirstItem dst) (slotsSize (liveOf s src)) = slotsImage (liveOf s src)
  rest : readBytes t.dev.flash (kvBlkFirstItem dst + slotsSize (liveOf s src)) (kvBlkFreshSize - slotsSize (liveOf s src)) =
    blank (kvBlkFreshSize - slotsSize (liveOf s src))
  freeSize : kvBlkFreeszGet dst t.ctl = kvBlkFreshSize - slotsSize (liveOf s src)
  inuse : kvBlkIsInuse dst t.ctl = true ↔ kvItemHdrSize < kvBlkFreshSize - slotsSize (liveOf s src)
  srcFlash : readBytes t.dev.flash src kvBlkSize = Blk.formatted.image
  srcFresh : kvBlkIsFresh src t.ctl = true
  other : ∀ b ∈ G.blks, b ≠ src → b ≠ dst →
    readBytes t.dev.flash b kvBlkSize = readBytes s.dev.flash b kvBlkSize ∧ t.ctl.blkDetail b = s.ctl.blkDetail b
  lookups : ∀ key n, (lnKvGet G .good key n t).1 = (lnKvGet G .good key n s).1

/-- Two running stores with the same map answer every lookup alike. -/
theorem Running.lookup_eq (h : Running G false m s) (h' : Running G false m t) (key : Bytes) (n : ℕ) :
    (lnKvGet G .good key n t).1 = (lnKvGet G .good key n s).1 := by
  by_cases hlong : key.length ≥ 0xFF
  · unfold lnKvGet
    rw [if_pos hlong]
    rfl
  · have hk := Nat.lt_of_not_ge hlong
    have hs : wp (lnKvGet G .good key n) _ s := h.wp_lnKvGet good_drvOk (good_mallocOk _) hk n
    have ht : wp (lnKvGet G .good key n) _ t := h'.wp_lnKvGet good_drvOk (good_mallocOk _) hk n
    exact ht.2.trans hs.2.symm

theorem Running.wp_kvDoGc (h : Running G false m s) {src dst : ℕ} (hs : src ∈ G.blks) (ht : dst ∈ G.blks)
    (hdirty : kvBlkIsDirty src s.ctl = true) (hfresh : kvBlkIsFresh dst s.ctl = true) :
    wp (kvDoGc G .good src dst false) (fun r t => r = .none ∧ Collected G s src dst t) s := by
  have hdisc : (blksOf s.dev.flash src).hasDisc = true := by rw [← h.core.idx.dirty_iff hs, hdirty]
  have hempty := h.core.idx.fresh_empty ht hfresh
  have hne : src ≠ dst := by
    rintro rfl
    exact slots_of_hasDisc hdisc hempty
  have hw : s.ctl.workspace ∈ G.blks := by
    rcases h.ready with hw | hidle
    · exact hw
    · rw [hidle.fresh dst ht] at hfresh
      exact absurd hfresh Bool.false_ne_true
  apply wp.mono (Kv.wp_kvDoGc good_drvOk (good_mallocOk _) h.core hs ht hdisc hfresh fun hx => absurd hx Bool.false_ne_true)
  rintro r t ⟨rfl, hfree, hcore, hgc, -⟩
  have hslots : (collect (blksOf s.dev.flash) src dst dst).slots = liveOf s src := by
    rw [collect_dst hne, liveOf]
  have hpacked : (collect (blksOf s.dev.flash) src dst dst).free = kvBlkFreshSize - slotsSize (liveOf s src) :=
    free_collect_dst hne
  have hedits : Edits G (blksOf s.dev.flash) (collect (blksOf s.dev.flash) src dst) := .collect .refl hs ht hne hempty
  have hrun : Running G false m t := hcore.running (hedits.allLegal h.legal) (h.holds.perm (allItems_collect hs ht hne hempty))
    (.inl (hgc.workspace ▸ hw))
  refine ⟨rfl, ?_, ?_, hfree, ?_, ?_, hgc.srcFresh, ?_, fun key n => h.lookup_eq hrun key n⟩
  · have himg := (hcore.rep dst ht).1
    rw [Blk.image, hslots] at himg
    exact readBytes_part himg (Blk.length_head _) (length_slotsImage _)
  · rw [← hpacked]
    have hread := hcore.rep.read_free ht le_rfl
    rw [hslots] at hread
    exact hread
  · have hidx := (hcore.idx.blk dst ht).inuse hgc.dstFresh
    rw [hpacked] at hidx
    exact hidx
  · have himg := (hcore.rep src hs).1
    rw [collect_src] at himg
    exact himg
  · intro b hb hbs hbd
    have himg := (hcore.rep b hb).1
    rw [collect_other hbs hbd, ← (h.core.rep b hb).1] at himg
    exact ⟨himg, hgc.other b hbs hbd⟩

/-- In every run of harmless calls on an erased area: collecting a dirty block into a fresh one
keeps exactly the live items. -/
theorem kvDoGc_keeps_live (G : Geo) (f : Flash) (hf : AreaErased G f) (calls : List Call)
    (hc : CallsOk G calls (lnKvInit G .good (.on f)).2) (src dst : ℕ) (hs : src ∈ G.blks) (ht : dst ∈ G.blks)
    (hdirty : kvBlkIsDirty src (afterCalls G f calls).ctl = true) (hfresh : kvBlkIsFresh dst (afterCalls G f calls).ctl = true) :
    (kvDoGc G .good src dst false (afterCalls G f calls)).1 = .none ∧
      Collected G (afterCalls G f calls) src dst (kvDoGc G .good src dst false (afterCalls G f calls)).2 := by
  obtain ⟨m, hrun⟩ := hf.running hc
  exact hrun.wp_kvDoGc hs ht hdirty hfresh

/-- A set that needs no collection takes no copy for the item it replaces. -/
theorem setOk_of_room (hfits : Fits key value)
    (h : ¬NeedsGc G (kvItemFind G .good key s).2.ctl (kvItemSize key.length value.length)) :
    SetOk G .good false s key value where
  fits := hfits
  gc := good_mallocOk _
  find := .inl (good_mallocOk _)
  noAlias := by
    intro b _ pre it post _ _ d hfol
    rw [gcList, if_neg h] at hfol
    obtain ⟨l, r, hlr⟩ := hfol
    cases l <;> cases hlr
  live := fun hx => absurd hx Bool.false_ne_true

/-- Three sectors. -/
def threeBlocks : Geo := ⟨0x1000, 3, by decide, by decide, by decide, by decide⟩

theorem threeBlocks_erased : AreaErased threeBlocks fun _ => 0xFF := by
  intro b _
  simp [readBytes, blank, List.map_const']

/-- A key that was set twice. -/
def setTwice : List Call := [.set [1] [2], .set [1] [3]]

theorem kvDoGc_keeps_live_setTwice :
    kvBlkIsDirty 0x1000 (afterCalls threeBlocks (fun _ => 0xFF) setTwice).ctl = true ∧
      kvBlkIsFresh 0x2000 (afterCalls threeBlocks (fun _ => 0xFF) setTwice).ctl = true ∧
      Collected threeBlocks (afterCalls threeBlocks (fun _ => 0xFF) setTwice) 0x1000 0x2000
        (kvDoGc threeBlocks .good 0x1000 0x2000 false (afterCalls threeBlocks (fun _ => 0xFF) setTwice)).2 := by
  have hc : CallsOk threeBlocks setTwice (lnKvInit threeBlocks .good (.on fun _ => 0xFF)).2 := by
    refine ⟨.inr (.inr (setOk_of_room ⟨?_, ?_, ?_, ?_⟩ ?_)), .inr (.inr (setOk_of_room ⟨?_, ?_, ?_, ?_⟩ ?_)), trivial⟩
    all_goals decide +kernel
  have hdirty : kvBlkIsDirty 0x1000 (afterCalls threeBlocks (fun _ => 0xFF) setTwice).ctl = true := by decide +kernel
  have hfresh : kvBlkIsFresh 0x2000 (afterCalls threeBlocks (fun _ => 0xFF) setTwice).ctl = true := by decide +kernel
  exact ⟨hdirty, hfresh, (kvDoGc_keeps_live threeBlocks _ threeBlocks_erased setTwice hc 0x1000 0x2000 (by decide) (by decide)
    hdirty hfresh).2⟩

/-- The same, and then a value that is longer than a block: the second block overflows into the
third, which stays fresh in the index. -/
def setLong : List Call := setTwice ++ [.set [9] (List.replicate 4100 0)]

theorem kvDoGc_loses_live :
    (runCalls threeBlocks .good setLong (lnKvInit threeBlocks .good (.on fun _ => 0xFF)).2).1 =
        [.code .none, .code .none, .code .none] ∧
      kvBlkIsDirty 0x1000 (afterCalls threeBlocks (fun _ => 0xFF) setLong).ctl = true ∧
      kvBlkIsFresh 0x3000 (afterCalls threeBlocks (fun _ => 0xFF) setLong).ctl = true ∧
      ¬ Collected threeBlocks (afterCalls threeBlocks (fun _ => 0xFF) setLong) 0x1000 0x3000
        (kvDoGc threeBlocks .good 0x1000 0x3000 false (afterCalls threeBlocks (fun _ => 0xFF) setLong)).2 := by
  refine ⟨by decide +kernel, by decide +kernel, by decide +kernel, fun h => ?_⟩
  have hlive : liveOf (afterCalls threeBlocks (fun _ => 0xFF) setLong) 0x1000 =
      [⟨⟨167, [1], [3], 0x1020⟩, false, true⟩] := by decide +kernel
  have hbyte : (kvDoGc threeBlocks .good 0x1000 0x3000 false (afterCalls threeBlocks (fun _ => 0xFF) setLong)).2.dev.flash
      0x3028 = 0 := by decide +kernel
  -- the first byte of the magic
  have hitems := h.items
  rw [hlive] at hitems
  have hmagic := getElem?_readBytes (kvDoGc threeBlocks .good 0x1000 0x3000 false
    (afterCalls threeBlocks (fun _ => 0xFF) setLong)).2.dev.flash (kvBlkFirstItem 0x3000)
    (slotsSize [⟨⟨167, [1], [3], 0x1020⟩, false, true⟩]) 8 (by decide)
  rw [hitems, show kvBlkFirstItem 0x3000 + 8 = 0x3028 from rfl, hbyte] at hmagic
  exact absurd hmagic (by decide)

end Ln882x.Kv
