import Ln882x.Kv.Find

/-! Garbage collection. `kv_do_gc` moves the live items of one block into an
empty one and formats the first. The proof follows its driver calls: `GcMid`
lists what the blocks can be between any two of them. -/

namespace Ln882x.Kv

open Nor

variable {G : Geo} {E : Env} {x : Bool} {L : ℕ → Blk} {b : ℕ} {s : St}

/-- Driver calls between which the flash always holds blocks with a property. -/
def LSteps (G : Geo) (P : (ℕ → Blk) → Prop) (d d' : Dev) : Prop :=
  Dev.Steps (fun f => ∃ L, Rep G f L ∧ P L) d d'

theorem LSteps.mono {P P' : (ℕ → Blk) → Prop} {d d' : Dev} (h : LSteps G P d d') (hP : ∀ L, P L → P' L) :
    LSteps G P' d d' := Dev.Steps.mono h fun _ ⟨L, hr, hp⟩ => ⟨L, hr, hP L hp⟩

theorem LSteps.trans {P : (ℕ → Blk) → Prop} {d d₁ d₂ : Dev} (h₁ : LSteps G P d d₁) (h₂ : LSteps G P d₁ d₂) :
    LSteps G P d d₂ := Dev.Steps.trans h₁ h₂

theorem LSteps.exec {P : (ℕ → Blk) → Prop} {d : Dev} {o : Op} {L L' : ℕ → Blk} (h : Rep G d.flash L) (hp : P L)
    (h' : Rep G (o.apply d.flash) L') (hp' : P L') : LSteps G P d (d.exec o) :=
  Dev.Steps.exec o ⟨L, h, hp⟩ ⟨L', h', hp'⟩

theorem LSteps.still {P : (ℕ → Blk) → Prop} {d d' : Dev} (h : Dev.Still d d') (hr : Rep G d.flash L) (hp : P L) :
    LSteps G P d d' := h.steps ⟨L, hr, hp⟩

/-! ### Writing an item -/

/-- The blocks with one more slot in one of them. -/
def addSlot (L : ℕ → Blk) (b : ℕ) (sl : Slot) : ℕ → Blk :=
  Function.update L b { L b with slots := (L b).slots ++ [sl] }

/-- The blocks between the driver calls that write an item. -/
inductive Writing (L : ℕ → Blk) (b : ℕ) (it : Item) : (ℕ → Blk) → Prop
  | start : Writing L b it L
  | tail : Writing L b it (addSlot L b ⟨it.torn, false, false⟩)
  | magic : Writing L b it (addSlot L b ⟨it.torn, false, true⟩)
  | body : Writing L b it (addSlot L b it.slot)

theorem addSlot_eq (L : ℕ → Blk) (b : ℕ) (sl sl' : Slot) : Function.update (addSlot L b sl) b
    { addSlot L b sl b with slots := (L b).slots ++ [sl'] } = addSlot L b sl' := by
  simp [addSlot]

theorem wp_kvItemWrite (hd : E.DrvOk) (hrep : Rep G s.dev.flash L) (hb : b ∈ G.blks) {it : Item} (hit : it.Ok)
    (hfit : (L b).used + it.size ≤ kvBlkSize) {hdr : ItemHdr} (htail : hdr.tail = it.tail)
    (hmagic : hdr.magic = kvItemHdrMagic) :
    wp (kvItemWrite E (slotAddr b (L b).slots) hdr it.body) (fun r t => r = .none ∧ t.ctl = s.ctl ∧
      Rep G t.dev.flash (addSlot L b it.slot) ∧ LSteps G (Writing L b it) s.dev t.dev) s := by
  have hslots : ∀ sl, (addSlot L b sl b).slots = (L b).slots ++ [sl] := fun sl => by simp [addSlot]
  have h₁ : Rep G ((Op.program (slotAddr b (L b).slots + 16) hdr.tail).apply s.dev.flash)
      (addSlot L b ⟨it.torn, false, false⟩) := by
    rw [htail, ← it.tail_torn]
    exact hrep.writeTail hb hit.torn (by rwa [Item.size_torn]) rfl
  have h₂ := h₁.writeMagic hb hit.torn (by rwa [Item.size_torn]) (hslots _)
  rw [← hmagic, addSlot_eq, Item.torn_torn] at h₂
  have h₃ := h₂.writeBody hb hit hfit (hslots _)
  rw [addSlot_eq] at h₃
  unfold kvItemWrite kvItemHdrWrite kvFlashWunitModify
  refine wp.bind (P := fun r t => r = .none ∧ t.ctl = s.ctl ∧ t.dev = (s.dev.exec
      (.program (slotAddr b (L b).slots + 16) hdr.tail)).exec
      (.program (slotAddr b (L b).slots + 8) (leBytes 8 hdr.magic))) ?_ fun r t ⟨hr, hctl, hdev⟩ => ?_
  · refine (wp_kvFlashWrite hd _ _).bind fun r t ⟨hr, hdev, hctl⟩ => ?_
    subst hr
    refine (wp_kvFlashWrite hd _ _).mono fun r u ⟨hr, hdev', hctl'⟩ => ⟨hr, hctl'.trans hctl, ?_⟩
    rw [hdev', hdev]
  · subst hr
    refine (wp_kvFlashWrite hd _ _).mono fun r u ⟨hr, hdev', hctl'⟩ => ⟨hr, hctl'.trans hctl, ?_, ?_⟩
    · rw [hdev', hdev]
      exact h₃
    · rw [hdev', hdev]
      exact ((LSteps.exec hrep .start h₁ .tail).trans (LSteps.exec h₁ .tail h₂ .magic)).trans
        (LSteps.exec h₂ .magic h₃ .body)

/-! ### The states of a collection -/

/-- The destination marked, with some slots. -/
def toDst (L : ℕ → Blk) (dst : ℕ) (slots : List Slot) : ℕ → Blk :=
  Function.update L dst { L dst with dst := true, slots := slots }

/-- The result of collecting `src` into `dst`. -/
def collect (L : ℕ → Blk) (src dst : ℕ) : ℕ → Blk :=
  Function.update (Function.update L dst { L dst with dst := true, done := true, slots := (L src).liveSlots })
    src .formatted

/-- The slots of the destination while `full` is copied to it. -/
inductive Copying (full : List Slot) : List Slot → Prop
  | whole (pre post : List Slot) : full = pre ++ post → Copying full pre
  | tail {pre post : List Slot} {sl : Slot} : full = pre ++ sl :: post → Copying full (pre ++ [⟨sl.it.torn, false, false⟩])
  | magic {pre post : List Slot} {sl : Slot} : full = pre ++ sl :: post → Copying full (pre ++ [⟨sl.it.torn, false, true⟩])

/-- The blocks between the driver calls of a collection whose source is marked. -/
inductive GcMid (L : ℕ → Blk) (src dst : ℕ) : (ℕ → Blk) → Prop
  | start : GcMid L src dst L
  | copying {slots : List Slot} : Copying (L src).liveSlots slots → GcMid L src dst (toDst L dst slots)
  | erased : GcMid L src dst (Function.update (toDst L dst (L src).liveSlots) src .erased)
  | formatted : GcMid L src dst (Function.update (toDst L dst (L src).liveSlots) src .formatted)
  | done : GcMid L src dst (collect L src dst)

theorem addSlot_toDst (L : ℕ → Blk) (dst : ℕ) (slots : List Slot) (sl : Slot) :
    addSlot (toDst L dst slots) dst sl = toDst L dst (slots ++ [sl]) := by
  simp [addSlot, toDst]

theorem toDst_of_ne {dst y : ℕ} (slots : List Slot) (h : y ≠ dst) : toDst L dst slots y = L y :=
  Function.update_of_ne h _ _

theorem toDst_slots {dst : ℕ} (slots : List Slot) : (toDst L dst slots dst).slots = slots := by simp [toDst]

theorem slotsSize_filter_le (p : Slot → Bool) (l : List Slot) : slotsSize (l.filter p) ≤ slotsSize l := by
  induction l with
  | nil => simp
  | cons sl l ih =>
    rw [List.filter_cons]
    split_ifs
    · simp only [slotsSize_cons]
      omega
    · simp only [slotsSize_cons]
      omega

/-! ### Copying -/

/-- The index while items are copied: the free size of the destination shrinks, and the source
may become dirty. -/
structure CopyCtl (c₀ : Ctl) (src dst n : ℕ) (c : Ctl) : Prop where
  numFresh : c.numFresh = c₀.numFresh
  numInuse : c.numInuse = c₀.numInuse
  numHanging : c.numHanging = c₀.numHanging
  workspace : c.workspace = c₀.workspace
  other : ∀ y, y ≠ src → y ≠ dst → c.blkDetail y = c₀.blkDetail y
  dstEntry : c.blkDetail dst = ⟨(c₀.blkDetail dst).flags, n⟩
  srcFresh : (c.blkDetail src).flags.fresh = (c₀.blkDetail src).flags.fresh
  srcInuse : (c.blkDetail src).flags.inuse = (c₀.blkDetail src).flags.inuse

theorem CopyCtl.setDirty {c₀ c : Ctl} {src dst n : ℕ} (h : CopyCtl c₀ src dst n c) (hne : src ≠ dst) :
    CopyCtl c₀ src dst n (kvBlkSetDirty src c) := by
  refine ⟨h.numFresh, h.numInuse, h.numHanging, h.workspace, fun y h1 h2 => ?_, ?_, ?_, ?_⟩
  · rw [detail_kvBlkSetDirty, Function.update_of_ne h1]
    exact h.other y h1 h2
  · rw [detail_kvBlkSetDirty, Function.update_of_ne hne.symm]
    exact h.dstEntry
  · rw [detail_kvBlkSetDirty, Function.update_self]
    exact h.srcFresh
  · rw [detail_kvBlkSetDirty, Function.update_self]
    exact h.srcInuse

theorem CopyCtl.reduce {c₀ c : Ctl} {src dst n m : ℕ} (h : CopyCtl c₀ src dst n c) (hne : src ≠ dst) (hm : m ≤ n)
    (hn : n < 2 ^ 32) : CopyCtl c₀ src dst (n - m) (kvBlkFreeszReduce dst c m) := by
  have hget : kvBlkFreeszGet dst c = n := by rw [kvBlkFreeszGet, h.dstEntry]
  have hsub : (n + 2 ^ 32 - m) % 2 ^ 32 = n - m := by omega
  rw [kvBlkFreeszReduce, hget, hsub]
  refine ⟨h.numFresh, h.numInuse, h.numHanging, h.workspace, fun y h1 h2 => ?_, ?_, ?_, ?_⟩
  · rw [detail_kvBlkFreeszSet, Function.update_of_ne h2]
    exact h.other y h1 h2
  · rw [detail_kvBlkFreeszSet, Function.update_self, h.dstEntry]
  · rw [detail_kvBlkFreeszSet, Function.update_of_ne hne]
    exact h.srcFresh
  · rw [detail_kvBlkFreeszSet, Function.update_of_ne hne]
    exact h.srcInuse

/-- The write position of a block whose entry has the right free size. -/
theorem kvBlkUsableAddr_eq {c : Ctl} (hb : b ∈ G.blks) {slots : List Slot}
    (hf : kvBlkFreeszGet b c = kvBlkFreshSize - slotsSize slots) (hle : slotsSize slots ≤ kvBlkFreshSize) :
    kvBlkUsableAddr b c = slotAddr b slots := by
  have hlt := Geo.blk_lt hb
  simp only [kvBlkUsableAddr, hf, kvBlkEnd, slotAddr, kvBlkFirstItem, kvBlkFreshSize, kvBlkSize, kvBlkHdrSize] at *
  omega

section Copy
variable {src dst : ℕ} (hd : E.DrvOk) (hm : E.MallocOk .gc) (hs : src ∈ G.blks) (ht : dst ∈ G.blks) (hne : src ≠ dst)
include hd hm hs ht hne

/-- One item is copied. -/
theorem wp_kvItemDoGc {c₀ : Ctl} {pre post : List Slot} {it : Item} {copied : List Slot}
    (hrep : Rep G s.dev.flash (toDst L dst copied)) (hsl : (L src).slots = pre ++ it.slot :: post)
    (hfit : slotsSize copied + it.size ≤ kvBlkFreshSize)
    (hc : CopyCtl c₀ src dst (kvBlkFreshSize - slotsSize copied) s.ctl) :
    wp (kvItemDoGc E dst ⟨it.slot.hdr, slotAddr src pre, []⟩) (fun r t => r.1 = .nextLoop ∧
      Rep G t.dev.flash (toDst L dst (copied ++ [it.slot])) ∧
      CopyCtl c₀ src dst (kvBlkFreshSize - slotsSize (copied ++ [it.slot])) t.ctl ∧
      LSteps G (Writing (toDst L dst copied) dst it) s.dev t.dev) s := by
  have hsl' : (toDst L dst copied src).slots = pre ++ it.slot :: post := by rwa [toDst_of_ne _ hne]
  have hit : it.Ok := ((hrep src hs).2.split hsl').1
  refine (wp_kvItemBodyRead_slot hd hrep hs hsl' _ rfl rfl).bind ?_
  rintro r t ⟨hst, rfl | ⟨-, hbad⟩⟩
  · refine wp_getCtl ?_
    have haddr : kvBlkUsableAddr dst t.ctl = slotAddr dst (toDst L dst copied dst).slots := by
      rw [toDst_slots]
      refine kvBlkUsableAddr_eq ht ?_ (by omega)
      rw [kvBlkFreeszGet, hst.ctl, hc.dstEntry]
    have hused : (toDst L dst copied dst).used + it.size ≤ kvBlkSize := by
      simp only [Blk.used, toDst_slots, kvBlkFreshSize, kvBlkSize, kvBlkHdrSize] at *
      omega
    rw [haddr]
    have hrep' : Rep G t.dev.flash (toDst L dst copied) := by rwa [hst.dev]
    refine (wp_kvItemWrite hd hrep' ht hit hused rfl rfl).bind ?_
    rintro r u ⟨rfl, hctl, hrep'', hsteps⟩
    refine (wp_idx _).bind ?_
    rintro _ v ⟨hdev, hctl'⟩
    refine wp.pure ⟨rfl, ?_, ?_, ?_⟩
    · rw [hdev, ← addSlot_toDst]
      exact hrep''
    · have hsz : kvItemSize it.slot.hdr.kLen it.slot.hdr.vLen = it.size := rfl
      have hred := hc.reduce hne (m := it.size) (by omega) (by simp only [kvBlkFreshSize, kvBlkSize]; omega)
      rw [hctl', hctl, hst.ctl, IdxCall.run, hsz]
      have hsum : kvBlkFreshSize - slotsSize (copied ++ [it.slot]) =
          kvBlkFreshSize - slotsSize copied - it.size := by
        simp only [slotsSize_append, slotsSize_cons, slotsSize_nil, Item.slot, Slot.size, if_true]
        omega
      rw [hsum]
      exact hred
    · rw [hdev, ← hst.dev]
      exact hsteps
  · exact absurd hm hbad

/-- The walk of step 3 copies all live items. -/
theorem wp_copyWalk (hrep : Rep G s.dev.flash (toDst L dst [])) (htidy : (L src).Tidy)
    (hfree : (s.ctl.blkDetail dst).freeSize = kvBlkFreshSize) :
    wp (kvItemWalkthru G E .gc src (kvItemDoGc E dst)) (fun r t => r = (.none, none) ∧
      Rep G t.dev.flash (toDst L dst (L src).liveSlots) ∧
      (∃ c, CopyCtl s.ctl src dst (kvBlkFreshSize - slotsSize (L src).liveSlots) c ∧
        t.ctl = settle (L src) src c) ∧
      LSteps G (GcMid L src dst) s.dev t.dev) s := by
  have hsrc : ∀ slots, toDst L dst slots src = L src := fun slots => toDst_of_ne slots hne
  have hok : (L src).Ok := by
    rw [← hsrc []]
    exact (hrep src hs).2
  have husedle : slotsSize (L src).slots ≤ kvBlkFreshSize := by
    have := hok.used_le
    simp only [Blk.used, kvBlkFreshSize, kvBlkSize, kvBlkHdrSize] at *
    omega
  let I : List Slot → List Slot → St → Prop := fun pre post u =>
    (L src).slots = pre ++ post ∧ Rep G u.dev.flash (toDst L dst (pre.filter Slot.live)) ∧
      CopyCtl s.ctl src dst (kvBlkFreshSize - slotsSize (pre.filter Slot.live)) u.ctl ∧
      LSteps G (GcMid L src dst) s.dev u.dev
  let Q : (KvErr × Option KvItem) ⊕ ℕ → St → Prop := fun r u =>
    r = .inr (slotAddr src (L src).slots) ∧ Rep G u.dev.flash (toDst L dst (L src).liveSlots) ∧
      CopyCtl s.ctl src dst (kvBlkFreshSize - slotsSize (L src).liveSlots) u.ctl ∧
      LSteps G (GcMid L src dst) s.dev u.dev
  have hround : ∀ pre sl post u, I pre (sl :: post) u →
      wp (kvItemWalkRound G E .gc src (kvItemDoGc E dst) (slotAddr src pre)) (passes src I Q post) u := by
    rintro pre sl post u ⟨hsl, hrepu, hcu, hsteps⟩
    have hsl' : (toDst L dst (pre.filter Slot.live) src).slots = pre ++ sl :: post := by rwa [hsrc]
    have hmid : GcMid L src dst (toDst L dst (pre.filter Slot.live)) := by
      refine .copying (.whole _ ((sl :: post).filter Slot.live) ?_)
      rw [Blk.liveSlots, hsl, List.filter_append]
    have hskip : sl.live = false → ∀ t : St, Dev.Still u.dev t.dev → t.ctl = kvBlkSetDirty src u.ctl →
        passes src I Q post (.next (slotAddr src pre + sl.size)) t := by
      intro hl t hdev hctl
      have hfil : (pre ++ [sl]).filter Slot.live = pre.filter Slot.live := by simp [List.filter_append, hl]
      refine ⟨pre ++ [sl], post, slotAddr_snoc _ _ _, rfl, by simpa using hsl, ?_, ?_, ?_⟩
      · rw [hfil, hdev.flash]
        exact hrepu
      · rw [hfil, hctl]
        exact hcu.setDirty hne
      · exact hsteps.trans (.still hdev hrepu hmid)
    refine wp_kvItemWalkRound hd hrepu hs hsl' (fun t _ hbad => absurd hm hbad) (fun hl t hdev hctl => ?_)
      (fun _ hdsc t hdev hctl => ?_) fun hl t hst => ?_
    · refine hskip (by simp [Slot.live, hl]) t ?_ hctl
      rw [hdev]
      exact .exec (discard_still hrepu hs hsl' (htidy.broken sl (by simp [hsl]) hl))
    · refine hskip (by simp [Slot.live, hdsc]) t ?_ hctl
      rw [hdev]
      exact .refl _
    · have hfil : (pre ++ [sl]).filter Slot.live = pre.filter Slot.live ++ [sl] := by simp [List.filter_append, hl]
      have hslot := Slot.eq_slot hl
      have hslit : (L src).slots = pre ++ sl.it.slot :: post := by rwa [← hslot]
      have hrept : Rep G t.dev.flash (toDst L dst (pre.filter Slot.live)) := by rwa [hst.dev]
      have hfit : slotsSize (pre.filter Slot.live) + sl.it.size ≤ kvBlkFreshSize := by
        have h1 := slotsSize_filter_le Slot.live pre
        have h2 : sl.it.size = sl.size := by rw [hslot]; rfl
        rw [hsl] at husedle
        simp only [slotsSize_append, slotsSize_cons] at husedle
        omega
      have hct : CopyCtl s.ctl src dst (kvBlkFreshSize - slotsSize (pre.filter Slot.live)) t.ctl := by rwa [hst.ctl]
      rw [hslot]
      apply (wp_kvItemDoGc hd hm hs ht hne hrept hslit hfit hct).mono
      rintro r v ⟨hr, hrepv, hcv, hstepsv⟩
      unfold afterWalker
      rw [hr, if_neg (by decide), if_pos rfl, ← hslot]
      rw [← hslot] at hrepv hcv
      refine ⟨pre ++ [sl], post, slotAddr_snoc _ _ _, rfl, by simpa using hsl, ?_, ?_, hsteps.trans ?_⟩
      · rwa [hfil]
      · rwa [hfil]
      · rw [← hst.dev]
        refine hstepsv.mono fun L' hL' => ?_
        have hfull : (L src).liveSlots = pre.filter Slot.live ++ sl :: post.filter Slot.live := by
          rw [Blk.liveSlots, hsl, List.filter_append, List.filter_cons, if_pos hl]
        cases hL' with
        | start => exact hmid
        | tail =>
          rw [addSlot_toDst]
          exact .copying (.tail hfull)
        | magic =>
          rw [addSlot_toDst]
          exact .copying (.magic hfull)
        | body =>
          rw [addSlot_toDst, ← hslot]
          exact .copying (.whole _ (post.filter Slot.live) (by simpa using hfull))
  have hstart : I [] (L src).slots s := by
    refine ⟨rfl, hrep, ⟨rfl, rfl, rfl, rfl, fun _ _ _ => rfl, ?_, rfl, rfl⟩, ?_⟩
    · rw [List.filter_nil, slotsSize_nil, Nat.sub_zero, ← hfree]
    · exact LSteps.still (.refl _) hrep (.copying (.whole _ (L src).liveSlots rfl))
  have hblks : ∀ pre post u, I pre post u → ∃ L', Rep G u.dev.flash L' ∧ (L' src).slots = pre ++ post := by
    rintro pre post u ⟨hsl, hrepu, -⟩
    exact ⟨_, hrepu, by rwa [hsrc]⟩
  have hlast : ∀ pre u t, I pre [] u → Same u t → Q (.inr (slotAddr src pre)) t := by
    rintro pre u t ⟨hsl, hrepu, hcu, hsteps⟩ hst
    rw [List.append_nil] at hsl
    refine ⟨by rw [hsl], ?_, ?_, ?_⟩
    · rwa [hst.dev, Blk.liveSlots, hsl]
    · rwa [hst.ctl, Blk.liveSlots, hsl]
    · rwa [hst.dev]
  have hloop := wp_kvItemWalkLoop hd hs (Q := Q) hblks hround hlast (fun _ _ _ _ _ hbad => absurd hm hbad)
    171 [] (L src).slots s hstart (by have := hok.length_slots; omega)
    (by simp [slotAddr, kvBlkFirstItem, kvBlkEnd, kvBlkHdrSize, kvItemHdrSize, kvBlkSize])
  apply wp_kvItemWalkthru hloop
  · rintro r t ⟨hr, -⟩
    cases hr
  · rintro cur t ⟨hr, hrept, hct, hsteps⟩
    refine ⟨L src, hok, Sum.inr.inj hr, fun u hdev hctl => ⟨rfl, ?_, ⟨t.ctl, hct, hctl⟩, ?_⟩⟩
    · rwa [hdev]
    · rwa [hdev]

end Copy

/-! ### The index after a collection -/

/-- The index is right for all blocks but one, which is not fresh. -/
structure IdxExcept (G : Geo) (tight : Bool) (L : ℕ → Blk) (c : Ctl) (src : ℕ) : Prop where
  blk : ∀ b ∈ G.blks, b ≠ src → Indexed (L b) (c.blkDetail b)
  counts : CountsOk G tight c
  empty : tight = true → ∀ b ∈ G.blks, b ≠ src → (L b).slots = [] → kvBlkIsFresh b c = true
  srcFresh : kvBlkIsFresh src c = false

theorem IdxInv.except {c : Ctl} (h : IdxInv G x L c) {src : ℕ} (hf : kvBlkIsFresh src c = false) :
    IdxExcept G x L c src := ⟨fun b hb _ => h.blk b hb, h.counts, fun hx b hb _ => h.empty hx b hb, hf⟩

/-- What `kv_do_gc` makes of the index. -/
structure GcCtl (c₀ : Ctl) (src dst : ℕ) (c : Ctl) : Prop where
  workspace : c.workspace = c₀.workspace
  other : ∀ y, y ≠ src → y ≠ dst → c.blkDetail y = c₀.blkDetail y
  srcFresh : kvBlkIsFresh src c = true
  dstFresh : kvBlkIsFresh dst c = false
  counts : ∀ G : Geo, src ∈ G.blks → dst ∈ G.blks → CountsOk G true c₀ → CountsOk G true c

theorem detail_settle_of_ne {k : Blk} {c : Ctl} {y : ℕ} (hy : y ≠ b) :
    (settle k b c).blkDetail y = c.blkDetail y := by
  unfold settle
  split_ifs
  · rw [detail_kvBlkSetFresh, Function.update_of_ne hy]
  · rw [detail_kvBlkSetInuse, detail_kvBlkFreeszSet, Function.update_of_ne hy, Function.update_of_ne hy]
  · rw [detail_kvBlkResetInuse, detail_kvBlkFreeszSet, Function.update_of_ne hy, Function.update_of_ne hy]

/-- The index helpers that `kv_do_gc` calls after the walk. -/
def finishCtl (src dst : ℕ) (c : Ctl) : Ctl :=
  let c := kvBlkResetFresh dst (kvBlkSetFresh src (kvBlkResetInuse src c))
  if kvBlkIsFull dst c then c else kvBlkSetInuse dst c

theorem CountsOk.copyCtl {c₀ c : Ctl} {src dst n : ℕ} (h : CountsOk G x c₀) (hc : CopyCtl c₀ src dst n c) :
    CountsOk G x c := by
  refine h.same (fun y => ?_) (fun y => ?_) hc.numFresh hc.numInuse hc.numHanging
  · by_cases h1 : y = src
    · rw [h1]
      exact hc.srcFresh
    · by_cases h2 : y = dst
      · rw [h2, kvBlkIsFresh, kvBlkFlagsGet, hc.dstEntry]
        rfl
      · rw [kvBlkIsFresh, kvBlkFlagsGet, hc.other y h1 h2]
        rfl
  · by_cases h1 : y = src
    · rw [h1]
      exact hc.srcInuse
    · by_cases h2 : y = dst
      · rw [h2, kvBlkIsInuse, kvBlkFlagsGet, hc.dstEntry]
        rfl
      · rw [kvBlkIsInuse, kvBlkFlagsGet, hc.other y h1 h2]
        rfl

theorem CountsOk.finishCtl {c : Ctl} {src dst : ℕ} {k : Blk} (h : CountsOk G x c) (hs : src ∈ G.blks)
    (ht : dst ∈ G.blks) (hk : k.slots ≠ []) : CountsOk G x (Kv.finishCtl src dst (Kv.settle k src c)) := by
  have hstep : CountsOk G x (kvBlkResetFresh dst (kvBlkSetFresh src (kvBlkResetInuse src (Kv.settle k src c)))) := by
    refine (((h.settle hs fun _ h0 => absurd h0 hk).resetInuse hs).setFresh hs fun _ => ?_).resetFresh ht
    rw [kvBlkIsInuse, kvBlkFlagsGet, detail_kvBlkResetInuse, Function.update_self]
  unfold Kv.finishCtl
  dsimp only
  split_ifs
  · exact hstep
  · exact hstep.setInuse ht

theorem finishCtl_spec {c₀ c : Ctl} {src dst n : ℕ} (hne : src ≠ dst) (hc : CopyCtl c₀ src dst n c) {k : Blk}
    (hk : k.slots ≠ []) :
    GcCtl c₀ src dst (finishCtl src dst (settle k src c)) ∧
      (finishCtl src dst (settle k src c)).blkDetail src = ⟨{ Flags.zero with fresh := true }, kvBlkFreshSize⟩ ∧
      (finishCtl src dst (settle k src c)).blkDetail dst = ⟨{ (c₀.blkDetail dst).flags with
        fresh := false, inuse := (c₀.blkDetail dst).flags.inuse || decide (kvItemHdrSize < n) }, n⟩ := by
  have hdet : (kvBlkResetFresh dst (kvBlkSetFresh src (kvBlkResetInuse src (settle k src c)))).blkDetail =
      Function.update (Function.update (Function.update (settle k src c).blkDetail src
        ⟨{ ((settle k src c).blkDetail src).flags with inuse := false }, ((settle k src c).blkDetail src).freeSize⟩) src
        ⟨{ Flags.zero with fresh := true }, kvBlkFreshSize⟩) dst
        ⟨{ (c₀.blkDetail dst).flags with fresh := false }, n⟩ := by
    rw [detail_kvBlkResetFresh, detail_kvBlkSetFresh, detail_kvBlkResetInuse, Function.update_of_ne hne.symm,
      Function.update_of_ne hne.symm, detail_settle_of_ne hne.symm, hc.dstEntry]
  have hws : (kvBlkResetFresh dst (kvBlkSetFresh src (kvBlkResetInuse src (settle k src c)))).workspace =
      c₀.workspace := by simp [hc.workspace]
  have hfull : kvBlkIsFull dst (kvBlkResetFresh dst (kvBlkSetFresh src (kvBlkResetInuse src (settle k src c)))) =
      decide (n ≤ kvItemHdrSize) := by
    rw [kvBlkIsFull, kvBlkFreeszGet, hdet, Function.update_self]
  have hfinal : (finishCtl src dst (settle k src c)).blkDetail =
      Function.update (Function.update (settle k src c).blkDetail src
        ⟨{ Flags.zero with fresh := true }, kvBlkFreshSize⟩) dst
        ⟨{ (c₀.blkDetail dst).flags with
          fresh := false, inuse := (c₀.blkDetail dst).flags.inuse || decide (kvItemHdrSize < n) }, n⟩ := by
    unfold finishCtl
    simp only [hfull, decide_eq_true_eq]
    split_ifs with hn
    · rw [hdet, Function.update_idem]
      simp [Nat.not_lt.mpr hn]
    · rw [detail_kvBlkSetInuse, hdet, Function.update_idem, Function.update_self, Function.update_idem]
      simp [Nat.not_le.mp hn]
  have hws' : (finishCtl src dst (settle k src c)).workspace = c₀.workspace := by
    unfold finishCtl
    dsimp only
    split_ifs
    · exact hws
    · rw [workspace_kvBlkSetInuse, hws]
  have hsrc : (finishCtl src dst (settle k src c)).blkDetail src =
      ⟨{ Flags.zero with fresh := true }, kvBlkFreshSize⟩ := by
    rw [hfinal, Function.update_of_ne hne, Function.update_self]
  have hdst := congrFun hfinal dst
  rw [Function.update_self] at hdst
  refine ⟨⟨hws', fun y h1 h2 => ?_, ?_, ?_, ?_⟩, hsrc, hdst⟩
  · rw [hfinal, Function.update_of_ne h2, Function.update_of_ne h1, detail_settle_of_ne h1, hc.other y h1 h2]
  · rw [kvBlkIsFresh, kvBlkFlagsGet, hsrc]
  · rw [kvBlkIsFresh, kvBlkFlagsGet, hdst]
  · intro G hs ht hcounts
    exact (hcounts.copyCtl hc).finishCtl hs ht hk

theorem hasDisc_liveSlots {k k' : Blk} (h : k'.slots = k.liveSlots) : k'.hasDisc = false := by
  simp only [Blk.hasDisc, h, Blk.liveSlots, List.any_eq_false, List.mem_filter, and_imp]
  intro sl _ hl
  simp [hl]

/-- The index after a collection is right for the collected blocks. -/
theorem idxInv_collect {c₀ c : Ctl} {src dst : ℕ} (hs : src ∈ G.blks) (ht : dst ∈ G.blks) (hne : src ≠ dst)
    (hx : IdxExcept G x L c₀ src) (hfresh : kvBlkIsFresh dst c₀ = true) (hslots : (L src).slots ≠ [])
    (hlive : x = true → (L src).liveSlots ≠ []) (hc : CopyCtl c₀ src dst (kvBlkFreshSize - slotsSize (L src).liveSlots) c) :
    GcCtl c₀ src dst (finishCtl src dst (settle (L src) src c)) ∧
      kvBlkFreeszGet dst (finishCtl src dst (settle (L src) src c)) = kvBlkFreshSize - slotsSize (L src).liveSlots ∧
      IdxInv G x (collect L src dst) (finishCtl src dst (settle (L src) src c)) := by
  have hdst := hx.blk dst ht hne.symm
  have hfl : (c₀.blkDetail dst).flags.fresh = true := hfresh
  have hcounts' := (hx.counts.copyCtl hc).finishCtl hs ht hslots
  obtain ⟨hgc, hsrc', hdst'⟩ := finishCtl_spec hne hc hslots
  have hcs : collect L src dst src = .formatted := by simp [collect]
  have hcd : (collect L src dst dst).slots = (L src).liveSlots := by
    rw [collect, Function.update_of_ne hne.symm, Function.update_self]
  have hco : ∀ y, y ≠ src → y ≠ dst → collect L src dst y = L y := fun y h1 h2 => by
    rw [collect, Function.update_of_ne h1, Function.update_of_ne h2]
  have hfree : (collect L src dst dst).free = kvBlkFreshSize - slotsSize (L src).liveSlots := by
    simp only [Blk.free, Blk.used, hcd, kvBlkFreshSize]
    omega
  refine ⟨hgc, congrArg BlkDetail.freeSize hdst', fun y hy => ?_, hcounts', fun h y hy h0 => ?_⟩
  · by_cases h1 : y = src
    · rw [h1, hsrc', hcs]
      constructor <;> simp [Flags.zero, Blk.formatted, Blk.hasDisc, Blk.free, Blk.used, kvBlkFreshSize]
    · by_cases h2 : y = dst
      · rw [h2, hdst']
        refine ⟨hdst.bad, hdst.hanging, by simp, .inl hfree.symm, fun _ => ?_, ?_⟩
        · rw [hfree]
          simp [(hdst.fresh hfl).2]
        · rw [hasDisc_liveSlots hcd]
          exact hdst.dirty.trans (hasDisc_nil (hdst.fresh hfl).1)
      · rw [hgc.other y h1 h2, hco y h1 h2]
        exact hx.blk y hy h1
  · by_cases h1 : y = src
    · rw [h1]
      exact hgc.srcFresh
    · by_cases h2 : y = dst
      · rw [h2, hcd] at h0
        exact absurd h0 (hlive h)
      · rw [kvBlkIsFresh, kvBlkFlagsGet, hgc.other y h1 h2]
        rw [hco y h1 h2] at h0
        exact hx.empty h y hy h1 h0

/-! ### Collecting a block -/

theorem wp_kvBlkFormat (hd : E.DrvOk) (hrep : Rep G s.dev.flash L) (hb : b ∈ G.blks) {P : (ℕ → Blk) → Prop}
    (hp : P L) (hp₁ : P (Function.update L b .erased)) (hp₂ : P (Function.update L b .formatted)) :
    wp (kvBlkFormat E b) (fun r t => r = .none ∧ t.ctl = kvBlkSetFresh b s.ctl ∧
      Rep G t.dev.flash (Function.update L b .formatted) ∧ LSteps G P s.dev t.dev) s := by
  have h₁ := hrep.erase hb
  have h₂ := h₁.format hb (Function.update_self b _ L)
  rw [Function.update_idem] at h₂
  unfold kvBlkFormat kvFlashBlkErase kvFlashWunitModify
  refine (wp_kvFlashErase hd _ _).bind fun r t ⟨hr, hdev, hctl⟩ => ?_
  subst hr
  refine (wp_kvFlashWrite hd _ _).bind fun r u ⟨hr, hdev', hctl'⟩ => ?_
  subst hr
  refine (wp_idx _).bind fun _ v ⟨hdev'', hctl''⟩ => wp.pure ⟨rfl, ?_, ?_, ?_⟩
  · rw [hctl'', hctl', hctl]
    rfl
  · rw [hdev'', hdev', hdev]
    exact h₂
  · rw [hdev'', hdev', hdev]
    exact (LSteps.exec hrep hp h₁ hp₁).trans (.exec h₁ hp₁ h₂ hp₂)

section DoGc
variable {src dst : ℕ} (hd : E.DrvOk) (hs : src ∈ G.blks) (ht : dst ∈ G.blks) (hne : src ≠ dst)
include hd hs ht hne

/-- Steps 4 and 5. -/
theorem wp_kvDoGcFinish (hrep : Rep G s.dev.flash (toDst L dst (L src).liveSlots)) :
    wp (kvDoGcFinish E src dst) (fun r t => r = .none ∧ t.ctl = finishCtl src dst s.ctl ∧
      Rep G t.dev.flash (collect L src dst) ∧ LSteps G (GcMid L src dst) s.dev t.dev) s := by
  unfold kvDoGcFinish
  dsimp only
  refine (wp_idx _).bind fun _ t₁ ⟨hdev₁, hctl₁⟩ => ?_
  have hrep₁ : Rep G t₁.dev.flash (toDst L dst (L src).liveSlots) := by rwa [hdev₁]
  refine (wp_kvBlkFormat hd hrep₁ hs (P := GcMid L src dst) (.copying (.whole _ [] (by simp))) .erased .formatted).bind
    fun r t₂ ⟨hr, hctl₂, hrep₂, hsteps₂⟩ => ?_
  subst hr
  have hdone := hrep₂.markDone ht
  have hcol : Function.update (Function.update (toDst L dst (L src).liveSlots) src .formatted) dst
      { Function.update (toDst L dst (L src).liveSlots) src .formatted dst with done := true } =
        collect L src dst := by
    rw [Function.update_of_ne hne.symm, Function.update_comm hne]
    simp [toDst, collect]
  rw [hcol] at hdone
  refine wp.ite (fun h => absurd rfl h) fun _ => ?_
  refine (wp_kvFlashWrite hd _ _).bind fun r t₃ ⟨hr, hdev₃, hctl₃⟩ => ?_
  subst hr
  refine wp.ite (fun h => absurd rfl h) fun _ => ?_
  refine (wp_idx _).bind fun _ t₄ ⟨hdev₄, hctl₄⟩ => wp_getCtl ?_
  have hc : t₄.ctl = kvBlkResetFresh dst (kvBlkSetFresh src (kvBlkResetInuse src s.ctl)) := by
    rw [hctl₄, hctl₃, hctl₂, hctl₁]
    rfl
  have hrep₄ : Rep G t₄.dev.flash (collect L src dst) := by
    rw [hdev₄, hdev₃]
    exact hdone
  have hsteps₄ : LSteps G (GcMid L src dst) s.dev t₄.dev := by
    rw [hdev₄, hdev₃, ← hdev₁]
    exact hsteps₂.trans (.exec hrep₂ .formatted hdone .done)
  refine wp.ite (fun hfull => ?_) fun hfull => ?_
  · refine (wp_idx _).bind fun _ t₅ ⟨hdev₅, hctl₅⟩ => wp.pure ⟨rfl, ?_, by rwa [hdev₅], by rwa [hdev₅]⟩
    rw [hctl₅, finishCtl]
    rw [hc] at hfull ⊢
    simp only [Bool.not_eq_true'] at hfull
    simp only [hfull, Bool.false_eq_true, if_false]
    rfl
  · refine wp.pure ⟨rfl, ?_, hrep₄, hsteps₄⟩
    rw [finishCtl]
    rw [hc] at hfull ⊢
    simp only [Bool.not_eq_true', Bool.not_eq_false] at hfull
    simp only [hfull, if_true]

/-- Steps 2 to 5: the live items of `src` end up in `dst`, and the index follows. -/
theorem wp_kvDoGcCopy (hm : E.MallocOk .gc) (hrep : Rep G s.dev.flash L) (htidy : (L src).Tidy)
    (hx : IdxExcept G x L s.ctl src) (hfresh : kvBlkIsFresh dst s.ctl = true) (hslots : (L src).slots ≠ [])
    (hlive : x = true → (L src).liveSlots ≠ []) :
    wp (kvDoGcCopy G E src dst) (fun r t => r = .none ∧ GcCtl s.ctl src dst t.ctl ∧
      kvBlkFreeszGet dst t.ctl = kvBlkFreshSize - slotsSize (L src).liveSlots ∧ IdxInv G x (collect L src dst) t.ctl ∧ Rep G t.dev.flash (collect L src dst) ∧
      LSteps G (GcMid L src dst) s.dev t.dev) s := by
  have hdst := hx.blk dst ht hne.symm
  obtain ⟨hempty, -⟩ := hdst.fresh hfresh
  have hfree : (s.ctl.blkDetail dst).freeSize = kvBlkFreshSize := by
    have := free_nil hempty
    rcases hdst.free with h | ⟨h, -⟩
    · rw [h, this]
    · rw [this] at h
      simp [kvBlkFreshSize, kvBlkSize, kvBlkHdrSize, kvItemHdrSize] at h
  have hmark : Rep G ((Op.program (dst + 16) (leBytes 8 kvBlkHdrGcDst)).apply s.dev.flash) (toDst L dst []) := by
    have h := hrep.markDst ht
    have heq : ({ L dst with dst := true } : Blk) = { L dst with dst := true, slots := [] } := by
      rw [← hempty]
    rw [heq] at h
    exact h
  unfold kvDoGcCopy kvBlkMarkGcDst kvFlashWunitModify
  refine (wp_kvFlashWrite hd _ _).bind ?_
  rintro r t ⟨rfl, hdev, hctl⟩
  refine wp.ite (fun h => absurd rfl h) fun _ => ?_
  have hrep₁ : Rep G t.dev.flash (toDst L dst []) := by rwa [hdev]
  refine (wp_copyWalk hd hm hs ht hne hrep₁ htidy (by rwa [hctl])).bind ?_
  rintro r u ⟨rfl, hrep₂, ⟨c, hc, hcu⟩, hsteps₂⟩
  refine wp.ite (fun h => absurd rfl h) fun _ => ?_
  apply (wp_kvDoGcFinish hd hs ht hne hrep₂).mono
  rintro r v ⟨hr, hctl', hrep₃, hsteps₃⟩
  rw [hctl] at hc
  obtain ⟨hgc, hfreesz, hidx⟩ := idxInv_collect hs ht hne hx hfresh hslots hlive hc
  rw [← hcu, ← hctl'] at hgc hfreesz hidx
  refine ⟨hr, hgc, hfreesz, hidx, hrep₃, ?_⟩
  rw [hdev] at hsteps₂
  exact ((LSteps.exec hrep .start hmark (.copying (.whole [] _ rfl))).trans hsteps₂).trans hsteps₃

end DoGc

end Ln882x.Kv
