import Ln882x.Kv.Counters
import Ln882x.Kv.Walk

/-! What holds of a running store between two calls: the flash holds blocks of
well-formed items, the index in RAM agrees with them, and no key is stored
twice.

The index agrees loosely or tightly. Collecting a block without live items
leaves its empty destination in use; the next walk makes it fresh without
counting it down. A tight index rules such blocks out, and its counter of blocks
in use is exact. -/

namespace Ln882x.Kv

open Nor

/-! ### Blocks -/

namespace Blk
variable (k : Blk)

/-- The block has a slot without a live item. -/
def hasDisc : Bool := k.slots.any fun sl => !sl.live

def liveSlots : List Slot := k.slots.filter Slot.live

def liveItems : List Item := k.liveSlots.map Slot.it

/-- Every live item is complete and every slot without magic is discarded. -/
structure Tidy : Prop where
  sum : ∀ it ∈ k.liveItems, it.checksum = kvChecksumCrc8 it.body
  broken : ∀ sl ∈ k.slots, sl.legal = false → sl.disc = true

/-- The block of a running store: formatted and not part of an unfinished collection. -/
structure Sane : Prop extends k.Tidy where
  fmt : k.fmt = true
  src : k.src = false
  done : k.dst = true → k.done = true

end Blk

theorem slotsSize_eq_zero {l : List Slot} : slotsSize l = 0 ↔ l = [] := by
  cases l with
  | nil => simp
  | cons sl l =>
    have := sl.size_ge
    simp only [slotsSize_cons, reduceCtorEq, iff_false]
    omega

theorem Slot.eq_slot {sl : Slot} (h : sl.live = true) : sl = sl.it.slot := by
  obtain ⟨it, disc, legal⟩ := sl
  simp only [Slot.live, Bool.and_eq_true, Bool.not_eq_true'] at h
  simp [Item.slot, h]

@[simp] theorem Item.live_slot (it : Item) : it.slot.live = true := rfl

theorem Blk.mem_liveItems {k : Blk} {it : Item} : it ∈ k.liveItems ↔ it.slot ∈ k.slots := by
  simp only [Blk.liveItems, Blk.liveSlots, List.mem_map, List.mem_filter]
  constructor
  · rintro ⟨sl, ⟨hm, hl⟩, rfl⟩
    rwa [← Slot.eq_slot hl]
  · exact fun h => ⟨it.slot, ⟨h, rfl⟩, rfl⟩

/-! ### What the helpers change -/

section Detail
variable (b : ℕ) (c : Ctl)

theorem detail_kvBlkFreeszSet (n : ℕ) :
    (kvBlkFreeszSet b c n).blkDetail = Function.update c.blkDetail b ⟨(c.blkDetail b).flags, n⟩ := rfl

theorem detail_kvBlkSetFresh : (kvBlkSetFresh b c).blkDetail =
    Function.update c.blkDetail b ⟨{ Flags.zero with fresh := true }, kvBlkFreshSize⟩ := by
  rw [kvBlkSetFresh_eq]
  simp [kvBlkFlagsSet, kvBlkFreeszSet]

theorem detail_kvBlkSetInuse : (kvBlkSetInuse b c).blkDetail =
    Function.update c.blkDetail b ⟨{ (c.blkDetail b).flags with inuse := true }, (c.blkDetail b).freeSize⟩ := by
  rw [kvBlkSetInuse_eq]
  rfl

theorem detail_kvBlkSetDirty : (kvBlkSetDirty b c).blkDetail =
    Function.update c.blkDetail b ⟨{ (c.blkDetail b).flags with dirty := true }, (c.blkDetail b).freeSize⟩ := rfl

theorem detail_kvBlkResetFresh : (kvBlkResetFresh b c).blkDetail =
    Function.update c.blkDetail b ⟨{ (c.blkDetail b).flags with fresh := false }, (c.blkDetail b).freeSize⟩ := by
  rw [kvBlkResetFresh_eq]
  rfl

theorem detail_kvBlkResetInuse : (kvBlkResetInuse b c).blkDetail =
    Function.update c.blkDetail b ⟨{ (c.blkDetail b).flags with inuse := false }, (c.blkDetail b).freeSize⟩ := by
  rw [kvBlkResetInuse_eq]
  rfl

@[simp] theorem workspace_kvBlkSetFresh : (kvBlkSetFresh b c).workspace = c.workspace := by
  rw [kvBlkSetFresh_eq]
  rfl

@[simp] theorem workspace_kvBlkSetInuse : (kvBlkSetInuse b c).workspace = c.workspace := by
  rw [kvBlkSetInuse_eq]
  rfl

@[simp] theorem workspace_kvBlkResetFresh : (kvBlkResetFresh b c).workspace = c.workspace := by
  rw [kvBlkResetFresh_eq]
  rfl

@[simp] theorem workspace_kvBlkResetInuse : (kvBlkResetInuse b c).workspace = c.workspace := by
  rw [kvBlkResetInuse_eq]
  rfl

@[simp] theorem workspace_kvBlkSetDirty : (kvBlkSetDirty b c).workspace = c.workspace := rfl

@[simp] theorem workspace_kvBlkFreeszSet (n : ℕ) : (kvBlkFreeszSet b c n).workspace = c.workspace := rfl

end Detail

/-- The counters of fresh blocks, and of blocks in use if it is kept exactly. -/
structure CountsOk (G : Geo) (tight : Bool) (c : Ctl) : Prop where
  fresh : c.numFresh = numFlagged G Flags.fresh c
  inuse : tight = true → c.numInuse = numFlagged G Flags.inuse c
  hanging : c.numHanging = 0

namespace CountsOk
variable {G : Geo} {x : Bool} {c : Ctl} {b : ℕ}

/-- New flags for one block, with counters that follow them. -/
theorem flagsSet (h : CountsOk G x c) (hb : b ∈ G.blks) {d : Ctl} {fl : Flags}
    (hx : ∀ y, kvBlkFlagsGet y d = kvBlkFlagsGet y c)
    (hf : d.numFresh + (kvBlkFlagsGet b c).fresh.toNat = c.numFresh + fl.fresh.toNat)
    (hi : x = true → d.numInuse + (kvBlkFlagsGet b c).inuse.toNat = c.numInuse + fl.inuse.toNat)
    (hh : d.numHanging = c.numHanging) : CountsOk G x (kvBlkFlagsSet b d fl) := by
  have hfl : ∀ y, kvBlkFlagsGet y (kvBlkFlagsSet b d fl) =
      Function.update (fun y => kvBlkFlagsGet y c) b fl y := by
    intro y
    rw [← funext hx]
    exact congrFun (flags_kvBlkFlagsSet b fl) y
  have hcount : ∀ p : Flags → Bool, numFlagged G p (kvBlkFlagsSet b d fl) + (p (kvBlkFlagsGet b c)).toNat =
      numFlagged G p c + (p fl).toNat := by
    intro p
    simp only [numFlagged, hfl]
    exact countP_update G.nodup_blks hb (fun y => kvBlkFlagsGet y c) p fl
  refine ⟨?_, fun hx => ?_, hh.trans h.hanging⟩
  · have h1 := hcount Flags.fresh
    have h2 := h.fresh
    show d.numFresh = _
    omega
  · have h1 := hcount Flags.inuse
    have h2 := h.inuse hx
    have h3 := hi hx
    show d.numInuse = _
    omega

/-- Other changes to the index. -/
theorem same (h : CountsOk G x c) {d : Ctl} (hxf : ∀ y, kvBlkIsFresh y d = kvBlkIsFresh y c)
    (hxi : ∀ y, kvBlkIsInuse y d = kvBlkIsInuse y c)
    (hf : d.numFresh = c.numFresh) (hi : d.numInuse = c.numInuse) (hh : d.numHanging = c.numHanging) :
    CountsOk G x d := by
  simp only [kvBlkIsFresh, kvBlkIsInuse] at hxf hxi
  refine ⟨?_, fun ht => ?_, hh.trans h.hanging⟩
  · rw [hf, h.fresh]
    simp only [numFlagged, hxf]
  · rw [hi, h.inuse ht]
    simp only [numFlagged, hxi]

theorem freeszSet (h : CountsOk G x c) (n : ℕ) : CountsOk G x (kvBlkFreeszSet b c n) := by
  have hfl : ∀ y, kvBlkFlagsGet y (kvBlkFreeszSet b c n) = kvBlkFlagsGet y c :=
    congrFun (flags_kvBlkFreeszSet b n)
  exact h.same (fun y => by rw [kvBlkIsFresh, hfl]; rfl) (fun y => by rw [kvBlkIsInuse, hfl]; rfl) rfl rfl rfl

theorem setDirty (h : CountsOk G x c) (hb : b ∈ G.blks) : CountsOk G x (kvBlkSetDirty b c) :=
  h.flagsSet hb (fun _ => rfl) rfl (fun _ => rfl) rfl

theorem setFresh (h : CountsOk G x c) (hb : b ∈ G.blks) (hi : x = true → kvBlkIsInuse b c = false) :
    CountsOk G x (kvBlkSetFresh b c) := by
  have hup := count_up (c := c) hb Flags.fresh
  rw [← h.fresh] at hup
  rw [kvBlkSetFresh_eq]
  refine h.flagsSet hb (fun y => congrFun (flags_kvBlkFreeszSet b _) y) hup (fun hx => ?_) rfl
  have : (kvBlkFlagsGet b c).inuse = false := hi hx
  rw [this]
  rfl

theorem setInuse (h : CountsOk G x c) (hb : b ∈ G.blks) : CountsOk G x (kvBlkSetInuse b c) := by
  rw [kvBlkSetInuse_eq]
  refine h.flagsSet hb (fun _ => rfl) rfl (fun hx => ?_) rfl
  have hup := count_up (c := c) hb Flags.inuse
  rwa [← h.inuse hx] at hup

theorem resetFresh (h : CountsOk G x c) (hb : b ∈ G.blks) : CountsOk G x (kvBlkResetFresh b c) := by
  have hdn := count_down (c := c) hb Flags.fresh
  rw [← h.fresh] at hdn
  rw [kvBlkResetFresh_eq]
  exact h.flagsSet hb (fun _ => rfl) hdn (fun _ => rfl) rfl

theorem resetInuse (h : CountsOk G x c) (hb : b ∈ G.blks) : CountsOk G x (kvBlkResetInuse b c) := by
  rw [kvBlkResetInuse_eq]
  refine h.flagsSet hb (fun _ => rfl) rfl (fun hx => ?_) rfl
  have hdn := count_down (c := c) hb Flags.inuse
  rwa [← h.inuse hx] at hdn

end CountsOk

/-! ### The index -/

/-- The index entry of a block that holds `k`. A full block may keep its rest of at most one
item header, until a walk sets it to zero. -/
structure Indexed (k : Blk) (d : BlkDetail) : Prop where
  bad : d.flags.bad = false
  hanging : d.flags.hanging = false
  fresh : d.flags.fresh = true → k.slots = [] ∧ d.flags.inuse = false
  free : d.freeSize = k.free ∨ k.free ≤ kvItemHdrSize ∧ d.freeSize = 0
  inuse : d.flags.fresh = false → (d.flags.inuse = true ↔ kvItemHdrSize < k.free)
  dirty : d.flags.dirty = k.hasDisc

structure IdxInv (G : Geo) (tight : Bool) (L : ℕ → Blk) (c : Ctl) : Prop where
  blk : ∀ b ∈ G.blks, Indexed (L b) (c.blkDetail b)
  counts : CountsOk G tight c
  empty : tight = true → ∀ b ∈ G.blks, (L b).slots = [] → kvBlkIsFresh b c = true

variable {G : Geo} {x : Bool} {L : ℕ → Blk} {c : Ctl} {b : ℕ}

/-- A change to one block and its entry. -/
theorem IdxInv.change (h : IdxInv G x L c) {L' : ℕ → Blk} {c' : Ctl} (hL : ∀ y, y ≠ b → L' y = L y)
    (hd : ∀ y, y ≠ b → c'.blkDetail y = c.blkDetail y) (hk : Indexed (L' b) (c'.blkDetail b))
    (hc : CountsOk G x c') (he : x = true → (L' b).slots = [] → kvBlkIsFresh b c' = true) : IdxInv G x L' c' := by
  refine ⟨fun y hy => ?_, hc, fun hx y hy => ?_⟩
  · by_cases hyb : y = b
    · rw [hyb]
      exact hk
    · rw [hL y hyb, hd y hyb]
      exact h.blk y hy
  · by_cases hyb : y = b
    · rw [hyb]
      exact he hx
    · rw [hL y hyb, kvBlkIsFresh, kvBlkFlagsGet, hd y hyb]
      exact h.empty hx y hy

/-- A fresh block is empty. -/
theorem IdxInv.fresh_empty (h : IdxInv G x L c) (hb : b ∈ G.blks) (hf : kvBlkIsFresh b c = true) :
    (L b).slots = [] := ((h.blk b hb).fresh hf).1

theorem IdxInv.dirty_iff (h : IdxInv G x L c) (hb : b ∈ G.blks) : kvBlkIsDirty b c = (L b).hasDisc :=
  (h.blk b hb).dirty

theorem kvBlkSetDirty_of_dirty (h : kvBlkIsDirty b c = true) : kvBlkSetDirty b c = c := by
  have hfl : ({ kvBlkFlagsGet b c with dirty := true } : Flags) = (c.blkDetail b).flags := by
    simp only [kvBlkIsDirty, kvBlkFlagsGet] at h ⊢
    rw [← h]
  have hself : Function.update c.blkDetail b { c.blkDetail b with flags := (c.blkDetail b).flags } = c.blkDetail :=
    Function.update_eq_self b c.blkDetail
  rw [kvBlkSetDirty, hfl, kvBlkFlagsSet, hself]

/-! ### The index update after a complete walk -/

/-- What `kv_item_walkthru` does to the index after it has passed all slots of a block. -/
def settle (k : Blk) (b : ℕ) (c : Ctl) : Ctl :=
  if k.slots = [] then kvBlkSetFresh b c
  else if kvItemHdrSize < k.free then kvBlkSetInuse b (kvBlkFreeszSet b c k.free)
  else kvBlkResetInuse b (kvBlkFreeszSet b c 0)

theorem wp_kvItemWalkIndex {s : St} {k : Blk} (hok : k.Ok) : wp (kvItemWalkIndex b (slotAddr b k.slots))
    (fun _ t => t.dev = s.dev ∧ t.ctl = settle k b s.ctl) s := by
  have hu := hok.free_add
  have hfirst : slotAddr b k.slots = kvBlkFirstItem b ↔ k.slots = [] := by
    rw [← slotsSize_eq_zero, slotAddr]
    omega
  have hroom : slotAddr b k.slots + kvItemHdrSize < kvBlkEnd b ↔ kvItemHdrSize < k.free := by
    simp only [slotAddr, kvBlkFirstItem, kvBlkEnd, Blk.used] at *
    omega
  have hsz : kvBlkEnd b - slotAddr b k.slots = k.free := by
    simp only [slotAddr, kvBlkFirstItem, kvBlkEnd, Blk.used] at *
    omega
  unfold kvItemWalkIndex settle
  rw [hsz]
  refine wp.ite (fun h0 => ?_) fun h0 => wp.ite (fun h1 => ?_) fun h1 => ?_
  · rw [if_pos (hfirst.mp h0)]
    exact wp_idx _
  · rw [if_neg (mt hfirst.mpr h0), if_pos (hroom.mp h1)]
    refine (wp_idx _).bind ?_
    rintro _ t ⟨hd, hc⟩
    apply (wp_idx _).mono
    rintro _ u ⟨hd', hc'⟩
    refine ⟨hd'.trans hd, ?_⟩
    rw [hc', hc]
    rfl
  · rw [if_neg (mt hfirst.mpr h0), if_neg (mt hroom.mpr h1)]
    refine (wp_idx _).bind ?_
    rintro _ t ⟨hd, hc⟩
    apply (wp_idx _).mono
    rintro _ u ⟨hd', hc'⟩
    refine ⟨hd'.trans hd, ?_⟩
    rw [hc', hc]
    rfl

/-- A walk is its loop, and after a loop that went through the index update. -/
theorem wp_kvItemWalkthru {E : Env} {s : St} {ph : Phase} {walker : Walker} {P : (KvErr × Option KvItem) ⊕ ℕ → St → Prop}
    {Q : KvErr × Option KvItem → St → Prop} (hloop : wp (kvItemWalkLoop G E ph b walker 171 (slotAddr b [])) P s)
    (hret : ∀ r t, P (.inl r) t → Q r t)
    (hend : ∀ cur t, P (.inr cur) t → ∃ k : Blk, k.Ok ∧ cur = slotAddr b k.slots ∧
      ∀ u : St, u.dev = t.dev → u.ctl = settle k b t.ctl → Q (.none, none) u) :
    wp (kvItemWalkthru G E ph b walker) Q s := by
  refine wp.bind hloop fun r t h => ?_
  cases r with
  | inl r => exact hret r t h
  | inr cur =>
    obtain ⟨k, hok, rfl, hq⟩ := hend cur t h
    exact (wp_kvItemWalkIndex hok).bind fun _ u ⟨hd, hc⟩ => wp.pure (hq u hd hc)

theorem hasDisc_nil {k : Blk} (h : k.slots = []) : k.hasDisc = false := by simp [Blk.hasDisc, h]

theorem free_nil {k : Blk} (h : k.slots = []) : k.free = kvBlkFreshSize := by
  simp [Blk.free, Blk.used, h, kvBlkFreshSize]

/-- Settling keeps the counters right, except for an empty block that is flagged in use. -/
theorem CountsOk.settle {k : Blk} (h : CountsOk G x c) (hb : b ∈ G.blks)
    (hi : x = true → k.slots = [] → kvBlkIsInuse b c = false) : CountsOk G x (Kv.settle k b c) := by
  unfold Kv.settle
  split_ifs with h0 h1
  · exact h.setFresh hb fun hx => hi hx h0
  · exact (h.freeszSet _).setInuse hb
  · exact (h.freeszSet _).resetInuse hb

/-- Settling a block that is not flagged fresh keeps the index right. -/
theorem IdxInv.settled (h : IdxInv G x L c) (hb : b ∈ G.blks) (hnf : kvBlkIsFresh b c = false) :
    IdxInv G x L (settle (L b) b c) := by
  have hk := h.blk b hb
  have hin := hk.inuse hnf
  have hempty : x = true → (L b).slots ≠ [] := fun hx h0 => by
    rw [h.empty hx b hb h0] at hnf
    contradiction
  have hcounts : CountsOk G x (settle (L b) b c) := h.counts.settle hb fun hx h0 => absurd h0 (hempty hx)
  simp only [kvBlkIsFresh, kvBlkFlagsGet] at hnf
  refine h.change (fun _ _ => rfl) (fun y hy => ?_) ?_ hcounts fun hx h0 => absurd h0 (hempty hx)
  · unfold settle
    split_ifs
    · rw [detail_kvBlkSetFresh, Function.update_of_ne hy]
    · rw [detail_kvBlkSetInuse, detail_kvBlkFreeszSet, Function.update_of_ne hy, Function.update_of_ne hy]
    · rw [detail_kvBlkResetInuse, detail_kvBlkFreeszSet, Function.update_of_ne hy, Function.update_of_ne hy]
  · unfold settle
    split_ifs with h0 h1
    · rw [detail_kvBlkSetFresh, Function.update_self]
      constructor <;> simp [Flags.zero, h0, hasDisc_nil, free_nil]
    · rw [detail_kvBlkSetInuse, detail_kvBlkFreeszSet, Function.update_self, Function.update_self]
      constructor <;> simp [hk.bad, hk.hanging, hk.dirty, hnf, h1]
    · rw [detail_kvBlkResetInuse, detail_kvBlkFreeszSet, Function.update_self, Function.update_self]
      constructor <;> simp [hk.bad, hk.hanging, hk.dirty, hnf, h1]
      omega

/-- What walks make of the index: blocks that are not flagged fresh are settled, one after the
other. -/
inductive Settles (G : Geo) (L : ℕ → Blk) : Ctl → Ctl → Prop
  | refl (c : Ctl) : Settles G L c c
  | step {c c' : Ctl} {b : ℕ} : b ∈ G.blks → kvBlkIsFresh b c = false →
      Settles G L (settle (L b) b c) c' → Settles G L c c'

theorem Settles.trans {c c' c'' : Ctl} (h₁ : Settles G L c c') (h₂ : Settles G L c' c'') : Settles G L c c'' := by
  induction h₁ with
  | refl c => exact h₂
  | step hb hf _ ih => exact .step hb hf (ih h₂)

theorem Settles.idxInv {c c' : Ctl} (h : Settles G L c c') (hi : IdxInv G x L c) : IdxInv G x L c' := by
  induction h with
  | refl c => exact hi
  | step hb hf _ ih => exact ih (hi.settled hb hf)

@[simp] theorem settle_workspace (k : Blk) : (settle k b c).workspace = c.workspace := by
  unfold settle
  split_ifs <;> simp

theorem Settles.workspace {c c' : Ctl} (h : Settles G L c c') : c'.workspace = c.workspace := by
  induction h with
  | refl c => rfl
  | step _ _ _ ih => rw [ih, settle_workspace]

/-! ### The running store -/

/-- The invariant before a workspace is chosen. -/
structure Core (G : Geo) (tight : Bool) (L : ℕ → Blk) (s : St) : Prop where
  rep : Rep G s.dev.flash L
  sane : ∀ b ∈ G.blks, (L b).Sane
  idx : IdxInv G tight L s.ctl

structure Inv (G : Geo) (tight : Bool) (L : ℕ → Blk) (s : St) : Prop extends Core G tight L s where
  ws : s.ctl.workspace ∈ G.blks

theorem Core.ok {s : St} (h : Core G x L s) (hb : b ∈ G.blks) : (L b).Ok := (h.rep b hb).2

/-- A workspace is chosen. -/
theorem Core.inv {s t : St} (h : Core G x L s) (hd : t.dev = s.dev) (hb : b ∈ G.blks)
    (hc : t.ctl = { s.ctl with workspace := b }) : Inv G x L t := by
  refine ⟨⟨?_, h.sane, ?_⟩, ?_⟩
  · rw [hd]
    exact h.rep
  · rw [hc]
    exact ⟨h.idx.blk, h.idx.counts.same (fun _ => rfl) (fun _ => rfl) rfl rfl rfl, h.idx.empty⟩
  · rw [hc]
    exact hb

/-- A call that leaves the flash as it is and at most settles the index. -/
theorem Core.still {s t : St} (h : Core G x L s) (hd : Dev.Still s.dev t.dev) (hc : Settles G L s.ctl t.ctl) :
    Core G x L t := by
  refine ⟨?_, h.sane, hc.idxInv h.idx⟩
  rw [hd.flash]
  exact h.rep

theorem Inv.still {s t : St} (h : Inv G x L s) (hd : Dev.Still s.dev t.dev) (hc : Settles G L s.ctl t.ctl) :
    Inv G x L t := by
  refine ⟨h.toCore.still hd hc, ?_⟩
  rw [hc.workspace]
  exact h.ws

end Ln882x.Kv
