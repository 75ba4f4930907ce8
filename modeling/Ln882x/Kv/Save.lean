import Ln882x.Kv.Contents

/-! Saving and deleting an item on a running store. A save first makes room. If
that moved the item to be replaced, `kv_item_is_moved` has to notice: it compares
the bytes at the old position with its copy, and is deceived when the collections
put the same bytes there as part of other items. -/

namespace Ln882x.Kv

open Nor

variable {G : Geo} {E : Env} {x : Bool} {L : ℕ → Blk} {s : St} {b : ℕ}

/-! ### Writing into a block with room -/

/-- The item `kv_item_save` writes. -/
def newItem (k v : Bytes) (prevPos : ℕ) : Item := ⟨kvChecksumCrc8 (k ++ v), k, v, prevPos⟩

/-- Keys and values that fit a block. -/
structure Fits (k v : Bytes) : Prop where
  key_pos : 0 < k.length
  key_lt : k.length < 0xFF
  val_pos : 0 < v.length
  size_le : kvItemSize k.length v.length ≤ kvBlkFreshSize

theorem Fits.hdr_lt {k v : Bytes} (h : Fits k v) : kvItemHdrSize < kvItemSize k.length v.length := by
  have := h.key_pos
  simp only [kvItemSize]
  omega

theorem Fits.newItem_ok {k v : Bytes} (h : Fits k v) {p : ℕ} (hp : p < 2 ^ 32) : (newItem k v p).Ok := by
  have hle := h.size_le
  constructor
  · exact h.key_pos
  · exact h.key_lt
  · exact h.val_pos
  · simp only [kvItemSize, kvItemHdrSize, kvBlkFreshSize, kvBlkSize, kvBlkHdrSize] at hle
    simp only [newItem]
    omega
  · exact hp

/-- The index updates of `kv_item_save` after the write. -/
def saveCtl (blk size : ℕ) (c : Ctl) : Ctl :=
  let c := kvBlkFreeszReduce blk c size
  if kvBlkIsFresh blk c then
    let c := kvBlkResetFresh blk c
    if kvBlkIsFull blk c then c else kvBlkSetInuse blk c
  else if kvBlkIsFull blk c then kvBlkResetInuse blk c
  else c

section SaveCtl
variable {c : Ctl} {size n : ℕ}

theorem kvBlkFreeszReduce_eq (hf : kvBlkFreeszGet b c = n) (hn : size ≤ n) (hlt : n < 2 ^ 32) :
    kvBlkFreeszReduce b c size = kvBlkFreeszSet b c (n - size) := by
  rw [kvBlkFreeszReduce, hf]
  congr 1
  omega

theorem detail_saveCtl (hf : kvBlkFreeszGet b c = n) (hn : size ≤ n) (hlt : n < 2 ^ 32)
    (hin : kvBlkIsFresh b c = !kvBlkIsInuse b c) :
    (saveCtl b size c).blkDetail = Function.update c.blkDetail b
      ⟨{ (c.blkDetail b).flags with fresh := false, inuse := decide (kvItemHdrSize < n - size) }, n - size⟩ := by
  have hfresh : kvBlkIsFresh b (kvBlkFreeszSet b c (n - size)) = kvBlkIsFresh b c := by
    rw [kvBlkIsFresh, kvBlkFlagsGet, detail_kvBlkFreeszSet, Function.update_self]
    rfl
  have hfull : kvBlkIsFull b (kvBlkFreeszSet b c (n - size)) = decide (n - size ≤ kvItemHdrSize) := by
    rw [kvBlkIsFull, kvBlkFreeszGet, detail_kvBlkFreeszSet, Function.update_self]
  have hfull' : kvBlkIsFull b (kvBlkResetFresh b (kvBlkFreeszSet b c (n - size))) =
      decide (n - size ≤ kvItemHdrSize) := by
    rw [kvBlkIsFull, kvBlkFreeszGet, detail_kvBlkResetFresh, Function.update_self, detail_kvBlkFreeszSet,
      Function.update_self]
  unfold saveCtl
  rw [kvBlkFreeszReduce_eq hf hn hlt]
  simp only [hfresh, hfull, hfull', decide_eq_true_eq]
  cases hfl : kvBlkIsFresh b c with
  | true =>
    have hno : kvBlkIsInuse b c = false := by simpa [hfl] using hin.symm
    simp only [kvBlkIsInuse, kvBlkFlagsGet] at hno
    rw [if_pos rfl]
    by_cases h : n - size ≤ kvItemHdrSize
    · rw [if_pos h, detail_kvBlkResetFresh, detail_kvBlkFreeszSet, Function.update_self, Function.update_idem]
      simp [hno, Nat.not_lt.mpr h]
    · rw [if_neg h, detail_kvBlkSetInuse, detail_kvBlkResetFresh, detail_kvBlkFreeszSet, Function.update_self,
        Function.update_self, Function.update_idem, Function.update_idem]
      simp [Nat.lt_of_not_le h]
  | false =>
    have hyes : kvBlkIsInuse b c = true := by simpa [hfl] using hin.symm
    simp only [kvBlkIsInuse, kvBlkFlagsGet] at hyes
    have hfl' : (c.blkDetail b).flags.fresh = false := hfl
    rw [if_neg (by simp)]
    by_cases h : n - size ≤ kvItemHdrSize
    · rw [if_pos h, detail_kvBlkResetInuse, detail_kvBlkFreeszSet, Function.update_self, Function.update_idem]
      simp [Nat.not_lt.mpr h, hfl']
    · have hflags : (c.blkDetail b).flags =
          { (c.blkDetail b).flags with fresh := false, inuse := decide (kvItemHdrSize < n - size) } := by
        rw [decide_eq_true (Nat.lt_of_not_le h), ← hfl', ← hyes]
      rw [if_neg h, detail_kvBlkFreeszSet, ← hflags]

theorem CountsOk.saveCtl (h : CountsOk G x c) (hb : b ∈ G.blks) (hf : kvBlkFreeszGet b c = n) (hn : size ≤ n)
    (hlt : n < 2 ^ 32) : CountsOk G x (Kv.saveCtl b size c) := by
  unfold Kv.saveCtl
  rw [kvBlkFreeszReduce_eq hf hn hlt]
  have h0 : CountsOk G x (kvBlkFreeszSet b c (n - size)) := h.freeszSet _
  dsimp only
  split_ifs
  · exact h0.resetFresh hb
  · exact (h0.resetFresh hb).setInuse hb
  · exact h0.resetInuse hb
  · exact h0

@[simp] theorem workspace_saveCtl : (saveCtl b size c).workspace = c.workspace := by
  unfold saveCtl
  dsimp only
  split_ifs <;> simp [kvBlkFreeszReduce]

end SaveCtl

/-- Counting the fresh blocks when one of them may stop being fresh. -/
theorem CountsOk.numFresh_drop {c c' : Ctl} (h : CountsOk G x c) (h' : CountsOk G x c') (hb : b ∈ G.blks)
    (hd : ∀ y, y ≠ b → c'.blkDetail y = c.blkDetail y) (hf : kvBlkIsFresh b c' = false) :
    c'.numFresh + (kvBlkIsFresh b c).toNat = c.numFresh := by
  have hfun : (fun y => kvBlkFlagsGet y c') = Function.update (fun y => kvBlkFlagsGet y c) b (kvBlkFlagsGet b c') := by
    funext y
    by_cases hy : y = b
    · rw [hy, Function.update_self]
    · rw [Function.update_of_ne hy, kvBlkFlagsGet, hd y hy]
      rfl
  have hcount := countP_update G.nodup_blks hb (fun y => kvBlkFlagsGet y c) Flags.fresh (kvBlkFlagsGet b c')
  rw [← hfun] at hcount
  have hz : (kvBlkFlagsGet b c').fresh = false := hf
  rw [hz] at hcount
  rw [h.fresh, h'.fresh]
  simpa [numFlagged, kvBlkIsFresh] using hcount

/-- What a save leaves besides the invariant: only the entry of the chosen block differs, its
free size is exact and it is not fresh. -/
structure SaveCtl (c : Ctl) (blk free : ℕ) (c' : Ctl) : Prop where
  workspace : c'.workspace = c.workspace
  other : ∀ y, y ≠ blk → c'.blkDetail y = c.blkDetail y
  freesz : kvBlkFreeszGet blk c' = free
  fresh : kvBlkIsFresh blk c' = false
  numFresh : c'.numFresh + (kvBlkIsFresh blk c).toNat = c.numFresh

theorem free_addSlot (hok : (L b).Ok) (it : Item) (hle : it.size ≤ (L b).free) :
    (addSlot L b it.slot b).free = (L b).free - it.size := by
  have := hok.free_add
  simp only [addSlot, Function.update_self, Blk.free, Blk.used, slotsSize_append, slotsSize_cons, slotsSize_nil,
    Item.slot, Slot.size, if_true] at *
  omega

theorem hasDisc_addSlot (it : Item) : (addSlot L b it.slot b).hasDisc = (L b).hasDisc := by
  simp [addSlot, Blk.hasDisc]

/-- The index after a save is right. -/
theorem IdxInv.saved {c : Ctl} (h : IdxInv G x L c) (hb : b ∈ G.blks) (hok : (L b).Ok) {it : Item} (hit : it.Ok)
    (hle : it.size ≤ (L b).free) : IdxInv G x (addSlot L b it.slot) (saveCtl b it.size c) ∧
      SaveCtl c b (addSlot L b it.slot b).free (saveCtl b it.size c) := by
  have hge := hit.size_ge
  have hk := h.blk b hb
  have hadd := hok.free_add
  have hfree : kvBlkFreeszGet b c = (L b).free := by
    rcases hk.free with hf | ⟨hf, -⟩
    · exact hf
    · simp only [kvItemHdrSize] at hf
      omega
  have hlt : (L b).free < 2 ^ 32 := by
    simp only [kvBlkSize] at hadd
    omega
  have hin : kvBlkIsFresh b c = !kvBlkIsInuse b c := by
    cases hf : kvBlkIsFresh b c with
    | true =>
      have : kvBlkIsInuse b c = false := (hk.fresh hf).2
      rw [this]
      rfl
    | false =>
      have : kvBlkIsInuse b c = true := (hk.inuse hf).mpr (by simp only [kvItemHdrSize]; omega)
      rw [this]
      rfl
  have hdet := detail_saveCtl hfree hle hlt hin
  have hcounts : CountsOk G x (saveCtl b it.size c) := h.counts.saveCtl hb hfree hle hlt
  have hother : ∀ y, y ≠ b → (saveCtl b it.size c).blkDetail y = c.blkDetail y := by
    intro y hy
    rw [hdet, Function.update_of_ne hy]
  have hnf : kvBlkIsFresh b (saveCtl b it.size c) = false := by
    rw [kvBlkIsFresh, kvBlkFlagsGet, hdet, Function.update_self]
  have hnew := free_addSlot hok it hle
  constructor
  · apply h.change (b := b) (fun y hy => Function.update_of_ne hy _ _) hother _ hcounts
    · intro _ h0
      simp [addSlot] at h0
    · rw [hdet, Function.update_self]
      refine ⟨hk.bad, hk.hanging, by simp, .inl hnew.symm, ?_, ?_⟩
      · intro _
        rw [hnew]
        simp
      · rw [hasDisc_addSlot]
        exact hk.dirty
  · refine ⟨workspace_saveCtl, hother, ?_, hnf, h.counts.numFresh_drop hcounts hb hother hnf⟩
    rw [kvBlkFreeszGet, hdet, Function.update_self, hnew]

theorem sane_addSlot (h : ∀ b ∈ G.blks, (L b).Sane) (hb : b ∈ G.blks) {it : Item}
    (hsum : it.checksum = kvChecksumCrc8 it.body) : ∀ y ∈ G.blks, (addSlot L b it.slot y).Sane := by
  intro y hy
  by_cases hyb : y = b
  · subst hyb
    have hs := h y hy
    have hupd : addSlot L y it.slot y = { L y with slots := (L y).slots ++ [it.slot] } := Function.update_self _ _ _
    rw [hupd]
    refine ⟨⟨?_, ?_⟩, hs.fmt, hs.src, hs.done⟩
    · intro it' hit'
      rw [Blk.mem_liveItems] at hit'
      rcases List.mem_append.mp hit' with hin | hin
      · exact hs.sum it' (Blk.mem_liveItems.mpr hin)
      · have : it' = it := congrArg Slot.it (List.mem_singleton.mp hin)
        rw [this]
        exact hsum
    · intro sl hsl hl
      rcases List.mem_append.mp hsl with hin | hin
      · exact hs.broken sl hin hl
      · rw [List.mem_singleton.mp hin] at hl
        contradiction
  · rw [addSlot, Function.update_of_ne hyb]
    exact h y hy

/-- `kv_item_save` into a block with room. -/
theorem wp_kvItemSaveAt (hd : E.DrvOk) (h : Inv G x L s) (hb : b ∈ G.blks) {k v : Bytes} {p : ℕ} (hkv : Fits k v)
    (hp : p < 2 ^ 32) (hroom : kvItemSize k.length v.length ≤ (L b).free) :
    wp (kvItemSaveAt E k v b p) (fun r t =>
      (r = .none ∧ Inv G x (addSlot L b (newItem k v p).slot) t ∧
        SaveCtl s.ctl b (addSlot L b (newItem k v p).slot b).free t.ctl ∧
        LSteps G (Writing L b (newItem k v p)) s.dev t.dev) ∨
      (r = .outOfMemory ∧ ¬E.MallocOk .save ∧ Same s t)) s := by
  have hit := hkv.newItem_ok hp
  have hge := hit.size_ge
  have hok := h.ok hb
  have hadd := hok.free_add
  have hk := h.idx.blk b hb
  have hfree : kvBlkFreeszGet b s.ctl = (L b).free := by
    have hlt := hkv.hdr_lt
    rcases hk.free with hf | ⟨hf, -⟩
    · exact hf
    · omega
  have hsz : (newItem k v p).size = kvItemSize k.length v.length := rfl
  have haddr : kvBlkUsableAddr b s.ctl = slotAddr b (L b).slots := by
    apply kvBlkUsableAddr_eq hb
    · rw [hfree]
      simp only [Blk.free, Blk.used, kvBlkFreshSize]
      omega
    · simp only [Blk.used, kvBlkFreshSize] at *
      omega
  have hfit : (L b).used + (newItem k v p).size ≤ kvBlkSize := by omega
  unfold kvItemSaveAt kvItemDoSave
  dsimp only
  apply wp_getCtl
  rw [haddr]
  apply wp.bind (P := fun r t =>
    (r = .none ∧ t.ctl = s.ctl ∧ Rep G t.dev.flash (addSlot L b (newItem k v p).slot) ∧
      LSteps G (Writing L b (newItem k v p)) s.dev t.dev) ∨ (r = .outOfMemory ∧ ¬E.MallocOk .save ∧ Same s t))
  · apply wp.bind (wp_lnKvMalloc .save)
    rintro r t ⟨hst, hr⟩
    cases r with
    | false => exact wp.pure (.inr ⟨rfl, hr rfl, hst⟩)
    | true =>
      have hrep : Rep G t.dev.flash L := by
        rw [hst.dev]
        exact h.rep
      apply wp.mono (wp_kvItemWrite hd hrep hb hit hfit rfl rfl)
      rintro r u ⟨hr, hctl, hrep', hsteps⟩
      rw [hst.dev] at hsteps
      exact .inl ⟨hr, hctl.trans hst.ctl, hrep', hsteps⟩
  · rintro r t (⟨rfl, hctl, hrep, hsteps⟩ | ⟨rfl, hm, hst⟩)
    · apply wp.ite
      · intro hno
        exact absurd rfl hno
      intro _
      apply wp.bind (wp_idx _)
      rintro _ u ⟨hdev₁, hctl₁⟩
      apply wp_getCtl
      have hc₁ : u.ctl = kvBlkFreeszReduce b s.ctl (kvItemSize k.length v.length) := by
        rw [hctl₁, hctl]
        rfl
      have hdone : ∀ w : St, w.dev = u.dev → w.ctl = saveCtl b (newItem k v p).size s.ctl →
          Inv G x (addSlot L b (newItem k v p).slot) w ∧
          SaveCtl s.ctl b (addSlot L b (newItem k v p).slot b).free w.ctl ∧
          LSteps G (Writing L b (newItem k v p)) s.dev w.dev := by
        intro w hdev hctl
        obtain ⟨hidx, hsave⟩ := h.idx.saved hb hok hit (by rw [hsz]; exact hroom)
        rw [← hctl] at hidx hsave
        refine ⟨⟨⟨?_, sane_addSlot h.sane hb rfl, hidx⟩, ?_⟩, hsave, ?_⟩
        · rw [hdev, hdev₁]
          exact hrep
        · rw [hsave.workspace]
          exact h.ws
        · rw [hdev, hdev₁]
          exact hsteps
      have hsave : saveCtl b (newItem k v p).size s.ctl = if kvBlkIsFresh b u.ctl then
          (if kvBlkIsFull b (kvBlkResetFresh b u.ctl) then kvBlkResetFresh b u.ctl
            else kvBlkSetInuse b (kvBlkResetFresh b u.ctl))
          else if kvBlkIsFull b u.ctl then kvBlkResetInuse b u.ctl else u.ctl := by
        rw [hsz, hc₁]
        rfl
      apply wp.ite
      · intro hfresh
        rw [if_pos hfresh] at hsave
        apply wp.bind (wp_idx _)
        rintro _ w ⟨hdev₂, hctl₂⟩
        apply wp_getCtl
        have hc₂ : w.ctl = kvBlkResetFresh b u.ctl := hctl₂
        apply wp.ite
        · intro hfull
          rw [hc₂] at hfull
          rw [if_neg (by simpa using hfull)] at hsave
          apply wp.bind (wp_idx _)
          rintro _ y ⟨hdev₃, hctl₃⟩
          apply wp.pure
          left
          refine ⟨rfl, hdone y (hdev₃.trans hdev₂) ?_⟩
          rw [hsave, hctl₃, hc₂]
          rfl
        · intro hfull
          rw [hc₂] at hfull
          rw [if_pos (by simpa using hfull)] at hsave
          apply wp.pure
          left
          exact ⟨rfl, hdone w hdev₂ (by rw [hsave, hc₂])⟩
      · intro hfresh
        rw [if_neg hfresh] at hsave
        apply wp.ite
        · intro hfull
          rw [if_pos hfull] at hsave
          apply wp.bind (wp_idx _)
          rintro _ w ⟨hdev₂, hctl₂⟩
          apply wp.pure
          left
          refine ⟨rfl, hdone w hdev₂ ?_⟩
          rw [hsave, hctl₂]
          rfl
        · intro hfull
          rw [if_neg hfull] at hsave
          apply wp.pure
          left
          exact ⟨rfl, hdone u rfl hsave.symm⟩
    · apply wp.ite
      · intro _
        exact wp.pure (.inr ⟨rfl, hm, hst⟩)
      · intro hno
        exact absurd (by decide) hno

/-! ### Deleting -/

theorem free_discardSlot {pre post : List Slot} {sl : Slot} (hs : (L b).slots = pre ++ sl :: post) :
    (discardSlot L b pre sl post b).free = (L b).free := by
  simp [discardSlot, Blk.free, Blk.used, hs, Slot.size]

theorem hasDisc_discardSlot {pre post : List Slot} {sl : Slot} :
    (discardSlot L b pre sl post b).hasDisc = true := by
  simp [discardSlot, Blk.hasDisc, Slot.live]

theorem sane_discardSlot (h : ∀ b ∈ G.blks, (L b).Sane) {pre post : List Slot} {sl : Slot}
    (hs : (L b).slots = pre ++ sl :: post) : ∀ y ∈ G.blks, (discardSlot L b pre sl post y).Sane := by
  intro y hy
  by_cases hyb : y = b
  · subst hyb
    have hsane := h y hy
    have hupd : discardSlot L y pre sl post y = { L y with slots := pre ++ { sl with disc := true } :: post } :=
      Function.update_self _ _ _
    rw [hupd]
    have hin : ∀ z ∈ pre ++ { sl with disc := true } :: post, z ∈ (L y).slots ∨ z.disc = true := by
      intro z hz
      rw [hs]
      rcases List.mem_append.mp hz with hz | hz
      · exact .inl (by simp [hz])
      · rcases List.mem_cons.mp hz with rfl | hz
        · exact .inr rfl
        · exact .inl (by simp [hz])
    refine ⟨⟨?_, ?_⟩, hsane.fmt, hsane.src, hsane.done⟩
    · intro it hit
      rcases hin _ (Blk.mem_liveItems.mp hit) with hmem | hdisc
      · exact hsane.sum it (Blk.mem_liveItems.mpr hmem)
      · contradiction
    · intro z hz hl
      rcases hin z hz with hmem | hdisc
      · exact hsane.broken z hmem hl
      · exact hdisc
  · rw [discardSlot, Function.update_of_ne hyb]
    exact h y hy

theorem Indexed.discard {d : BlkDetail} {pre post : List Slot} {sl : Slot} (h : Indexed (L b) d)
    (hs : (L b).slots = pre ++ sl :: post) :
    Indexed (discardSlot L b pre sl post b) ⟨{ d.flags with dirty := true }, d.freeSize⟩ := by
  have hnf : d.flags.fresh = false := by
    cases hf : d.flags.fresh with
    | true =>
      have := (h.fresh hf).1
      simp [hs] at this
    | false => rfl
  refine ⟨h.bad, h.hanging, ?_, ?_, ?_, hasDisc_discardSlot.symm⟩
  · intro hf
    simp only [hnf] at hf
    contradiction
  · rw [free_discardSlot hs]
    exact h.free
  · rw [free_discardSlot hs]
    exact h.inuse

/-- The index after a deletion is right. -/
theorem IdxInv.discarded {c : Ctl} (h : IdxInv G x L c) (hb : b ∈ G.blks) {pre post : List Slot} {sl : Slot}
    (hs : (L b).slots = pre ++ sl :: post) : IdxInv G x (discardSlot L b pre sl post) (kvBlkSetDirty b c) := by
  apply h.change (b := b) (fun y hy => Function.update_of_ne hy _ _) _ _ (h.counts.setDirty hb)
  · intro _ h0
    simp [discardSlot] at h0
  · intro y hy
    rw [detail_kvBlkSetDirty, Function.update_of_ne hy]
  · rw [detail_kvBlkSetDirty, Function.update_self]
    exact (h.blk b hb).discard hs

/-- An item of the store and where it is. -/
def At (G : Geo) (L : ℕ → Blk) (it : Item) (item : KvItem) : Prop :=
  ∃ b ∈ G.blks, ∃ pre post, (L b).slots = pre ++ it.slot :: post ∧ item = found b pre it

theorem At.mem {it : Item} {item : KvItem} (h : At G L it item) : it ∈ allItems G L := by
  obtain ⟨b, hb, pre, post, hs, -⟩ := h
  exact mem_allItems.mpr ⟨b, hb, by simp [hs]⟩

theorem At.pos_lt {it : Item} {item : KvItem} (h : At G L it item) (hrep : Rep G s.dev.flash L) : item.pos < 2 ^ 32 := by
  obtain ⟨b, hb, pre, post, hs, rfl⟩ := h
  obtain ⟨hit, hfit⟩ := (hrep b hb).2.split hs
  have hge := hit.size_ge
  have hlt := Geo.blk_lt hb
  simp only [found, slotAddr, kvBlkFirstItem, kvBlkHdrSize] at *
  omega

/-- The blocks before and after the deletion of an item. -/
inductive Deleting (G : Geo) (L : ℕ → Blk) (it : Item) (pos : ℕ) : (ℕ → Blk) → Prop
  | start : Deleting G L it pos L
  | done {b : ℕ} {pre post : List Slot} : b ∈ G.blks → (L b).slots = pre ++ it.slot :: post → pos = slotAddr b pre →
      Deleting G L it pos (discardSlot L b pre it.slot post)

/-- What a deletion leaves of the index. -/
structure DelCtl (c c' : Ctl) : Prop where
  numFresh : c'.numFresh = c.numFresh
  numInuse : c'.numInuse = c.numInuse
  workspace : c'.workspace = c.workspace
  fresh : ∀ y, kvBlkIsFresh y c' = kvBlkIsFresh y c
  inuse : ∀ y, kvBlkIsInuse y c' = kvBlkIsInuse y c
  freesz : ∀ y, kvBlkFreeszGet y c' = kvBlkFreeszGet y c

theorem delCtl_setDirty (b : ℕ) (c : Ctl) : DelCtl c (kvBlkSetDirty b c) := by
  have hdet : ∀ y, kvBlkIsFresh y (kvBlkSetDirty b c) = kvBlkIsFresh y c ∧
      kvBlkIsInuse y (kvBlkSetDirty b c) = kvBlkIsInuse y c ∧
      kvBlkFreeszGet y (kvBlkSetDirty b c) = kvBlkFreeszGet y c := by
    intro y
    simp only [kvBlkIsFresh, kvBlkIsInuse, kvBlkFlagsGet, kvBlkFreeszGet, detail_kvBlkSetDirty]
    by_cases hy : y = b
    · rw [hy, Function.update_self]
      exact ⟨rfl, rfl, rfl⟩
    · rw [Function.update_of_ne hy]
      exact ⟨rfl, rfl, rfl⟩
  exact ⟨rfl, rfl, rfl, fun y => (hdet y).1, fun y => (hdet y).2.1, fun y => (hdet y).2.2⟩

/-- An item is deleted from the blocks `L`, which gives `L'`. -/
structure DelDone (G : Geo) (tight : Bool) (L : ℕ → Blk) (s : St) (it : Item) (item : KvItem) (L' : ℕ → Blk) (t : St) :
    Prop where
  core : Core G tight L' t
  perm : (allItems G L).Perm (it :: allItems G L')
  ctl : DelCtl s.ctl t.ctl
  free : ∀ y, (L' y).free = (L y).free
  last : Deleting G L it item.pos L'
  steps : LSteps G (Deleting G L it item.pos) s.dev t.dev

theorem wp_kvItemDelete (hd : E.DrvOk) (h : Core G x L s) {it : Item} {item : KvItem} (hat : At G L it item) :
    wp (kvItemDelete G E item) (fun r t => r = .none ∧ ∃ L', DelDone G x L s it item L' t) s := by
  obtain ⟨b, hb, pre, post, hs, rfl⟩ := hat
  obtain ⟨hit, hfit⟩ := (h.ok hb).split hs
  have hge := hit.size_ge
  have hblk : G.itemAddr2Blk (slotAddr b pre) = b := by
    rw [slotAddr, kvBlkFirstItem, Nat.add_assoc]
    exact Geo.itemAddr2Blk_eq hb (by omega)
  have hrep := h.rep.discard hb hs
  unfold kvItemDelete kvItemDeleteAux kvItemDoDelete kvFlashWunitModify
  apply wp.bind (wp_kvFlashWrite hd _ _)
  rintro r t ⟨rfl, hdev, hctl⟩
  apply wp.ite
  · intro hno
    exact absurd rfl hno
  intro _
  apply wp.bind (wp_idx _)
  rintro _ u ⟨hdev', hctl'⟩
  apply wp.pure
  have hc : u.ctl = kvBlkSetDirty b s.ctl := by
    rw [hctl', hctl, found, IdxCall.run, hblk]
  have hdevu : u.dev = s.dev.exec (.program (slotAddr b pre) (leBytes 8 kvItemDiscarded)) := hdev'.trans hdev
  refine ⟨rfl, discardSlot L b pre it.slot post, ?_⟩
  constructor
  · refine ⟨?_, sane_discardSlot h.sane hs, ?_⟩
    · rw [hdevu]
      exact hrep
    · rw [hc]
      exact h.idx.discarded hb hs
  · exact allItems_discardSlot hb hs
  · rw [hc]
    exact delCtl_setDirty b s.ctl
  · intro y
    by_cases hy : y = b
    · rw [hy, free_discardSlot hs]
    · rw [discardSlot, Function.update_of_ne hy]
  · exact .done hb hs rfl
  · rw [hdevu]
    exact LSteps.exec h.rep .start hrep (.done hb hs rfl)

/-! ### Has it moved? -/

/-- The bytes of the block read as the header of the item at an offset. -/
def Blk.showsHdr (k : Blk) (off : ℕ) (it : Item) : Prop :=
  ItemHdr.ofBytes ((k.image.drop off).take kvItemHdrSize) = it.slot.hdr

/-- And as its body behind that. -/
def Blk.showsBody (k : Blk) (off : ℕ) (it : Item) : Prop :=
  (k.image.drop (off + kvItemHdrSize)).take it.body.length = it.body

/-- A block that got the live items of another one. -/
def Blk.packed (k : Blk) : Blk := { Blk.formatted with dst := true, done := true, slots := k.liveSlots }

/-- `d` is collected right after `b`, into it. -/
def Follows (ds : List ℕ) (b d : ℕ) : Prop := ∃ ds₁ ds₂, ds = ds₁ ++ b :: d :: ds₂

/-- No collection that a save needs puts a copy of an item with this key at the place it is
moved from. A header is enough when the body cannot be read. -/
def NoAlias (G : Geo) (E : Env) (L : ℕ → Blk) (c : Ctl) (key : Bytes) (size : ℕ) : Prop :=
  ∀ b ∈ G.blks, ∀ pre it post, (L b).slots = pre ++ it.slot :: post → it.key = key →
    ∀ d, Follows (gcList G L c size) b d → (L d).packed.showsHdr (kvBlkHdrSize + slotsSize pre) it →
      E.MallocOk .moved ∧ ¬(L d).packed.showsBody (kvBlkHdrSize + slotsSize pre) it

theorem wp_kvItemIsMoved (hd : E.DrvOk) (item : KvItem) :
    wp (kvItemIsMoved E item) (fun r t => Same s t ∧
      (r = false → ItemHdr.ofBytes (readBytes s.dev.flash item.pos kvItemHdrSize) = item.hdr ∧
        (readBytes s.dev.flash (item.pos + kvItemHdrSize) (item.hdr.kLen + item.hdr.vLen) = item.body ∨
          ¬E.MallocOk .moved)) ∧
      (r = true → ItemHdr.ofBytes (readBytes s.dev.flash item.pos kvItemHdrSize) ≠ item.hdr ∨
        readBytes s.dev.flash (item.pos + kvItemHdrSize) (item.hdr.kLen + item.hdr.vLen) ≠ item.body)) s := by
  unfold kvItemIsMoved
  apply wp.bind (wp_kvItemHdrRead hd _)
  rintro r t ⟨rfl, hst⟩
  apply wp.ite
  · intro hne
    exact wp.pure ⟨hst, by simp, fun _ => .inl hne⟩
  intro heq
  rw [not_not] at heq
  apply wp.bind (wp_kvItemBodyRead hd .moved item)
  rintro r u ⟨hsu, hr⟩
  rw [hst.dev] at hr
  rcases hr with rfl | ⟨rfl, hm⟩
  · apply wp.pure
    refine ⟨hst.trans hsu, ?_, ?_⟩
    · intro hbody
      exact ⟨heq, .inl (by simpa using hbody)⟩
    · intro hbody
      exact .inr (by simpa using hbody)
  · exact wp.pure ⟨hst.trans hsu, fun _ => ⟨heq, .inr hm⟩, by simp⟩

theorem Rep.read_block (hrep : Rep G s.dev.flash L) (hb : b ∈ G.blks) {off n : ℕ} (h : off + n ≤ kvBlkSize) :
    readBytes s.dev.flash (b + off) n = ((L b).image.drop off).take n := by
  rw [readBytes_slice _ _ _ _ _ h, (hrep b hb).1]

/-- An empty formatted block shows no item. -/
theorem not_showsHdr_formatted {off : ℕ} (h0 : kvBlkHdrSize ≤ off) (hle : off + kvItemHdrSize ≤ kvBlkSize) (it : Item) :
    ¬Blk.formatted.showsHdr off it := by
  have himg : Blk.formatted.image = Blk.formatted.head ++ blank kvBlkFreshSize := by
    simp [Blk.image, Blk.formatted, Blk.free, Blk.used, kvBlkFreshSize]
  have hblank : (Blk.formatted.image.drop off).take kvItemHdrSize = blank kvItemHdrSize := by
    obtain ⟨n, rfl⟩ := Nat.exists_eq_add_of_le h0
    obtain ⟨r, hr⟩ : ∃ r, kvBlkFreshSize = n + (kvItemHdrSize + r) :=
      ⟨kvBlkFreshSize - n - kvItemHdrSize, by simp only [kvBlkFreshSize] at *; omega⟩
    rw [himg, hr, blank_add, blank_add, ← List.append_assoc, List.drop_left' (by simp [kvBlkHdrSize]),
      List.take_left' (by simp)]
  intro h
  rw [Blk.showsHdr, hblank] at h
  have := congrArg ItemHdr.isLegal h
  rw [ofBytes_blank.1, Slot.hdr_isLegal] at this
  simp [Item.slot] at this

/-! ### Where an item is after making room -/

section MadeRoom
variable {size : ℕ} (hsz : kvItemHdrSize < size) (hle : size ≤ kvBlkFreshSize) (h : Inv G x L s)
include hsz hle h

theorem gcList_ok (hne : gcList G L s.ctl size ≠ []) :
    (∀ d ∈ kvBlkNextFresh G s.ctl :: gcList G L s.ctl size, d ∈ G.blks) ∧
      (kvBlkNextFresh G s.ctl :: gcList G L s.ctl size).Nodup ∧ (L (kvBlkNextFresh G s.ctl)).slots = [] := by
  by_cases hgc : NeedsGc G s.ctl size
  · have hst := hgc.stuck hsz hle h
    have hempty := h.idx.fresh_empty hst.mem hst.fresh
    have hsub : (gcList G L s.ctl size).Sublist (dirtyBlks G L) := by
      rw [gcList, if_pos hgc]
      exact upTo_sublist
    refine ⟨?_, ?_, hempty⟩
    · intro d hd
      rcases List.mem_cons.mp hd with rfl | hd
      · exact hst.mem
      · exact (mem_dirtyBlks.mp (hsub.subset hd)).1
    · rw [List.nodup_cons]
      constructor
      · intro hin
        exact slots_of_hasDisc (mem_dirtyBlks.mp (hsub.subset hin)).2 hempty
      · exact hsub.nodup dirtyBlks_nodup
  · rw [gcList, if_neg hgc] at hne
    exact absurd rfl hne

theorem allItems_madeRoom : (allItems G (madeRoom G L s.ctl size)).Perm (allItems G L) := by
  by_cases hne : gcList G L s.ctl size = []
  · rw [madeRoom, hne, collectAll]
  · obtain ⟨hmem, hnd, hempty⟩ := gcList_ok hsz hle h hne
    exact allItems_collectAll hmem hnd hempty

theorem edits_madeRoom : Edits G L (madeRoom G L s.ctl size) := by
  by_cases hne : gcList G L s.ctl size = []
  · rw [madeRoom, hne, collectAll]
    exact .refl
  · obtain ⟨hmem, hnd, hempty⟩ := gcList_ok hsz hle h hne
    exact edits_collectAll hmem hnd hempty

/-- The block of an item is left alone, or formatted, or holds the items of the next one. -/
theorem madeRoom_cases {sl : Slot} (hs : sl ∈ (L b).slots) : madeRoom G L s.ctl size b = L b ∨
    madeRoom G L s.ctl size b = .formatted ∨
    ∃ d, Follows (gcList G L s.ctl size) b d ∧ madeRoom G L s.ctl size b = (L d).packed := by
  by_cases hne : gcList G L s.ctl size = []
  · left
    rw [madeRoom, hne, collectAll]
  · obtain ⟨hmem, hnd, hempty⟩ := gcList_ok hsz hle h hne
    have hfr : b ≠ kvBlkNextFresh G s.ctl := by
      rintro rfl
      rw [hempty] at hs
      simp at hs
    unfold madeRoom
    by_cases hin : b ∈ gcList G L s.ctl size
    · obtain ⟨ds₁, ds₂, hds⟩ := List.append_of_mem hin
      rw [hds] at hnd ⊢
      cases ds₂ with
      | nil =>
        right; left
        exact collectAll_last hnd
      | cons d ds₂ =>
        right; right
        exact ⟨d, ⟨ds₁, ds₂, rfl⟩, collectAll_next hnd⟩
    · left
      exact collectAll_other hfr hin

end MadeRoom

/-! ### Saving -/

/-- The item to be replaced, the copy of it in RAM, and the position the new item refers to. -/
inductive Prev (G : Geo) (L : ℕ → Blk) : Option Item → Option KvItem → ℕ → Prop
  | none : Prev G L none none 0
  | some {it : Item} {item : KvItem} : At G L it item → Prev G L (some it) (some item) item.pos

/-- Whether an item moved and where it is, after a failed or successful fix. -/
theorem wp_moved (hd : E.DrvOk) {size : ℕ} (hsz : kvItemHdrSize < size) (hle : size ≤ kvBlkFreshSize)
    (h : Inv G x L s) {it : Item} {item : KvItem} (hat : At G L it item)
    (hna : NoAlias G E L s.ctl it.key size) {t : St} (ht : Inv G x (madeRoom G L s.ctl size) t) :
    wp (kvItemIsMoved E item) (fun r u => Same t u ∧ (r = false → At G (madeRoom G L s.ctl size) it item)) t := by
  apply wp.mono (wp_kvItemIsMoved hd item)
  rintro r u ⟨hst, hno, -⟩
  refine ⟨hst, ?_⟩
  intro hr
  obtain ⟨hhdr, hbody⟩ := hno hr
  obtain ⟨b, hb, pre, post, hs, rfl⟩ := hat
  obtain ⟨hit, hfit⟩ := (h.ok hb).split hs
  have hge := hit.size_ge
  have hpos : (found b pre it).pos = b + (kvBlkHdrSize + slotsSize pre) := by
    simp only [found, slotAddr, kvBlkFirstItem]
    omega
  have hsize : it.slot.it.size = 24 + it.body.length := it.size_eq
  have hlen : (found b pre it).hdr.kLen + (found b pre it).hdr.vLen = it.body.length := by
    rw [Item.length_body]
    rfl
  rw [hlen, hpos, Nat.add_assoc] at hbody
  rw [hpos] at hhdr
  rw [ht.rep.read_block hb (by simp only [kvItemHdrSize]; omega)] at hhdr
  rw [ht.rep.read_block hb (by simp only [kvItemHdrSize]; omega)] at hbody
  have hslot : it.slot ∈ (L b).slots := by simp [hs]
  rcases madeRoom_cases hsz hle h hslot with heq | heq | ⟨d, hfol, heq⟩
  · exact ⟨b, hb, pre, post, by rw [heq]; exact hs, rfl⟩
  · rw [heq] at hhdr
    exact absurd hhdr (not_showsHdr_formatted (by omega) (by simp only [kvItemHdrSize]; omega) it)
  · rw [heq] at hhdr hbody
    obtain ⟨hmok, hnb⟩ := hna b hb pre it post hs rfl d hfol hhdr
    rcases hbody with hbody | hbad
    · exact absurd hbody hnb
    · exact absurd hmok hbad

theorem wp_kvItemFix (hd : E.DrvOk) (h : Inv G x L s) {m : Bytes → Option Bytes} (hm : Holds G L m) {it : Item}
    {item : KvItem} (hin : it ∈ allItems G L) (hh : item.hdr = it.slot.hdr) (hbody : item.body = it.body) :
    wp (kvItemFix G E item) (fun r t => Dev.Still s.dev t.dev ∧ Settles G L s.ctl t.ctl ∧
      ((∃ item', r = .ok item' ∧ At G L it item') ∨ (r = .error .posFixFailed ∧ ¬E.MallocOk .fix))) s := by
  unfold kvItemFix
  apply wp.bind (wp_kvItemFindNewCopy hd item h.toCore)
  rintro r t ⟨hst, hset, hr⟩
  cases r with
  | none =>
    apply wp.pure
    refine ⟨hst, hset, .inr ⟨rfl, ?_⟩⟩
    rcases hr with hall | hbad
    · obtain ⟨b, hb, hsl⟩ := mem_allItems.mp hin
      exact absurd ⟨by rw [hh]; rfl, by rw [hh]; rfl, hbody.symm⟩ (hall b hb it (Blk.mem_liveItems.mpr hsl))
    · exact hbad
  | some moved =>
    obtain ⟨b, hb, pre, it', post, hs, ⟨hk, -, hb'⟩, rfl⟩ := hr
    have hkey : it'.key = it.key := by
      have hkl : it'.key.length = it.key.length := by
        rw [hk, hh]
        rfl
      have htake : it'.body.take it'.key.length = it.body.take it.key.length := by rw [hb', hbody, hkl]
      simpa [Item.body] using htake
    have hmem : it' ∈ allItems G L := mem_allItems.mpr ⟨b, hb, by simp [hs]⟩
    have heq := hm.eq_of_key hmem hin hkey
    subst heq
    apply wp.pure
    refine ⟨hst, hset, .inl ⟨_, rfl, b, hb, pre, post, hs, ?_⟩⟩
    rw [found, ← hh, ← hbody]

theorem Inv.same {t : St} (h : Inv G x L s) (hst : Same s t) : Inv G x L t := by
  apply h.still
  · rw [hst.dev]
    exact .refl _
  · rw [hst.ctl]
    exact .refl _

/-- How `kv_item_save` ends: with the new item in the chosen block `blk`, with nothing written
but the collections because an allocation failed, or with nothing at all because there is no
fresh block. -/
inductive SaveResult (G : Geo) (E : Env) (tight : Bool) (L : ℕ → Blk) (s : St) (k v : Bytes) (old : Option Item) :
    KvErr × Option KvItem → St → Prop
  | saved {blk p : ℕ} {prev : Option KvItem} {t u w : St} :
      Chosen G tight L s (kvItemSize k.length v.length) blk t → Dev.Still t.dev u.dev →
      Settles G (madeRoom G L s.ctl (kvItemSize k.length v.length)) t.ctl u.ctl →
      Prev G (madeRoom G L s.ctl (kvItemSize k.length v.length)) old prev p →
      Inv G tight (addSlot (madeRoom G L s.ctl (kvItemSize k.length v.length)) blk (newItem k v p).slot) w →
      SaveCtl u.ctl blk
        (addSlot (madeRoom G L s.ctl (kvItemSize k.length v.length)) blk (newItem k v p).slot blk).free w.ctl →
      LSteps G (Writing (madeRoom G L s.ctl (kvItemSize k.length v.length)) blk (newItem k v p)) u.dev w.dev →
      SaveResult G E tight L s k v old (.none, prev) w
  | failed {blk : ℕ} {r : KvErr × Option KvItem} {t u : St} :
      Chosen G tight L s (kvItemSize k.length v.length) blk t → Dev.Still t.dev u.dev →
      Settles G (madeRoom G L s.ctl (kvItemSize k.length v.length)) t.ctl u.ctl →
      (¬E.MallocOk .fix ∨ ¬E.MallocOk .save) → r.1 ≠ .none → SaveResult G E tight L s k v old r u
  | full {r : KvErr × Option KvItem} : s.ctl.numFresh = 0 → r.1 = .insufficientSpace → SaveResult G E tight L s k v old r s

section Save
variable {k v : Bytes} {old : Option Item} (hd : E.DrvOk) (hkv : Fits k v)
include hd hkv

/-- The part of `kv_item_save` behind the choice of a block. -/
theorem wp_saveAt_result {blk p : ℕ} {prev : Option KvItem} {t u : St}
    (hc : Chosen G x L s (kvItemSize k.length v.length) blk t) (hst : Dev.Still t.dev u.dev)
    (hset : Settles G (madeRoom G L s.ctl (kvItemSize k.length v.length)) t.ctl u.ctl)
    (hprev : Prev G (madeRoom G L s.ctl (kvItemSize k.length v.length)) old prev p) :
    wp (kvItemSaveAt E k v blk p) (fun r w => SaveResult G E x L s k v old (r, prev) w) u := by
  have hinv := hc.inv.still hst hset
  have hp : p < 2 ^ 32 := by
    cases hprev with
    | none => decide
    | some hat => exact hat.pos_lt hinv.rep
  apply wp.mono (wp_kvItemSaveAt hd hinv hc.mem hkv hp hc.room)
  rintro r w (⟨rfl, hw, hsave, hsteps⟩ | ⟨rfl, hm, hsame⟩)
  · exact .saved hc hst hset hprev hw hsave hsteps
  · apply SaveResult.failed hc (u := w)
    · rw [hsame.dev]
      exact hst
    · rw [hsame.ctl]
      exact hset
    · exact .inr hm
    · simp

theorem wp_kvItemSave (hm : E.MallocOk .gc) (h : Inv G x L s) {m : Bytes → Option Bytes} (hmap : Holds G L m)
    (hlive : x = true → ∀ d ∈ gcList G L s.ctl (kvItemSize k.length v.length), (L d).liveSlots ≠ [])
    (hna : NoAlias G E L s.ctl k (kvItemSize k.length v.length)) {prev : Option KvItem} {p : ℕ}
    (hprev : Prev G L old prev p) (hold : ∀ it ∈ old, it.key = k) :
    wp (kvItemSave G E k v prev) (SaveResult G E x L s k v old) s := by
  have hsz := hkv.hdr_lt
  have hle := hkv.size_le
  unfold kvItemSave
  apply wp.bind (wp_kvBlkSearchSuitable hd hm hsz hle h hlive)
  rintro blk t (⟨rfl, rfl, h0⟩ | hc)
  · apply wp.ite
    · intro _
      exact wp.pure (.full h0 rfl)
    · intro hno
      exact absurd rfl hno
  apply wp.ite
  · rintro rfl
    exact absurd hc.mem Geo.invalid_not_mem
  intro _
  have hperm := allItems_madeRoom hsz hle h
  cases hprev with
  | none =>
    apply wp.bind (wp_saveAt_result hd hkv hc (.refl _) (.refl _) .none)
    intro r w hr
    exact wp.pure hr
  | @some it item hat =>
    have hkey := hold it rfl
    apply wp.bind (wp_moved hd hsz hle h hat (by rw [hkey]; exact hna) hc.inv)
    rintro r u ⟨hsame, hr⟩
    have hu := hc.inv.same hsame
    cases r with
    | false =>
      apply wp.ite
      · intro hno
        simp at hno
      intro _
      apply wp.bind (wp_saveAt_result hd hkv hc (by rw [hsame.dev]; exact .refl _) (by rw [hsame.ctl]; exact .refl _)
        (.some (hr rfl)))
      intro r w hr
      exact wp.pure hr
    | true =>
      apply wp.ite
      · intro _
        have hin : it ∈ allItems G (madeRoom G L s.ctl (kvItemSize k.length v.length)) := hperm.mem_iff.mpr hat.mem
        obtain ⟨b, hb, pre, post, hs, rfl⟩ := hat
        apply wp.bind (wp_kvItemFix hd hu (hmap.perm hperm) hin rfl rfl)
        rintro r w ⟨hst, hset, hr⟩
        rw [hsame.dev] at hst
        rw [hsame.ctl] at hset
        rcases hr with ⟨item', rfl, hat'⟩ | ⟨rfl, hbad⟩
        · apply wp.bind (wp_saveAt_result hd hkv hc hst hset (.some hat'))
          intro r w hr
          exact wp.pure hr
        · exact wp.pure (.failed hc hst hset (.inl hbad) (by simp))
      · intro hno
        simp at hno

end Save

end Ln882x.Kv
