import Mathlib.Data.List.Forall2
import Ln882x.Kv.Calls

/-! The scan of `kv_mgr_ctl_build`. It formats blocks without a magic and walks
the others, except those of an unfinished collection. The walk discards slots
without magic and items whose checksum is wrong, and follows the previous
position of an item to discard the older copy a power cut left.

The previous position may be out of date: a collection may have put other bytes
there. `NoLook` says that no such bytes pass for an item with the same key. -/

namespace Ln882x.Kv

open Nor

variable {G : Geo} {E : Env} {L L' L'' : ℕ → Blk} {s : St} {b : ℕ} {f f' : Flash}

/-! ### Marking slots as discarded -/

/-- A slot that may have been discarded. -/
structure Marked (sl sl' : Slot) : Prop where
  it : sl'.it = sl.it
  legal : sl'.legal = sl.legal
  disc : sl.disc = true → sl'.disc = true

theorem Marked.refl (sl : Slot) : Marked sl sl := ⟨rfl, rfl, id⟩

theorem Marked.trans {sl sl' sl'' : Slot} (h₁ : Marked sl sl') (h₂ : Marked sl' sl'') : Marked sl sl'' :=
  ⟨h₂.it.trans h₁.it, h₂.legal.trans h₁.legal, fun h => h₂.disc (h₁.disc h)⟩

theorem Marked.size {sl sl' : Slot} (h : Marked sl sl') : sl'.size = sl.size := by
  unfold Slot.size
  rw [h.it, h.legal]

/-- A slot that is live after marking was live before. -/
theorem Marked.eq_of_live {sl : Slot} {it : Item} (h : Marked sl it.slot) : sl = it.slot := by
  obtain ⟨i, d, l⟩ := sl
  obtain ⟨hi, hl, hd⟩ := h
  simp only [Item.slot] at hi hl hd
  subst hi hl
  cases d with
  | true => simpa using hd rfl
  | false => rfl

/-- The blocks have the same slots, some of them discarded. -/
def Marks (L L' : ℕ → Blk) : Prop := ∀ b, List.Forall₂ Marked (L b).slots (L' b).slots

theorem forall₂_marked_refl (l : List Slot) : List.Forall₂ Marked l l := by
  induction l with
  | nil => exact .nil
  | cons sl l ih => exact .cons (.refl sl) ih

theorem Marks.refl (L : ℕ → Blk) : Marks L L := fun b => forall₂_marked_refl (L b).slots

theorem forall₂_marked_trans {l l' l'' : List Slot} (h₁ : List.Forall₂ Marked l l') (h₂ : List.Forall₂ Marked l' l'') :
    List.Forall₂ Marked l l'' := by
  induction h₁ generalizing l'' with
  | nil => exact h₂
  | cons hm _ ih =>
    cases h₂ with
    | cons hm' h₂ => exact .cons (hm.trans hm') (ih h₂)

theorem Marks.trans (h₁ : Marks L L') (h₂ : Marks L' L'') : Marks L L'' := fun b => forall₂_marked_trans (h₁ b) (h₂ b)

/-- A split of the slots after marking is one of the slots before. -/
theorem split_marked {l pre post : List Slot} {sl : Slot} (h : List.Forall₂ Marked l (pre ++ sl :: post)) :
    ∃ pre₀ sl₀ post₀, l = pre₀ ++ sl₀ :: post₀ ∧ slotsSize pre = slotsSize pre₀ ∧ Marked sl₀ sl ∧
      List.Forall₂ Marked pre₀ pre ∧ List.Forall₂ Marked post₀ post := by
  induction pre generalizing l with
  | nil =>
    cases h with
    | @cons sl₀ _ post₀ _ hm h => exact ⟨[], sl₀, post₀, rfl, rfl, hm, .nil, h⟩
  | cons y pre ih =>
    cases h with
    | @cons y₀ _ l₀ _ hm h =>
      obtain ⟨pre₀, sl₀, post₀, rfl, hsz, hsl, hpre, hpost⟩ := ih h
      refine ⟨y₀ :: pre₀, sl₀, post₀, rfl, ?_, hsl, .cons hm hpre, hpost⟩
      rw [slotsSize_cons, slotsSize_cons, hm.size, hsz]

/-- The same the other way round. -/
theorem split_marked' {l' pre post : List Slot} {sl : Slot} (h : List.Forall₂ Marked (pre ++ sl :: post) l') :
    ∃ pre' sl' post', l' = pre' ++ sl' :: post' ∧ slotsSize pre' = slotsSize pre ∧ Marked sl sl' ∧
      List.Forall₂ Marked pre pre' ∧ List.Forall₂ Marked post post' := by
  induction pre generalizing l' with
  | nil =>
    cases h with
    | @cons _ sl' _ post' hm h => exact ⟨[], sl', post', rfl, rfl, hm, .nil, h⟩
  | cons y pre ih =>
    cases h with
    | @cons _ y' _ l₀ hm h =>
      obtain ⟨pre', sl', post', rfl, hsz, hsl, hpre, hpost⟩ := ih h
      refine ⟨y' :: pre', sl', post', rfl, ?_, hsl, .cons hm hpre, hpost⟩
      rw [slotsSize_cons, slotsSize_cons, hm.size, hsz]

theorem marks_discardSlot {pre post : List Slot} {sl : Slot} (hs : (L b).slots = pre ++ sl :: post) :
    Marks L (discardSlot L b pre sl post) := by
  intro y
  by_cases hy : y = b
  · subst hy
    rw [discardSlot, Function.update_self, hs]
    exact List.rel_append (forall₂_marked_refl pre) (.cons ⟨rfl, rfl, fun _ => rfl⟩ (forall₂_marked_refl post))
  · rw [discardSlot, Function.update_of_ne hy]
    exact forall₂_marked_refl _

/-! ### Items and their previous positions -/

/-- A live item at an address. -/
def LiveAt (G : Geo) (L : ℕ → Blk) (pos : ℕ) (it : Item) : Prop :=
  ∃ b ∈ G.blks, ∃ pre post, (L b).slots = pre ++ it.slot :: post ∧ pos = slotAddr b pre

theorem LiveAt.marks {pos : ℕ} {it : Item} (h : LiveAt G L' pos it) (hm : Marks L L') : LiveAt G L pos it := by
  obtain ⟨b, hb, pre, post, hs, rfl⟩ := h
  have hmb := hm b
  rw [hs] at hmb
  obtain ⟨pre₀, sl₀, post₀, hs₀, hsz, hsl, -⟩ := split_marked hmb
  refine ⟨b, hb, pre₀, post₀, ?_, ?_⟩
  · rw [hs₀, hsl.eq_of_live]
  · simp only [slotAddr, hsz]

/-- A complete item, newer than what its previous position held. -/
structure Updated (it : Item) (pos : ℕ) : Prop where
  sum : it.checksum = kvChecksumCrc8 it.body
  prev_ne : it.prev ≠ 0
  prev_pos : it.prev ≠ pos

/-- What `kv_item_try_delete` takes for an older copy of an item with this key. -/
structure LooksLive (f : Flash) (p : ℕ) (key : Bytes) : Prop where
  legal : (ItemHdr.ofBytes (readBytes f p kvItemHdrSize)).isLegal = true
  live : (ItemHdr.ofBytes (readBytes f p kvItemHdrSize)).isDiscarded = false
  kLen : (ItemHdr.ofBytes (readBytes f p kvItemHdrSize)).kLen = key.length
  key : readBytes f (p + kvItemHdrSize) key.length = key

/-- Whatever looks like an older copy is an item. -/
def NoLook (G : Geo) (f : Flash) (L : ℕ → Blk) : Prop :=
  ∀ pos it, LiveAt G L pos it → Updated it pos → LooksLive f it.prev it.key → ∃ it', LiveAt G L it.prev it'

/-- No older copy of the item is left. -/
def Resolved (G : Geo) (L : ℕ → Blk) (pos : ℕ) (it : Item) : Prop :=
  Updated it pos → ∀ it', LiveAt G L it.prev it' → it'.key ≠ it.key

theorem Resolved.marks {pos : ℕ} {it : Item} (h : Resolved G L pos it) (hm : Marks L L') : Resolved G L' pos it :=
  fun hu it' hl => h hu it' (hl.marks hm)

theorem LiveAt.looksLive {pos : ℕ} {it : Item} (hrep : Rep G f L) (h : LiveAt G L pos it) : LooksLive f pos it.key := by
  obtain ⟨b, hb, pre, post, hs, rfl⟩ := h
  have hit := ((hrep b hb).2.split hs).1
  have hhdr := hrep.read_hdr hb hs
  have hbody := hrep.read_body hb hs rfl (n := it.key.length) (by simp [Item.slot, Item.body])
  constructor
  · rw [hhdr, Slot.ofBytes_hdrImage _ hit, Slot.hdr_isLegal]
    rfl
  · rw [hhdr, Slot.ofBytes_hdrImage _ hit, Slot.hdr_isDiscarded]
    rfl
  · rw [hhdr, Slot.ofBytes_hdrImage _ hit]
    rfl
  · rw [hbody]
    simp [Item.slot, Item.body]

theorem LooksLive.key_eq {p : ℕ} {k k' : Bytes} (h : LooksLive f p k) (h' : LooksLive f p k') : k = k' := by
  have hlen : k.length = k'.length := h.kLen.symm.trans h'.kLen
  rw [← h.key, ← h'.key, hlen]

/-! ### The driver calls of the scan -/

/-- The driver call that discards the item at an address. -/
def discardOp (pos : ℕ) : Op := .program pos (leBytes 8 kvItemDiscarded)

/-- One driver call of the scan and what it does to the blocks. -/
inductive BootStep (G : Geo) : Flash → (ℕ → Blk) → Flash → (ℕ → Blk) → Prop
  | broken {f : Flash} {L : ℕ → Blk} {b : ℕ} {pre post : List Slot} {sl : Slot} : b ∈ G.blks →
      (L b).slots = pre ++ sl :: post → sl.legal = false →
      BootStep G f L ((discardOp (slotAddr b pre)).apply f) (discardSlot L b pre sl post)
  | torn {f : Flash} {L : ℕ → Blk} {b : ℕ} {pre post : List Slot} {it : Item} : b ∈ G.blks →
      (L b).slots = pre ++ it.slot :: post → it.checksum ≠ kvChecksumCrc8 it.body →
      BootStep G f L ((discardOp (slotAddr b pre)).apply f) (discardSlot L b pre it.slot post)
  | older {f : Flash} {L : ℕ → Blk} {b pos : ℕ} {pre post : List Slot} {it it' : Item} : b ∈ G.blks →
      (L b).slots = pre ++ it'.slot :: post → LiveAt G L pos it → Updated it pos → it.prev = slotAddr b pre →
      it'.key = it.key → BootStep G f L ((discardOp (slotAddr b pre)).apply f) (discardSlot L b pre it'.slot post)
  | erase {f : Flash} {L : ℕ → Blk} {b : ℕ} : b ∈ G.blks → L b = .erased →
      BootStep G f L ((Op.erase b kvBlkSize).apply f) L
  | format {f : Flash} {L : ℕ → Blk} {b : ℕ} : b ∈ G.blks → L b = .erased →
      BootStep G f L ((Op.program b (leBytes 8 kvBlkHdrMagic)).apply f) (Function.update L b .formatted)

/-- Any number of driver calls of the scan. -/
inductive Boots (G : Geo) (f : Flash) (L : ℕ → Blk) : Flash → (ℕ → Blk) → Prop
  | refl : Boots G f L f L
  | tail {f₁ f₂ : Flash} {L₁ L₂ : ℕ → Blk} : Boots G f L f₁ L₁ → BootStep G f₁ L₁ f₂ L₂ → Boots G f L f₂ L₂

theorem BootStep.rep (h : BootStep G f L f' L') (hrep : Rep G f L) : Rep G f' L' := by
  cases h with
  | broken hb hs => exact hrep.discard hb hs
  | torn hb hs => exact hrep.discard hb hs
  | older hb hs => exact hrep.discard hb hs
  | erase hb he =>
    have h := hrep.erase hb
    rwa [← he, Function.update_eq_self] at h
  | format hb he => exact hrep.format hb he

theorem BootStep.marks (h : BootStep G f L f' L') : Marks L L' := by
  cases h with
  | broken _ hs => exact marks_discardSlot hs
  | torn _ hs => exact marks_discardSlot hs
  | older _ hs => exact marks_discardSlot hs
  | erase => exact .refl L
  | @format b _ he =>
    intro y
    by_cases hy : y = b
    · rw [hy, Function.update_self, he]
      exact .nil
    · rw [Function.update_of_ne hy]
      exact forall₂_marked_refl _

theorem Boots.rep (h : Boots G f L f' L') (hrep : Rep G f L) : Rep G f' L' := by
  induction h with
  | refl => exact hrep
  | tail _ hstep ih => exact hstep.rep ih

theorem Boots.marks (h : Boots G f L f' L') : Marks L L' := by
  induction h with
  | refl => exact .refl L
  | tail _ hstep ih => exact ih.trans hstep.marks

theorem Boots.trans {f₁ f₂ : Flash} {L₁ L₂ : ℕ → Blk} (h₁ : Boots G f L f₁ L₁) (h₂ : Boots G f₁ L₁ f₂ L₂) :
    Boots G f L f₂ L₂ := by
  induction h₂ with
  | refl => exact h₁
  | tail _ hstep ih => exact .tail ih hstep

/-- The words of the header that the scan does not write. -/
structure SameHead (k k' : Blk) : Prop where
  src : k'.src = k.src
  dst : k'.dst = k.dst
  done : k'.done = k.done
  fmt : k.fmt = true → k'.fmt = true

theorem BootStep.sameHead (h : BootStep G f L f' L') (y : ℕ) : SameHead (L y) (L' y) := by
  have hdisc : ∀ {b : ℕ} {pre post : List Slot} {sl : Slot}, SameHead (L y) (discardSlot L b pre sl post y) := by
    intro b pre post sl
    by_cases hy : y = b
    · subst hy
      rw [discardSlot, Function.update_self]
      exact ⟨rfl, rfl, rfl, id⟩
    · rw [discardSlot, Function.update_of_ne hy]
      exact ⟨rfl, rfl, rfl, id⟩
  cases h with
  | broken => exact hdisc
  | torn => exact hdisc
  | older => exact hdisc
  | erase => exact ⟨rfl, rfl, rfl, id⟩
  | @format b _ he =>
    by_cases hy : y = b
    · subst hy
      rw [Function.update_self, he]
      exact ⟨rfl, rfl, rfl, fun _ => rfl⟩
    · rw [Function.update_of_ne hy]
      exact ⟨rfl, rfl, rfl, id⟩

theorem Boots.sameHead (h : Boots G f L f' L') (y : ℕ) : SameHead (L y) (L' y) := by
  induction h with
  | refl => exact ⟨rfl, rfl, rfl, id⟩
  | tail _ hstep ih =>
    have hs := hstep.sameHead y
    exact ⟨hs.src.trans ih.src, hs.dst.trans ih.dst, hs.done.trans ih.done, fun h => hs.fmt (ih.fmt h)⟩

/-! ### The index during the scan -/

/-- The index is right for the blocks of `P`; the others only may be flagged dirty. -/
structure Scanned (G : Geo) (L : ℕ → Blk) (c : Ctl) (P : ℕ → Prop) : Prop where
  blk : ∀ b ∈ G.blks, P b → Indexed (L b) (c.blkDetail b)
  empty : ∀ b ∈ G.blks, P b → (L b).slots = [] → kvBlkIsFresh b c = true
  rest : ∀ b ∈ G.blks, ¬P b → ∃ d, c.blkDetail b = ⟨{ Flags.zero with dirty := d }, 0⟩ ∧ (d = true → (L b).hasDisc = true)
  counts : CountsOk G true c

theorem scanned_zero : Scanned G L .zero fun _ => False := by
  constructor
  · intro b _ hp
    exact hp.elim
  · intro b _ hp
    exact hp.elim
  · intro b _ _
    exact ⟨false, rfl, by simp⟩
  · constructor
    · simp [Ctl.zero, numFlagged, kvBlkFlagsGet, Flags.zero]
    · simp [Ctl.zero, numFlagged, kvBlkFlagsGet, Flags.zero]
    · rfl

section Scanned
variable {c : Ctl} {P : ℕ → Prop}

theorem Scanned.congr {Q : ℕ → Prop} (h : Scanned G L c P) (hpq : ∀ b ∈ G.blks, P b ↔ Q b) : Scanned G L c Q := by
  constructor
  · intro b hb hq
    exact h.blk b hb ((hpq b hb).mpr hq)
  · intro b hb hq
    exact h.empty b hb ((hpq b hb).mpr hq)
  · intro b hb hq
    exact h.rest b hb fun hp => hq ((hpq b hb).mp hp)
  · exact h.counts

theorem Scanned.discard (h : Scanned G L c P) (hb : b ∈ G.blks) {pre post : List Slot} {sl : Slot}
    (hs : (L b).slots = pre ++ sl :: post) : Scanned G (discardSlot L b pre sl post) (kvBlkSetDirty b c) P := by
  have hL : ∀ y, y ≠ b → discardSlot L b pre sl post y = L y := fun y hy => Function.update_of_ne hy _ _
  have hd : ∀ y, y ≠ b → (kvBlkSetDirty b c).blkDetail y = c.blkDetail y := by
    intro y hy
    rw [detail_kvBlkSetDirty, Function.update_of_ne hy]
  constructor
  · intro y hy hp
    by_cases hyb : y = b
    · subst hyb
      rw [detail_kvBlkSetDirty, Function.update_self]
      exact (h.blk y hy hp).discard hs
    · rw [hL y hyb, hd y hyb]
      exact h.blk y hy hp
  · intro y hy hp h0
    by_cases hyb : y = b
    · subst hyb
      simp [discardSlot] at h0
    · rw [kvBlkIsFresh, kvBlkFlagsGet, hd y hyb]
      rw [hL y hyb] at h0
      exact h.empty y hy hp h0
  · intro y hy hp
    obtain ⟨d, hdet, hdisc⟩ := h.rest y hy hp
    by_cases hyb : y = b
    · subst hyb
      refine ⟨true, ?_, fun _ => hasDisc_discardSlot⟩
      rw [detail_kvBlkSetDirty, Function.update_self, hdet]
    · refine ⟨d, ?_, ?_⟩
      · rw [hd y hyb, hdet]
      · rw [hL y hyb]
        exact hdisc
  · exact h.counts.setDirty hb

/-- Flagging a block dirty that has a discarded slot. -/
theorem Scanned.setDirty (h : Scanned G L c P) (hb : b ∈ G.blks) (hdisc : (L b).hasDisc = true) :
    Scanned G L (kvBlkSetDirty b c) P := by
  by_cases hp : P b
  · rw [kvBlkSetDirty_of_dirty]
    · exact h
    · exact (h.blk b hb hp).dirty.trans hdisc
  · have hd : ∀ y, y ≠ b → (kvBlkSetDirty b c).blkDetail y = c.blkDetail y := by
      intro y hy
      rw [detail_kvBlkSetDirty, Function.update_of_ne hy]
    constructor
    · intro y hy hpy
      rw [hd y (by rintro rfl; exact hp hpy)]
      exact h.blk y hy hpy
    · intro y hy hpy h0
      rw [kvBlkIsFresh, kvBlkFlagsGet, hd y (by rintro rfl; exact hp hpy)]
      exact h.empty y hy hpy h0
    · intro y hy hpy
      obtain ⟨d, hdet, hdd⟩ := h.rest y hy hpy
      by_cases hyb : y = b
      · subst hyb
        refine ⟨true, ?_, fun _ => hdisc⟩
        rw [detail_kvBlkSetDirty, Function.update_self, hdet]
      · exact ⟨d, by rw [hd y hyb, hdet], hdd⟩
    · exact h.counts.setDirty hb

/-- The index update after the walk of a block that was not scanned before. -/
theorem Scanned.settle (h : Scanned G L c P) (hb : b ∈ G.blks) (hp : ¬P b)
    (hdirty : kvBlkIsDirty b c = (L b).hasDisc) : Scanned G L (settle (L b) b c) fun y => P y ∨ y = b := by
  obtain ⟨d, hdet, -⟩ := h.rest b hb hp
  have hd : d = (L b).hasDisc := by
    rw [← hdirty, kvBlkIsDirty, kvBlkFlagsGet, hdet]
  subst hd
  have hother : ∀ y, y ≠ b → (Kv.settle (L b) b c).blkDetail y = c.blkDetail y := fun y hy => detail_settle_of_ne hy
  have hself : Indexed (L b) ((Kv.settle (L b) b c).blkDetail b) ∧
      ((L b).slots = [] → kvBlkIsFresh b (Kv.settle (L b) b c) = true) := by
    unfold Kv.settle
    split_ifs with h0 h1
    · rw [kvBlkIsFresh, kvBlkFlagsGet, detail_kvBlkSetFresh, Function.update_self]
      refine ⟨?_, fun _ => rfl⟩
      constructor <;> simp [Flags.zero, h0, hasDisc_nil, free_nil]
    · rw [detail_kvBlkSetInuse, detail_kvBlkFreeszSet, Function.update_self, Function.update_self, hdet]
      refine ⟨?_, fun h => absurd h h0⟩
      constructor <;> simp [Flags.zero, h1]
    · rw [detail_kvBlkResetInuse, detail_kvBlkFreeszSet, Function.update_self, Function.update_self, hdet]
      refine ⟨?_, fun h => absurd h h0⟩
      constructor <;> simp [Flags.zero, h1]
      omega
  constructor
  · intro y hy hpy
    by_cases hyb : y = b
    · rw [hyb]
      exact hself.1
    · rw [hother y hyb]
      exact h.blk y hy (hpy.resolve_right hyb)
  · intro y hy hpy h0
    by_cases hyb : y = b
    · subst hyb
      exact hself.2 h0
    · rw [kvBlkIsFresh, kvBlkFlagsGet, hother y hyb]
      exact h.empty y hy (hpy.resolve_right hyb) h0
  · intro y hy hpy
    rw [not_or] at hpy
    rw [hother y hpy.2]
    exact h.rest y hy hpy.1
  · apply h.counts.settle hb
    intro _ _
    rw [kvBlkIsInuse, kvBlkFlagsGet, hdet]
    rfl

end Scanned

end Ln882x.Kv
