import Ln882x.Kv.Boot

/-! The walk of `kv_mgr_index_build` and the scan over all blocks. -/

namespace Ln882x.Kv

open Nor

variable {G : Geo} {E : Env} {L₀ L : ℕ → Blk} {d₀ : Dev} {s u : St} {b : ℕ} {P : ℕ → Prop}

/-- A state of the scan that began with the content of `d₀` and the blocks `L₀`. -/
structure Booting (G : Geo) (d₀ : Dev) (L₀ : ℕ → Blk) (P : ℕ → Prop) (L : ℕ → Blk) (u : St) : Prop where
  boots : Boots G d₀.flash L₀ u.dev.flash L
  steps : Dev.Steps (fun f => ∃ L, Boots G d₀.flash L₀ f L) d₀ u.dev
  idx : Scanned G L u.ctl P

/-- The item is complete and no older copy of it is left. -/
structure Good (G : Geo) (L : ℕ → Blk) (pos : ℕ) (it : Item) : Prop where
  sum : it.checksum = kvChecksumCrc8 it.body
  resolved : Resolved G L pos it

theorem Good.marks {L' : ℕ → Blk} {pos : ℕ} {it : Item} (h : Good G L pos it) (hm : Marks L L') : Good G L' pos it :=
  ⟨h.sum, h.resolved.marks hm⟩

/-- What the scan asks of the blocks it starts from. -/
structure BootHyp (G : Geo) (E : Env) (f : Flash) (L : ℕ → Blk) : Prop where
  drv : E.DrvOk
  build : E.MallocOk .build
  rep : Rep G f L
  raw : ∀ b ∈ G.blks, (L b).fmt = false → L b = .erased
  look : ∀ f' L', Boots G f L f' L' → NoLook G f' L'

/-- Other blocks are as before, or flagged dirty. -/
def Touched (L L' : ℕ → Blk) (c c' : Ctl) : Prop :=
  ∀ y, (L' y = L y ∨ kvBlkIsDirty y c' = true) ∧ (kvBlkIsDirty y c = true → kvBlkIsDirty y c' = true)

theorem Touched.refl (L : ℕ → Blk) (c : Ctl) : Touched L L c c := fun _ => ⟨.inl rfl, id⟩

theorem kvBlkIsDirty_setDirty (c : Ctl) (y : ℕ) :
    kvBlkIsDirty y (kvBlkSetDirty b c) = (kvBlkIsDirty y c || decide (y = b)) := by
  rw [kvBlkIsDirty, kvBlkFlagsGet, detail_kvBlkSetDirty]
  by_cases hy : y = b
  · rw [hy, Function.update_self]
    simp
  · rw [Function.update_of_ne hy]
    simp [hy, kvBlkIsDirty, kvBlkFlagsGet]

theorem touched_discard (L : ℕ → Blk) (c : Ctl) (b : ℕ) (pre post : List Slot) (sl : Slot) :
    Touched L (discardSlot L b pre sl post) c (kvBlkSetDirty b c) := by
  intro y
  rw [kvBlkIsDirty_setDirty]
  constructor
  · by_cases hy : y = b
    · right
      simp [hy]
    · left
      exact Function.update_of_ne hy _ _
  · intro h
    simp [h]

section Discard
variable (hb : Booting G d₀ L₀ P L u) {y : ℕ} (hy : y ∈ G.blks) {pre post : List Slot} {sl : Slot}
  (hs : (L y).slots = pre ++ sl :: post)
include hb hy hs

/-- The walk discards a slot. -/
theorem Booting.discard (hstep : BootStep G u.dev.flash L ((discardOp (slotAddr y pre)).apply u.dev.flash)
      (discardSlot L y pre sl post)) {t : St} (hdev : t.dev = u.dev.exec (discardOp (slotAddr y pre)))
    (hctl : t.ctl = kvBlkSetDirty y u.ctl) : Booting G d₀ L₀ P (discardSlot L y pre sl post) t := by
  have hnext := hb.boots.tail hstep
  constructor
  · rw [hdev]
    exact hnext
  · rw [hdev]
    exact hb.steps.trans (Dev.Steps.exec _ ⟨L, hb.boots⟩ ⟨_, hnext⟩)
  · rw [hctl]
    exact hb.idx.discard hy hs

end Discard

theorem Booting.same {t : St} (hb : Booting G d₀ L₀ P L u) (hs : Same u t) : Booting G d₀ L₀ P L t := by
  obtain ⟨h1, h2, h3⟩ := hb
  rw [← hs.dev] at h1 h2
  rw [← hs.ctl] at h3
  exact ⟨h1, h2, h3⟩

theorem Booting.marks (hb : Booting G d₀ L₀ P L u) : Marks L₀ L := hb.boots.marks

/-- The header of a discarded slot does not read as live. -/
theorem not_liveAt_discarded {f : Flash} {pre post : List Slot} {sl : Slot} {it : Item}
    (hrep : Rep G f (discardSlot L b pre sl post)) (hb : b ∈ G.blks) :
    ¬LiveAt G (discardSlot L b pre sl post) (slotAddr b pre) it := by
  intro hl
  have hdisc : (discardSlot L b pre sl post b).slots = pre ++ { sl with disc := true } :: post := by
    rw [discardSlot, Function.update_self]
  have hdead := (hl.looksLive hrep).live
  rw [hrep.read_hdr hb hdisc, Slot.ofBytes_hdrImage _ ((hrep b hb).2.split hdisc).1, Slot.hdr_isDiscarded] at hdead
  simp at hdead

/-! ### One item -/

/-- Deleting at the address of a slot. -/
theorem wp_kvItemDeleteAux (hd : E.DrvOk) (hok : (L b).Ok) (hb : b ∈ G.blks) {pre post : List Slot} {sl : Slot}
    (hs : (L b).slots = pre ++ sl :: post) :
    wp (kvItemDeleteAux G E (slotAddr b pre)) (fun r t => r = .none ∧ t.dev = u.dev.exec (discardOp (slotAddr b pre)) ∧
      t.ctl = kvBlkSetDirty b u.ctl) u := by
  obtain ⟨hit, hfit⟩ := hok.split hs
  have hge := hit.size_ge
  have hblk : G.itemAddr2Blk (slotAddr b pre) = b := by
    rw [slotAddr, kvBlkFirstItem, Nat.add_assoc]
    exact Geo.itemAddr2Blk_eq hb (by omega)
  unfold kvItemDeleteAux kvItemDoDelete kvFlashWunitModify
  apply wp.bind (wp_kvFlashWrite hd _ _)
  rintro r t ⟨rfl, hdev, hctl⟩
  apply wp.ite
  · intro hno
    exact absurd rfl hno
  intro _
  apply wp.bind (wp_idx _)
  rintro _ v ⟨hdev', hctl'⟩
  apply wp.pure
  refine ⟨rfl, hdev'.trans hdev, ?_⟩
  rw [hctl', hctl, IdxCall.run, hblk]

/-- `kv_item_try_delete` deletes what looks like an older copy, and nothing else. -/
theorem wp_kvItemTryDelete (hd : E.DrvOk) (hm : E.MallocOk .build) {pre : List Slot} {it : Item} {R : KvErr → St → Prop}
    (hno : ¬LooksLive u.dev.flash it.prev it.key → ∀ t, Same u t → R .none t)
    (hyes : LooksLive u.dev.flash it.prev it.key → ∀ t, Same u t → wp (kvItemDeleteAux G E it.prev) R t) :
    wp (kvItemTryDelete G E (found b pre it)) R u := by
  unfold kvItemTryDelete
  dsimp only
  apply wp.bind (wp_kvItemHdrRead hd _)
  rintro r t ⟨rfl, hst⟩
  have hprev : (found b pre it).hdr.prevPos = it.prev := rfl
  have hklen : (found b pre it).hdr.kLen = it.key.length := rfl
  have hbody : (found b pre it).body.take it.key.length = it.key := by simp [found, Item.body]
  rw [hprev, hklen, hbody]
  apply wp.ite
  · intro hbad
    apply wp.pure
    apply hno _ t hst
    intro hl
    simp [hl.legal, hl.live] at hbad
  intro hlive
  simp only [Bool.or_eq_true, Bool.not_eq_true', not_or, Bool.not_eq_false, Bool.not_eq_true] at hlive
  apply wp.ite
  · intro hbad
    apply wp.pure
    apply hno _ t hst
    intro hl
    exact hbad hl.kLen.symm
  intro hk
  rw [not_not] at hk
  apply wp.bind (wp_lnKvMalloc .build)
  rintro r v ⟨hsv, hr⟩
  have huv := hst.trans hsv
  cases r with
  | false => exact absurd hm (hr rfl)
  | true =>
    apply wp.ite
    · intro hbad
      simp at hbad
    intro _
    apply wp.bind (wp_kvFlashRead hd _ _)
    rintro r w ⟨rfl, hsw⟩
    have huw := huv.trans hsw
    rw [huv.dev]
    apply wp.ite
    · intro hbad
      apply wp.pure
      apply hno _ w huw
      intro hl
      exact hbad hl.key
    · intro hkey
      rw [not_not] at hkey
      exact hyes ⟨hlive.1, hlive.2, hk.symm, hkey⟩ w huw

/-- After the recovery walker an item is discarded, or complete with no older copy left. -/
theorem wp_kvItemDoRecovery (hyp : BootHyp G E d₀.flash L₀) (hb : Booting G d₀ L₀ P L u) (hy : b ∈ G.blks)
    {pre post : List Slot} {it : Item} (hs : (L b).slots = pre ++ it.slot :: post) :
    wp (kvItemDoRecovery G E ⟨it.slot.hdr, slotAddr b pre, []⟩) (fun r t => r.1 = .nextLoop ∧ ∃ L',
      Booting G d₀ L₀ P L' t ∧ Boots G u.dev.flash L t.dev.flash L' ∧ Touched L L' u.ctl t.ctl ∧
      (LiveAt G L' (slotAddr b pre) it → Good G L' (slotAddr b pre) it)) u := by
  have hrep := hb.boots.rep hyp.rep
  have hok := (hrep b hy).2
  -- the walker goes on with the next item in every case
  have hfin : ∀ (item : KvItem) (L' : ℕ → Blk) (t : St), Booting G d₀ L₀ P L' t → Boots G u.dev.flash L t.dev.flash L' →
      Touched L L' u.ctl t.ctl → (LiveAt G L' (slotAddr b pre) it → Good G L' (slotAddr b pre) it) →
      wp (if KvErr.none ≠ KvErr.none then pure (KvErr.none, item) else pure (KvErr.nextLoop, item))
        (fun (r : KvErr × KvItem) (t : St) => r.1 = .nextLoop ∧ ∃ L', Booting G d₀ L₀ P L' t ∧
          Boots G u.dev.flash L t.dev.flash L' ∧ Touched L L' u.ctl t.ctl ∧ (LiveAt G L' (slotAddr b pre) it → Good G L' (slotAddr b pre) it)) t := by
    intro item L' t h1 h2 h3 h4
    rw [if_neg (by simp)]
    exact wp.pure ⟨rfl, L', h1, h2, h3, h4⟩
  have hskip : ∀ t, Same u t → Booting G d₀ L₀ P L t ∧ Boots G u.dev.flash L t.dev.flash L ∧
      Touched L L u.ctl t.ctl := by
    intro t ht
    refine ⟨hb.same ht, ?_, ?_⟩
    · rw [ht.dev]
      exact .refl
    · rw [ht.ctl]
      exact .refl L u.ctl
  unfold kvItemDoRecovery
  dsimp only
  apply wp.bind (wp_kvItemBodyRead_slot hyp.drv hrep hy hs _ rfl rfl)
  rintro r t ⟨hst, rfl | ⟨-, hbad⟩⟩
  · have hitem : (⟨it.slot.hdr, slotAddr b pre, it.body⟩ : KvItem) = found b pre it := rfl
    have hverify : kvItemBodyVerify (found b pre it) = true ↔ it.checksum = kvChecksumCrc8 it.body := by
      simp only [kvItemBodyVerify, decide_eq_true_eq]
      exact Iff.rfl
    have hupd : kvItemIsUpdatedOne (found b pre it) = true ↔ it.prev ≠ 0 ∧ it.prev ≠ slotAddr b pre := by
      simp only [kvItemIsUpdatedOne, decide_eq_true_eq]
      exact and_congr_right fun _ => ne_comm
    obtain ⟨hbt, hut, htouch⟩ := hskip t hst
    dsimp only
    rw [hitem]
    by_cases hsum : it.checksum = kvChecksumCrc8 it.body
    · have hv := hverify.mpr hsum
      rw [if_neg (by simp [hv])]
      by_cases hu : it.prev ≠ 0 ∧ it.prev ≠ slotAddr b pre
      · rw [if_pos (hupd.mpr hu)]
        have hupdated : Updated it (slotAddr b pre) := ⟨hsum, hu.1, hu.2⟩
        have hlive : LiveAt G L (slotAddr b pre) it := ⟨b, hy, pre, post, hs, rfl⟩
        have hrept : Rep G t.dev.flash L := by rwa [hst.dev]
        apply wp.bind (P := fun r v => r = .none ∧ ∃ L', Booting G d₀ L₀ P L' v ∧
          Boots G u.dev.flash L v.dev.flash L' ∧ Touched L L' u.ctl v.ctl ∧ (LiveAt G L' (slotAddr b pre) it → Good G L' (slotAddr b pre) it))
        · apply wp_kvItemTryDelete hyp.drv hyp.build
          · intro hno v hsv
            obtain ⟨hbv, huv, htv⟩ := hskip v (hst.trans hsv)
            refine ⟨rfl, L, hbv, huv, htv, ?_⟩
            intro _
            refine ⟨hsum, ?_⟩
            intro _ it' hl' hkey
            apply hno
            rw [← hkey]
            exact hl'.looksLive hrept
          · intro hlooks v hsv
            obtain ⟨it', hl'⟩ := hyp.look _ _ hbt.boots (slotAddr b pre) it hlive hupdated hlooks
            have hkey : it'.key = it.key := (hl'.looksLive hrept).key_eq hlooks
            obtain ⟨y, hyb, pre', post', hs', hprev⟩ := hl'
            have hrepv : Rep G v.dev.flash L := by rwa [hsv.dev]
            rw [hprev]
            apply wp.mono (wp_kvItemDeleteAux hyp.drv (hrepv y hyb).2 hyb hs')
            rintro r w ⟨rfl, hdev, hctl⟩
            have hbv := hbt.same hsv
            have hstep := BootStep.older (f := v.dev.flash) hyb hs' hlive hupdated hprev hkey
            have hbw := hbv.discard hyb hs' hstep hdev hctl
            have huw : Boots G u.dev.flash L w.dev.flash (discardSlot L y pre' it'.slot post') := by
              rw [hdev]
              exact (hskip v (hst.trans hsv)).2.1.tail hstep
            refine ⟨rfl, _, hbw, huw, ?_, ?_⟩
            · rw [hctl, hsv.ctl, hst.ctl]
              exact touched_discard L u.ctl y pre' post' it'.slot
            · intro _
              refine ⟨hsum, ?_⟩
              intro _ it'' hl''
              rw [hprev] at hl''
              exact absurd hl'' (not_liveAt_discarded (hbw.boots.rep hyp.rep) hyb)
        · rintro r v ⟨rfl, L', h1, h2, h3, h4⟩
          exact hfin _ L' v h1 h2 h3 h4
      · rw [if_neg (by rw [hupd]; exact hu)]
        apply wp.bind (P := fun r v => r = .none ∧ v = t) ⟨rfl, rfl⟩
        rintro r v ⟨rfl, rfl⟩
        apply hfin _ L v hbt hut htouch
        intro _
        refine ⟨hsum, ?_⟩
        intro hup
        exact absurd ⟨hup.prev_ne, hup.prev_pos⟩ hu
    · rw [if_pos (by rw [Bool.not_eq_true', ← Bool.not_eq_true, hverify]; exact hsum)]
      apply wp.bind (wp_kvItemDeleteAux hyp.drv hok hy hs)
      rintro r v ⟨rfl, hdev, hctl⟩
      have hstep := BootStep.torn (f := t.dev.flash) hy hs hsum
      have hbv := hbt.discard hy hs hstep hdev hctl
      have huv : Boots G u.dev.flash L v.dev.flash (discardSlot L b pre it.slot post) := by
        rw [hdev]
        exact hut.tail hstep
      apply hfin _ _ v hbv huv
      · rw [hctl, hst.ctl]
        exact touched_discard L u.ctl b pre post it.slot
      · intro hl
        exact absurd hl (not_liveAt_discarded (hbv.boots.rep hyp.rep) hy)
  · exact absurd hyp.build hbad

/-! ### One block -/

/-- A slot the walk has dealt with. -/
structure SlotDone (G : Geo) (L : ℕ → Blk) (pos : ℕ) (sl : Slot) : Prop where
  broken : sl.legal = false → sl.disc = true
  good : ∀ it, sl = it.slot → Good G L pos it

theorem SlotDone.marks {L' : ℕ → Blk} {pos : ℕ} {sl sl' : Slot} (h : SlotDone G L pos sl) (hm : Marks L L')
    (hsl : Marked sl sl') : SlotDone G L' pos sl' := by
  constructor
  · intro hl
    exact hsl.disc (h.broken (hsl.legal.symm.trans hl))
  · rintro it rfl
    exact (h.good it hsl.eq_of_live).marks hm

/-- The slots of a block up to an address have been dealt with, and the block is flagged dirty if
one of them is discarded. -/
structure Passed (G : Geo) (L : ℕ → Blk) (b cur : ℕ) (c : Ctl) : Prop where
  slot : ∀ pre sl post, (L b).slots = pre ++ sl :: post → slotAddr b pre < cur → SlotDone G L (slotAddr b pre) sl
  dirty : ∀ pre sl post, (L b).slots = pre ++ sl :: post → slotAddr b pre < cur → sl.live = false →
    kvBlkIsDirty b c = true

/-- All slots of a block have been dealt with. -/
def BlkDone (G : Geo) (L : ℕ → Blk) (b : ℕ) : Prop :=
  ∀ pre sl post, (L b).slots = pre ++ sl :: post → SlotDone G L (slotAddr b pre) sl

theorem BlkDone.marks {L' : ℕ → Blk} (h : BlkDone G L b) (hm : Marks L L') : BlkDone G L' b := by
  intro pre sl post hs
  have hmb := hm b
  rw [hs] at hmb
  obtain ⟨pre₀, sl₀, post₀, hs₀, hsz, hsl, -⟩ := split_marked hmb
  have haddr : slotAddr b pre = slotAddr b pre₀ := by simp only [slotAddr, hsz]
  rw [haddr]
  exact (h pre₀ sl₀ post₀ hs₀).marks hm hsl

theorem Passed.touch {L' : ℕ → Blk} {c c' : Ctl} {cur : ℕ} (h : Passed G L b cur c) (hm : Marks L L')
    (ht : Touched L L' c c') : Passed G L' b cur c' := by
  constructor
  · intro pre sl post hs hlt
    have hmb := hm b
    rw [hs] at hmb
    obtain ⟨pre₀, sl₀, post₀, hs₀, hsz, hsl, -⟩ := split_marked hmb
    have haddr : slotAddr b pre = slotAddr b pre₀ := by simp only [slotAddr, hsz]
    rw [haddr] at hlt ⊢
    exact (h.slot pre₀ sl₀ post₀ hs₀ hlt).marks hm hsl
  · intro pre sl post hs hlt hl
    obtain ⟨heq | hdirty, hmono⟩ := ht b
    · rw [heq] at hs
      exact hmono (h.dirty pre sl post hs hlt hl)
    · exact hdirty

/-- There is one slot at each address of a block. -/
theorem split_at {pre pre₁ post post₁ : List Slot} {sl sl₁ : Slot} (h : pre₁ ++ sl₁ :: post₁ = pre ++ sl :: post)
    (h0 : slotsSize pre ≤ slotsSize pre₁) (h1 : slotsSize pre₁ < slotsSize pre + sl.size) :
    pre₁ = pre ∧ sl₁ = sl ∧ post₁ = post := by
  induction pre generalizing pre₁ with
  | nil =>
    cases pre₁ with
    | nil =>
      obtain ⟨rfl, rfl⟩ := List.cons.inj h
      exact ⟨rfl, rfl, rfl⟩
    | cons y pre₁ =>
      obtain ⟨rfl, -⟩ := List.cons.inj h
      simp only [slotsSize_cons, slotsSize_nil] at h1
      omega
  | cons y pre ih =>
    cases pre₁ with
    | nil =>
      have := y.size_ge
      simp only [slotsSize_cons, slotsSize_nil] at h0
      omega
    | cons y₁ pre₁ =>
      obtain ⟨rfl, htail⟩ := List.cons.inj h
      simp only [slotsSize_cons] at h0 h1
      obtain ⟨rfl, hsl, hpost⟩ := ih htail (by omega) (by omega)
      exact ⟨rfl, hsl, hpost⟩

/-- One more slot has been dealt with. -/
theorem Passed.next {c : Ctl} {pre post : List Slot} {sl : Slot} (h : Passed G L b (slotAddr b pre) c)
    (hs : (L b).slots = pre ++ sl :: post) (hsl : SlotDone G L (slotAddr b pre) sl)
    (hd : sl.live = false → kvBlkIsDirty b c = true) : Passed G L b (slotAddr b (pre ++ [sl])) c := by
  have hcase : ∀ pre₁ sl₁ post₁, (L b).slots = pre₁ ++ sl₁ :: post₁ → slotAddr b pre₁ < slotAddr b (pre ++ [sl]) →
      slotAddr b pre₁ < slotAddr b pre ∨ (pre₁ = pre ∧ sl₁ = sl) := by
    intro pre₁ sl₁ post₁ hs₁ hlt
    by_cases hlow : slotAddr b pre₁ < slotAddr b pre
    · exact .inl hlow
    · right
      rw [← slotAddr_snoc] at hlt
      simp only [slotAddr] at hlt hlow
      obtain ⟨h1, h2, -⟩ := split_at (hs₁.symm.trans hs) (by omega) (by omega)
      exact ⟨h1, h2⟩
  constructor
  · intro pre₁ sl₁ post₁ hs₁ hlt
    rcases hcase pre₁ sl₁ post₁ hs₁ hlt with hlow | ⟨rfl, rfl⟩
    · exact h.slot pre₁ sl₁ post₁ hs₁ hlow
    · exact hsl
  · intro pre₁ sl₁ post₁ hs₁ hlt
    rcases hcase pre₁ sl₁ post₁ hs₁ hlt with hlow | ⟨rfl, rfl⟩
    · exact h.dirty pre₁ sl₁ post₁ hs₁ hlow
    · exact hd

theorem slotDone_of_disc {pos : ℕ} {sl : Slot} (h : sl.disc = true) : SlotDone G L pos sl := by
  constructor
  · intro _
    exact h
  · rintro it rfl
    contradiction

/-- The walk of a block deals with all its slots and sets its index entry. -/
theorem wp_kvMgrIndexBuild (hyp : BootHyp G E d₀.flash L₀) (hb : Booting G d₀ L₀ P L s) (hy : b ∈ G.blks) (hp : ¬P b) :
    wp (kvMgrIndexBuild G E b) (fun r t => r = .none ∧ ∃ L', Booting G d₀ L₀ (fun y => P y ∨ y = b) L' t ∧
      Boots G s.dev.flash L t.dev.flash L' ∧ BlkDone G L' b) s := by
  let I : List Slot → List Slot → St → Prop := fun pre post u => ∃ L', Booting G d₀ L₀ P L' u ∧
    Boots G s.dev.flash L u.dev.flash L' ∧ (L' b).slots = pre ++ post ∧ Passed G L' b (slotAddr b pre) u.ctl
  let Q : (KvErr × Option KvItem) ⊕ ℕ → St → Prop := fun r u => ∃ L', Booting G d₀ L₀ P L' u ∧
    Boots G s.dev.flash L u.dev.flash L' ∧ r = .inr (slotAddr b (L' b).slots) ∧ Passed G L' b (slotAddr b (L' b).slots) u.ctl
  have hround : ∀ pre sl post u, I pre (sl :: post) u →
      wp (kvItemWalkRound G E .build b (kvItemDoRecovery G E) (slotAddr b pre)) (passes b I Q post) u := by
    rintro pre sl post u ⟨L₁, hb₁, hm₁, hs₁, hpass⟩
    have hrep := hb₁.boots.rep hyp.rep
    apply wp_kvItemWalkRound hyp.drv hrep hy hs₁
    · intro t _ hbad
      exact absurd hyp.build hbad
    · -- a slot without magic is discarded
      intro hl t hdev hctl
      have hstep := BootStep.broken (f := u.dev.flash) hy hs₁ hl
      have hb₂ := hb₁.discard hy hs₁ hstep hdev hctl
      have hs₂ : (discardSlot L₁ b pre sl post b).slots = pre ++ { sl with disc := true } :: post := by
        rw [discardSlot, Function.update_self]
      have hpass₂ := hpass.touch (marks_discardSlot hs₁) (touched_discard L₁ u.ctl b pre post sl)
      rw [← hctl] at hpass₂
      refine ⟨pre ++ [{ sl with disc := true }], post, ?_, rfl, _, hb₂, ?_, ?_, ?_⟩
      · exact slotAddr_snoc b pre { sl with disc := true }
      · rw [hdev]
        exact hm₁.tail hstep
      · rw [hs₂]
        simp
      · apply hpass₂.next hs₂ (slotDone_of_disc rfl)
        intro _
        rw [hctl, kvBlkIsDirty_setDirty]
        simp
    · -- a discarded item is skipped
      intro hl hdsc t hdev hctl
      have hlive : sl.live = false := by simp [Slot.live, hdsc]
      have hdisc : (L₁ b).hasDisc = true := by
        rw [Blk.hasDisc, List.any_eq_true]
        exact ⟨sl, by simp [hs₁], by simp [hlive]⟩
      have hb₂ : Booting G d₀ L₀ P L₁ t := by
        obtain ⟨h1, h2, h3⟩ := hb₁
        rw [← hdev] at h1 h2
        refine ⟨h1, h2, ?_⟩
        rw [hctl]
        exact h3.setDirty hy hdisc
      have htouch : Touched L₁ L₁ u.ctl t.ctl := by
        intro y
        rw [hctl, kvBlkIsDirty_setDirty]
        refine ⟨.inl rfl, ?_⟩
        intro h
        simp [h]
      refine ⟨pre ++ [sl], post, slotAddr_snoc _ _ _, rfl, L₁, hb₂, by rw [hdev]; exact hm₁, by simpa using hs₁, ?_⟩
      apply (hpass.touch (.refl L₁) htouch).next hs₁ (slotDone_of_disc hdsc)
      intro _
      rw [hctl, kvBlkIsDirty_setDirty]
      simp
    · -- a live item goes to the walker
      intro hl t hst
      have hslot := Slot.eq_slot hl
      rw [hslot] at hs₁ ⊢
      apply wp.mono (wp_kvItemDoRecovery hyp (hb₁.same hst) hy hs₁)
      rintro r v ⟨hr, L₂, hb₂, hm₂, htouch, hgood⟩
      unfold afterWalker
      rw [hr, if_neg (by decide), if_pos rfl]
      rw [hst.dev] at hm₂
      have hmb := hm₂.marks b
      rw [hs₁] at hmb
      obtain ⟨pre', sl', post', hs₂, hsz, hsl, hpre, hpost⟩ := split_marked' hmb
      have haddr : slotAddr b pre' = slotAddr b pre := by simp only [slotAddr, hsz]
      rw [hst.ctl] at htouch
      have hpass₂ := hpass.touch hm₂.marks htouch
      rw [← haddr] at hpass₂
      refine ⟨pre' ++ [sl'], post', ?_, hpost.length_eq.symm, L₂, hb₂, hm₁.trans hm₂, by simpa using hs₂, ?_⟩
      · rw [← hsl.size, ← slotAddr_snoc, haddr]
      · apply hpass₂.next hs₂
        · constructor
          · intro hleg
            have := hsl.legal
            rw [hleg] at this
            contradiction
          · rintro it' rfl
            have hit : it' = sl.it := hsl.it
            subst hit
            rw [haddr]
            exact hgood ⟨b, hy, pre', post', hs₂, haddr.symm⟩
        · intro hdead
          obtain ⟨heq | hdirty, -⟩ := htouch b
          · rw [heq, hs₁] at hs₂
            obtain ⟨rfl, rfl, rfl⟩ := split_at hs₂.symm (by omega) (by
              have := sl.it.slot.size_ge
              omega)
            simp at hdead
          · exact hdirty
  have hstart : I [] (L b).slots s := by
    refine ⟨L, hb, .refl, rfl, ?_⟩
    constructor
    · intro pre sl post _ hlt
      simp only [slotAddr, slotsSize_nil] at hlt
      omega
    · intro pre sl post _ hlt
      simp only [slotAddr, slotsSize_nil] at hlt
      omega
  have hok := ((hb.boots.rep hyp.rep) b hy).2
  unfold kvMgrIndexBuild
  apply wp.bind (P := fun r t => r = (.none, none) ∧ ∃ L', Booting G d₀ L₀ (fun y => P y ∨ y = b) L' t ∧
    Boots G s.dev.flash L t.dev.flash L' ∧ BlkDone G L' b)
  · apply wp_kvItemWalkthru (P := Q)
    · apply wp_kvItemWalkLoop hyp.drv hy _ hround _ _ 171 [] (L b).slots s hstart
      · have := hok.length_slots
        omega
      · simp [slotAddr, kvBlkFirstItem, kvBlkEnd, kvBlkHdrSize, kvItemHdrSize, kvBlkSize]
      · rintro pre post u ⟨L', hb', -, hs', -⟩
        exact ⟨L', hb'.boots.rep hyp.rep, hs'⟩
      · rintro pre u t ⟨L', hb', hm', hs', hpass⟩ hst
        rw [List.append_nil] at hs'
        refine ⟨L', hb'.same hst, by rw [hst.dev]; exact hm', by rw [hs'], ?_⟩
        rw [hs', hst.ctl]
        exact hpass
      · intro pre u t _ _ hbad
        exact absurd hyp.build hbad
    · rintro r t ⟨L', -, -, hr, -⟩
      cases hr
    · rintro cur t ⟨L', hb', hm', hr, hpass⟩
      refine ⟨L' b, ((hb'.boots.rep hyp.rep) b hy).2, Sum.inr.inj hr, ?_⟩
      intro u hdev hctl
      have hlt : ∀ {pre post : List Slot} {sl : Slot}, (L' b).slots = pre ++ sl :: post →
          slotAddr b pre < slotAddr b (L' b).slots := by
        intro pre post sl hs'
        have := sl.size_ge
        simp only [slotAddr, hs', slotsSize_append, slotsSize_cons]
        omega
      have hdirty : kvBlkIsDirty b t.ctl = (L' b).hasDisc := by
        obtain ⟨d, hdet, hd⟩ := hb'.idx.rest b hy hp
        cases hh : (L' b).hasDisc with
        | true =>
          rw [Blk.hasDisc, List.any_eq_true] at hh
          obtain ⟨sl, hsl, hdead⟩ := hh
          obtain ⟨pre, post, hs'⟩ := List.append_of_mem hsl
          exact hpass.dirty pre sl post hs' (hlt hs') (by simpa using hdead)
        | false =>
          rw [hh] at hd
          rw [kvBlkIsDirty, kvBlkFlagsGet, hdet]
          simpa using hd
      refine ⟨rfl, L', ?_, by rw [hdev]; exact hm', ?_⟩
      · obtain ⟨h1, h2, h3⟩ := hb'
        rw [← hdev] at h1 h2
        refine ⟨h1, h2, ?_⟩
        rw [hctl]
        exact h3.settle hy hp hdirty
      · intro pre sl post hs'
        exact hpass.slot pre sl post hs' (hlt hs')
  · rintro r t ⟨rfl, hrest⟩
    exact wp.pure ⟨rfl, hrest⟩

end Ln882x.Kv
