import Ln882x.Kv.Recover

/-! The scan over all blocks of `kv_mgr_ctl_build`. -/

namespace Ln882x.Kv

open Nor

variable {G : Geo} {E : Env} {L₀ L L' : ℕ → Blk} {d₀ : Dev} {s u : St} {b : ℕ} {f f' : Flash} {P : ℕ → Prop}

/-! ### Block headers -/

/-- A block that takes no part in an unfinished collection. -/
def Blk.Plain (k : Blk) : Prop := k.src = false ∧ (k.dst = true → k.done = true)

theorem Blk.isLegal_head (k : Blk) : (BlkHdr.ofBytes k.head).isLegal = k.fmt := by
  simp only [Blk.ofBytes_head, BlkHdr.isLegal]
  cases k.fmt <;> decide

theorem Blk.isGcSrc_head (k : Blk) : (BlkHdr.ofBytes k.head).isGcSrc = k.src := by
  simp only [Blk.ofBytes_head, BlkHdr.isGcSrc]
  cases k.src <;> decide

theorem Blk.isGcDstNotDone_head (k : Blk) : (BlkHdr.ofBytes k.head).isGcDstNotDone = (k.dst && !k.done) := by
  simp only [Blk.ofBytes_head, BlkHdr.isGcDstNotDone, BlkHdr.isGcDst, BlkHdr.isGcDone]
  cases k.dst <;> cases k.done <;> decide

theorem wp_kvBlkHdrRead (hd : E.DrvOk) (hrep : Rep G u.dev.flash L) (hb : b ∈ G.blks) :
    wp (kvBlkHdrRead E b) (fun r t => r = .ok (BlkHdr.ofBytes (L b).head) ∧ Same u t) u := by
  unfold kvBlkHdrRead
  apply wp.bind (wp_kvFlashRead hd _ _)
  rintro r t ⟨rfl, hst⟩
  apply wp.pure
  rw [hrep.read_head hb]
  exact ⟨rfl, hst⟩

/-! ### Blocks without a magic -/

theorem BootStep.raw (h : BootStep G f L f' L') (hraw : ∀ b ∈ G.blks, (L b).fmt = false → L b = .erased) :
    ∀ b ∈ G.blks, (L' b).fmt = false → L' b = .erased := by
  have hdisc : ∀ {y : ℕ} {pre post : List Slot} {sl : Slot}, y ∈ G.blks → (L y).slots = pre ++ sl :: post →
      ∀ b ∈ G.blks, (discardSlot L y pre sl post b).fmt = false → discardSlot L y pre sl post b = .erased := by
    intro y pre post sl hy hs b hb hf
    by_cases hby : b = y
    · subst hby
      rw [discardSlot, Function.update_self] at hf
      have he := hraw b hb hf
      rw [he] at hs
      simp [Blk.erased] at hs
    · rw [discardSlot, Function.update_of_ne hby] at hf ⊢
      exact hraw b hb hf
  cases h with
  | broken hy hs => exact hdisc hy hs
  | torn hy hs => exact hdisc hy hs
  | older hy hs => exact hdisc hy hs
  | erase => exact hraw
  | @format y _ he =>
    intro b hb hf
    by_cases hby : b = y
    · rw [hby, Function.update_self] at hf
      contradiction
    · rw [Function.update_of_ne hby] at hf ⊢
      exact hraw b hb hf

theorem Boots.raw (h : Boots G f L f' L') (hraw : ∀ b ∈ G.blks, (L b).fmt = false → L b = .erased) :
    ∀ b ∈ G.blks, (L' b).fmt = false → L' b = .erased := by
  induction h with
  | refl => exact hraw
  | tail _ hstep ih => exact hstep.raw ih

theorem Scanned.format {c : Ctl} (h : Scanned G L c P) (hb : b ∈ G.blks) (hp : ¬P b) :
    Scanned G (Function.update L b .formatted) (kvBlkSetFresh b c) fun y => P y ∨ y = b := by
  obtain ⟨d, hdet, -⟩ := h.rest b hb hp
  have hL : ∀ y, y ≠ b → Function.update L b .formatted y = L y := fun y hy => Function.update_of_ne hy _ _
  have hother : ∀ y, y ≠ b → (kvBlkSetFresh b c).blkDetail y = c.blkDetail y := by
    intro y hy
    rw [detail_kvBlkSetFresh, Function.update_of_ne hy]
  constructor
  · intro y hy hpy
    by_cases hyb : y = b
    · rw [hyb, Function.update_self, detail_kvBlkSetFresh, Function.update_self]
      constructor <;> simp [Flags.zero, Blk.formatted, Blk.hasDisc, Blk.free, Blk.used, kvBlkFreshSize]
    · rw [hL y hyb, hother y hyb]
      exact h.blk y hy (hpy.resolve_right hyb)
  · intro y hy hpy h0
    by_cases hyb : y = b
    · rw [hyb, kvBlkIsFresh, kvBlkFlagsGet, detail_kvBlkSetFresh, Function.update_self]
    · rw [kvBlkIsFresh, kvBlkFlagsGet, hother y hyb]
      rw [hL y hyb] at h0
      exact h.empty y hy (hpy.resolve_right hyb) h0
  · intro y hy hpy
    rw [not_or] at hpy
    rw [hL y hpy.2, hother y hpy.2]
    exact h.rest y hy hpy.1
  · apply h.counts.setFresh hb
    intro _
    rw [kvBlkIsInuse, kvBlkFlagsGet, hdet]
    rfl

/-- The scan formats a block without a magic. -/
theorem wp_scanFormat (hyp : BootHyp G E d₀.flash L₀) (hbt : Booting G d₀ L₀ P L u) (hb : b ∈ G.blks) (hp : ¬P b)
    (hf : (L b).fmt = false) :
    wp (kvBlkFormat E b) (fun r t => r = .none ∧ Booting G d₀ L₀ (fun y => P y ∨ y = b) (Function.update L b .formatted) t ∧
      Marks L (Function.update L b .formatted)) u := by
  have he := hbt.boots.raw hyp.raw b hb hf
  have hmarks := (BootStep.format (f := u.dev.flash) hb he).marks
  unfold kvBlkFormat kvFlashBlkErase kvFlashWunitModify
  apply wp.bind (wp_kvFlashErase hyp.drv _ _)
  rintro r t ⟨rfl, hdev, hctl⟩
  apply wp.bind (wp_kvFlashWrite hyp.drv _ _)
  rintro r v ⟨rfl, hdev', hctl'⟩
  apply wp.bind (wp_idx _)
  rintro _ w ⟨hdev'', hctl''⟩
  apply wp.pure
  have h₁ := hbt.boots.tail (BootStep.erase hb he)
  have h₂ := h₁.tail (BootStep.format hb he)
  have hdw : w.dev = (u.dev.exec (.erase b kvBlkSize)).exec (.program b (leBytes 8 kvBlkHdrMagic)) := by
    rw [hdev'', hdev', hdev]
  refine ⟨rfl, ⟨?_, ?_, ?_⟩, hmarks⟩
  · rw [hdw]
    exact h₂
  · rw [hdw]
    have hs₁ := hbt.steps.trans (Dev.Steps.exec (.erase b kvBlkSize) ⟨L, hbt.boots⟩ ⟨L, h₁⟩)
    exact hs₁.trans (Dev.Steps.exec (.program b (leBytes 8 kvBlkHdrMagic)) ⟨L, h₁⟩ ⟨_, h₂⟩)
  · rw [hctl'', hctl', hctl]
    exact hbt.idx.format hb hp

/-! ### All blocks -/

/-- The scan has passed the blocks of `l`. -/
structure ScanInv (G : Geo) (d₀ : Dev) (L₀ : ℕ → Blk) (l : List ℕ) (scan : BuildScan) (L : ℕ → Blk) (u : St) : Prop where
  boot : Booting G d₀ L₀ (fun y => y ∈ l ∧ (L₀ y).Plain) L u
  done : ∀ y ∈ l, (L₀ y).Plain → BlkDone G L y
  fmt : ∀ y ∈ l, (L y).fmt = true
  src : scan.gcSrc = l.filter fun y => (L₀ y).src
  dst : scan.gcDstNotDone = l.filter fun y => !(L₀ y).src && ((L₀ y).dst && !(L₀ y).done)
  fresh : (scan.freshBlk = kvBlkInvalid ∧ ∀ y ∈ l, (L₀ y).Plain → (L y).slots ≠ []) ∨
    (scan.freshBlk ∈ l ∧ (L₀ scan.freshBlk).Plain ∧ (L scan.freshBlk).slots = [])

theorem Marks.nil_iff (h : Marks L L') (y : ℕ) : (L' y).slots = [] ↔ (L y).slots = [] := by
  have := (h y).length_eq
  rw [← List.length_eq_zero_iff, ← List.length_eq_zero_iff, this]

section Step
variable {l : List ℕ} {scan scan' : BuildScan} (h : ScanInv G d₀ L₀ l scan L u)
include h

/-- A plain block is passed. -/
theorem ScanInv.plain {t : St} (hp : (L₀ b).Plain) (hm : Marks L L')
    (hfmt : ∀ y, (L y).fmt = true → (L' y).fmt = true) (hfb : (L' b).fmt = true)
    (hb : Booting G d₀ L₀ (fun y => (y ∈ l ∧ (L₀ y).Plain) ∨ y = b) L' t) (hd : BlkDone G L' b)
    (hs : scan' = if (L' b).slots = [] then { scan with freshBlk := b } else scan) :
    ScanInv G d₀ L₀ (l ++ [b]) scan' L' t := by
  have hsrc : scan'.gcSrc = scan.gcSrc := by
    rw [hs]
    split_ifs <;> rfl
  have hdst : scan'.gcDstNotDone = scan.gcDstNotDone := by
    rw [hs]
    split_ifs <;> rfl
  have hnot : (!(L₀ b).src && ((L₀ b).dst && !(L₀ b).done)) = false := by
    cases hd1 : (L₀ b).dst with
    | true => simp [hp.2 hd1]
    | false => simp
  have hmem : ∀ y, y ∈ l ++ [b] ↔ y ∈ l ∨ y = b := by simp
  constructor
  · obtain ⟨h1, h2, h3⟩ := hb
    refine ⟨h1, h2, h3.congr ?_⟩
    intro y _
    rw [hmem]
    constructor
    · rintro (⟨hy, hpl⟩ | rfl)
      · exact ⟨.inl hy, hpl⟩
      · exact ⟨.inr rfl, hp⟩
    · rintro ⟨hy | rfl, hpl⟩
      · exact .inl ⟨hy, hpl⟩
      · exact .inr rfl
  · intro y hy hpl
    rcases (hmem y).mp hy with hy | rfl
    · exact (h.done y hy hpl).marks hm
    · exact hd
  · intro y hy
    rcases (hmem y).mp hy with hy | rfl
    · exact hfmt y (h.fmt y hy)
    · exact hfb
  · rw [hsrc, h.src, List.filter_append, List.filter_cons, hp.1]
    simp
  · rw [hdst, h.dst, List.filter_append, List.filter_cons, hnot]
    simp
  · by_cases h0 : (L' b).slots = []
    · right
      rw [if_pos h0] at hs
      rw [hs]
      exact ⟨by simp, hp, h0⟩
    · rw [if_neg h0] at hs
      rw [hs]
      rcases h.fresh with ⟨hinv, hall⟩ | ⟨hin, hpl, hnil⟩
      · left
        refine ⟨hinv, ?_⟩
        intro y hy hpl
        rcases (hmem y).mp hy with hy | rfl
        · rw [ne_eq, hm.nil_iff]
          exact hall y hy hpl
        · exact h0
      · right
        exact ⟨by simp [hin], hpl, (hm.nil_iff _).mpr hnil⟩

/-- A block of an unfinished collection is only noted. -/
theorem ScanInv.noted {t : St} (hp : ¬(L₀ b).Plain) (hst : Same u t) (hfb : (L b).fmt = true)
    (hsrc : scan'.gcSrc = scan.gcSrc ++ if (L₀ b).src then [b] else [])
    (hdst : scan'.gcDstNotDone = scan.gcDstNotDone ++
      if !(L₀ b).src && ((L₀ b).dst && !(L₀ b).done) then [b] else [])
    (hfresh : scan'.freshBlk = scan.freshBlk) : ScanInv G d₀ L₀ (l ++ [b]) scan' L t := by
  have hmem : ∀ y, y ∈ l ++ [b] ↔ y ∈ l ∨ y = b := by simp
  have hmem' : ∀ y, y ∈ l ++ [b] → (L₀ y).Plain → y ∈ l := by
    intro y hy hpl
    rcases (hmem y).mp hy with hy | rfl
    · exact hy
    · exact absurd hpl hp
  constructor
  · obtain ⟨h1, h2, h3⟩ := h.boot.same hst
    refine ⟨h1, h2, h3.congr ?_⟩
    intro y _
    constructor
    · rintro ⟨hy, hpl⟩
      exact ⟨(hmem y).mpr (.inl hy), hpl⟩
    · rintro ⟨hy, hpl⟩
      exact ⟨hmem' y hy hpl, hpl⟩
  · intro y hy hpl
    exact h.done y (hmem' y hy hpl) hpl
  · intro y hy
    rcases (hmem y).mp hy with hy | rfl
    · exact h.fmt y hy
    · exact hfb
  · rw [hsrc, h.src, List.filter_append, List.filter_cons, List.filter_nil]
  · rw [hdst, h.dst, List.filter_append, List.filter_cons, List.filter_nil]
  · rw [hfresh]
    rcases h.fresh with ⟨hinv, hall⟩ | ⟨hin, hpl, hnil⟩
    · left
      exact ⟨hinv, fun y hy hpl => hall y (hmem' y hy hpl) hpl⟩
    · right
      exact ⟨(hmem _).mpr (.inl hin), hpl, hnil⟩

end Step

theorem wp_kvMgrCtlScan (hyp : BootHyp G E d₀.flash L₀) (l₁ l₂ : List ℕ) (hl : G.blks = l₁ ++ l₂) {scan : BuildScan}
    (h : ScanInv G d₀ L₀ l₁ scan L u) :
    wp (kvMgrCtlScan G E scan l₂) (fun r t => ∃ L', ScanInv G d₀ L₀ G.blks r L' t) u := by
  induction l₂ generalizing l₁ scan L u with
  | nil =>
    rw [List.append_nil] at hl
    rw [hl]
    exact wp.pure ⟨L, h⟩
  | cons b l₂ ih =>
    have hb : b ∈ G.blks := by simp [hl]
    have hl' : G.blks = (l₁ ++ [b]) ++ l₂ := by simpa using hl
    have hnot : ¬(b ∈ l₁ ∧ (L₀ b).Plain) := by
      have hnd := G.nodup_blks
      rw [hl] at hnd
      rintro ⟨hin, -⟩
      exact (List.nodup_append.mp hnd).2.2 b hin b (by simp) rfl
    have hrep := h.boot.boots.rep hyp.rep
    have hhead := h.boot.boots.sameHead b
    unfold kvMgrCtlScan
    apply wp.bind (wp_kvBlkHdrRead hyp.drv hrep hb)
    rintro r t ⟨rfl, hst⟩
    dsimp only
    rw [Blk.isLegal_head, Blk.isGcSrc_head, Blk.isGcDstNotDone_head, hhead.src, hhead.dst, hhead.done]
    cases hf : (L b).fmt with
    | false =>
      have hraw₀ : (L₀ b).fmt = false := by
        cases hf₀ : (L₀ b).fmt with
        | true =>
          rw [hhead.fmt hf₀] at hf
          contradiction
        | false => rfl
      have hplain : (L₀ b).Plain := by
        rw [hyp.raw b hb hraw₀]
        exact ⟨rfl, by simp [Blk.erased]⟩
      apply wp.ite
      · intro _
        apply wp.bind (wp_scanFormat hyp (h.boot.same hst) hb hnot hf)
        rintro r v ⟨rfl, hbv, hm⟩
        apply wp.ite
        · intro hno
          exact absurd rfl hno
        intro _
        apply ih (l₁ ++ [b]) hl'
        apply h.plain hplain hm _ _ hbv
        · intro pre sl post hs
          rw [Function.update_self] at hs
          simp [Blk.formatted] at hs
        · rw [Function.update_self, if_pos]
          rfl
        · intro y hy
          by_cases hyb : y = b
          · rw [hyb, Function.update_self]
            rfl
          · rw [Function.update_of_ne hyb]
            exact hy
        · rw [Function.update_self]
          rfl
      · intro hno
        simp at hno
    | true =>
      apply wp.ite
      · intro hno
        simp at hno
      intro _
      apply wp.ite
      · intro hsrc
        apply ih (l₁ ++ [b]) hl'
        apply h.noted _ hst hf
        · simp [hsrc]
        · simp [hsrc]
        · rfl
        · intro hpl
          rw [hpl.1] at hsrc
          contradiction
      intro hsrc
      apply wp.ite
      · intro hdst
        simp only [Bool.not_eq_true] at hsrc
        apply ih (l₁ ++ [b]) hl'
        apply h.noted _ hst hf
        · simp [hsrc]
        · rw [hsrc, hdst]
          simp
        · rfl
        · intro hpl
          simp only [Bool.and_eq_true, Bool.not_eq_true'] at hdst
          have := hpl.2 hdst.1
          rw [hdst.2] at this
          contradiction
      intro hdst
      have hplain : (L₀ b).Plain := by
        refine ⟨by simpa using hsrc, ?_⟩
        intro hd1
        by_contra hd2
        apply hdst
        simpa [hd1] using hd2
      apply wp.bind (wp_kvMgrIndexBuild hyp (h.boot.same hst) hb hnot)
      rintro r v ⟨rfl, L', hbv, htv, hdone⟩
      have hm := htv.marks
      apply wp.ite
      · intro hno
        exact absurd rfl hno
      intro _
      apply wp_getCtl
      have hfresh : kvBlkIsFresh b v.ctl = true ↔ (L' b).slots = [] := by
        constructor
        · intro hfr
          exact ((hbv.idx.blk b hb (.inr rfl)).fresh hfr).1
        · intro h0
          exact hbv.idx.empty b hb (.inr rfl) h0
      have hfmt : ∀ y, (L y).fmt = true → (L' y).fmt = true := fun y => (htv.sameHead y).fmt
      apply wp.ite
      · intro hfr
        apply ih (l₁ ++ [b]) hl'
        apply h.plain hplain hm hfmt (hfmt b hf) hbv hdone
        rw [if_pos (hfresh.mp hfr)]
      · intro hfr
        apply ih (l₁ ++ [b]) hl'
        apply h.plain hplain hm hfmt (hfmt b hf) hbv hdone
        rw [if_neg (mt hfresh.mpr hfr)]

end Ln882x.Kv
