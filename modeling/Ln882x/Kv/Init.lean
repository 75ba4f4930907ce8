import Ln882x.Kv.Scan

/-! `ln_kv_init` on an area without an unfinished collection. -/

namespace Ln882x.Kv

open Nor

variable {G : Geo} {E : Env} {x : Bool} {L₀ L L' : ℕ → Blk} {d₀ : Dev} {s u : St} {b : ℕ} {f f' : Flash}

/-! ### After the scan -/

theorem ScanInv.core {scan : BuildScan} (hyp : BootHyp G E d₀.flash L₀) (h : ScanInv G d₀ L₀ G.blks scan L u)
    (hp : ∀ b ∈ G.blks, (L₀ b).Plain) : Core G true L u := by
  have hrep := h.boot.boots.rep hyp.rep
  constructor
  · exact hrep
  · intro b hb
    have hhead := h.boot.boots.sameHead b
    have hdone := h.done b hb (hp b hb)
    refine ⟨⟨?_, ?_⟩, h.fmt b hb, ?_, ?_⟩
    · intro it hit
      obtain ⟨pre, post, hs⟩ := List.append_of_mem (Blk.mem_liveItems.mp hit)
      exact ((hdone pre _ post hs).good it rfl).sum
    · intro sl hsl
      obtain ⟨pre, post, hs⟩ := List.append_of_mem hsl
      exact (hdone pre sl post hs).broken
    · rw [hhead.src]
      exact (hp b hb).1
    · rw [hhead.dst, hhead.done]
      exact (hp b hb).2
  · constructor
    · intro b hb
      exact h.boot.idx.blk b hb ⟨hb, hp b hb⟩
    · exact h.boot.idx.counts
    · intro _ b hb
      exact h.boot.idx.empty b hb ⟨hb, hp b hb⟩

/-! ### Choosing a workspace -/

/-- No block is fresh or in use. -/
structure Idle (G : Geo) (c : Ctl) : Prop where
  numInuse : c.numInuse = 0
  numFresh : c.numFresh = 0
  inuse : ∀ b ∈ G.blks, kvBlkIsInuse b c = false
  fresh : ∀ b ∈ G.blks, kvBlkIsFresh b c = false

theorem Core.weaken (h : Core G true L s) : Core G x L s := by
  refine ⟨h.rep, h.sane, h.idx.blk, ⟨h.idx.counts.fresh, ?_, h.idx.counts.hanging⟩, ?_⟩
  · intro _
    exact h.idx.counts.inuse rfl
  · intro _
    exact h.idx.empty rfl

theorem Core.idle (h : Core G true L s) (h0 : kvNoWriteableBlk s.ctl = true) : Idle G s.ctl := by
  simp only [kvNoWriteableBlk, decide_eq_true_eq] at h0
  have hi := h.idx.counts.inuse rfl
  have hf := h.idx.counts.fresh
  rw [h0.1] at hi
  rw [h0.2] at hf
  refine ⟨h0.1, h0.2, ?_, ?_⟩
  · intro b hb
    simpa [kvBlkIsInuse] using List.countP_eq_zero.mp hi.symm b hb
  · intro b hb
    simpa [kvBlkIsFresh] using List.countP_eq_zero.mp hf.symm b hb

/-- The blocks after `kv_try_gc`, if the init calls it. -/
def tried (G : Geo) (L : ℕ → Blk) (c : Ctl) : ℕ → Blk :=
  if c.numInuse = 0 ∧ c.numFresh = 1 then
    match dirtyBlks G L with
    | [] => L
    | src :: _ => collect L src (kvBlkGetAFresh G c)
  else L

/-- The blocks between the driver calls of `kv_try_gc`. -/
def TryStates (G : Geo) (L : ℕ → Blk) (c : Ctl) (L' : ℕ → Blk) : Prop :=
  L' = L ∨ (c.numInuse = 0 ∧ c.numFresh = 1) ∧
    ∃ src rest, dirtyBlks G L = src :: rest ∧ GcStates L src (kvBlkGetAFresh G c) L'

theorem Core.getAFresh (h : Core G x L s) (h1 : s.ctl.numFresh = 1) : OnlyFresh G s.ctl (kvBlkGetAFresh G s.ctl) := by
  obtain ⟨fr, hfr, hfresh⟩ : ∃ fr ∈ G.blks, kvBlkIsFresh fr s.ctl = true := by
    have hf := h.idx.counts.fresh
    rw [h1] at hf
    exact List.countP_pos_iff.mp (show 0 < numFlagged G Flags.fresh s.ctl by omega)
  have hsome : (G.blks.find? (kvBlkIsFresh · s.ctl)).isSome = true := by
    rw [List.find?_isSome]
    exact ⟨fr, hfr, hfresh⟩
  obtain ⟨y, hy⟩ := Option.isSome_iff_exists.mp hsome
  have hget : kvBlkGetAFresh G s.ctl = y := by rw [kvBlkGetAFresh, hy, Option.getD_some]
  rw [hget]
  exact h.idx.counts.onlyFresh h1 (List.mem_of_find?_eq_some hy) (by simpa using List.find?_some hy)

theorem wp_kvTryGc (hd : E.DrvOk) (hm : E.MallocOk .gc) (h : Core G x L s) (h1 : s.ctl.numFresh = 1)
    (hlive : x = true → ∀ src rest, dirtyBlks G L = src :: rest → (L src).liveSlots ≠ []) :
    wp (kvTryGc G E) (fun _ t =>
      match dirtyBlks G L with
      | [] => t = s
      | src :: _ => Core G x (collect L src (kvBlkGetAFresh G s.ctl)) t ∧
        GcCtl s.ctl src (kvBlkGetAFresh G s.ctl) t.ctl ∧
        LSteps G (GcStates L src (kvBlkGetAFresh G s.ctl)) s.dev t.dev) s := by
  have honly := h.getAFresh h1
  unfold kvTryGc
  apply wp_getCtl
  dsimp only
  apply wp.ite
  · intro hinv
    have hmem := honly.mem
    rw [hinv] at hmem
    exact absurd hmem Geo.invalid_not_mem
  intro _
  apply wp.bind (wp_kvGcFirst hd hm h honly.mem honly.fresh (l := G.blks) (fun _ hb => hb) hlive)
  intro r t hr
  have hr' : match dirtyBlks G L with
      | [] => r = false ∧ t = s
      | src :: _ => r = true ∧ Core G x (collect L src (kvBlkGetAFresh G s.ctl)) t ∧
        GcCtl s.ctl src (kvBlkGetAFresh G s.ctl) t.ctl ∧
        LSteps G (GcStates L src (kvBlkGetAFresh G s.ctl)) s.dev t.dev := hr
  cases hdirty : dirtyBlks G L with
  | nil =>
    rw [hdirty] at hr'
    obtain ⟨rfl, rfl⟩ := hr'
    exact wp.pure rfl
  | cons src rest =>
    rw [hdirty] at hr'
    obtain ⟨rfl, hrest⟩ := hr'
    exact wp.pure hrest

/-- What `kv_mgr_workspace_locate` leaves. The workspace is in use if a block is, else fresh. -/
structure Located (G : Geo) (tight : Bool) (L : ℕ → Blk) (c : Ctl) (r : KvErr) (t : St) : Prop where
  core : Core G tight (tried G L c) t
  counts : CountsOk G true t.ctl
  ws : (r = .none ∧ t.ctl.workspace ∈ G.blks) ∨ (r = .noWriteableBlk ∧ Idle G t.ctl ∧ tried G L c = L)
  fresh : r = .none → kvBlkIsFresh t.ctl.workspace t.ctl = true → t.ctl.numInuse = 0
  ctl : (∃ ws, t.ctl = { c with workspace := ws } ∧ tried G L c = L) ∨
    ∃ src rest c', dirtyBlks G L = src :: rest ∧ c.numInuse = 0 ∧ OnlyFresh G c (kvBlkGetAFresh G c) ∧
      GcCtl c src (kvBlkGetAFresh G c) c' ∧ ∃ ws, t.ctl = { c' with workspace := ws }

/-- The choice of the workspace after `kv_try_gc`. -/
theorem Located.choose {c : Ctl} {t : St} (h : Core G x (tried G L c) s) (hcounts : CountsOk G true s.ctl)
    (hctl : (s.ctl = c ∧ tried G L c = L) ∨
      ∃ src rest, dirtyBlks G L = src :: rest ∧ c.numInuse = 0 ∧ OnlyFresh G c (kvBlkGetAFresh G c) ∧
        GcCtl c src (kvBlkGetAFresh G c) s.ctl) {blk : ℕ}
    (hblk : (G.blks.find? fun blk => if s.ctl.numInuse = 0 then kvBlkIsFresh blk s.ctl else kvBlkIsInuse blk s.ctl) =
      some blk) (hdev : t.dev = s.dev) (ht : t.ctl = { s.ctl with workspace := blk }) :
    Located G x L c .none t := by
  have hmem := List.mem_of_find?_eq_some hblk
  have hp := List.find?_some hblk
  have hinv := h.inv hdev hmem ht
  refine ⟨hinv.toCore, ?_, .inl ⟨rfl, hinv.ws⟩, ?_, ?_⟩
  · rw [ht]
    exact hcounts.same (fun _ => rfl) (fun _ => rfl) rfl rfl rfl
  · intro _ hf
    rw [ht] at hf ⊢
    by_contra hne
    have hf' : kvBlkIsFresh blk s.ctl = true := hf
    have hne' : ¬s.ctl.numInuse = 0 := hne
    rw [if_neg hne'] at hp
    have hnf := (h.idx.blk blk hmem).not_fresh hp
    rw [kvBlkIsFresh, kvBlkFlagsGet, hnf] at hf'
    contradiction
  · rcases hctl with ⟨rfl, htr⟩ | ⟨src, rest, hd, h0, honly, hgc⟩
    · exact .inl ⟨blk, ht, htr⟩
    · exact .inr ⟨src, rest, s.ctl, hd, h0, honly, hgc, blk, ht⟩

/-- Some block is found unless there is none in use or fresh. -/
theorem find_workspace {c : Ctl} (hcounts : CountsOk G true c) (hw : kvNoWriteableBlk c = false) :
    ∃ blk, (G.blks.find? fun blk => if c.numInuse = 0 then kvBlkIsFresh blk c else kvBlkIsInuse blk c) = some blk := by
  rw [← Option.isSome_iff_exists, List.find?_isSome]
  simp only [kvNoWriteableBlk, decide_eq_false_iff_not, not_and] at hw
  by_cases h0 : c.numInuse = 0
  · have hf := hcounts.fresh
    obtain ⟨b, hb, hfresh⟩ := List.countP_pos_iff.mp (show 0 < numFlagged G Flags.fresh c by have := hw h0; omega)
    refine ⟨b, hb, ?_⟩
    rw [if_pos h0]
    exact hfresh
  · have hi := hcounts.inuse rfl
    obtain ⟨b, hb, hinuse⟩ := List.countP_pos_iff.mp (show 0 < numFlagged G Flags.inuse c by omega)
    refine ⟨b, hb, ?_⟩
    rw [if_neg h0]
    exact hinuse

theorem wp_kvMgrWorkspaceLocate (hd : E.DrvOk) (hm : E.MallocOk .gc) (h : Core G true L s)
    (hlive : x = true → s.ctl.numInuse = 0 → s.ctl.numFresh = 1 →
      ∀ src rest, dirtyBlks G L = src :: rest → (L src).liveSlots ≠ []) :
    wp (kvMgrWorkspaceLocate G E) (fun r t => Located G x L s.ctl r t ∧
      LSteps G (TryStates G L s.ctl) s.dev t.dev) s := by
  have hstill : LSteps G (TryStates G L s.ctl) s.dev s.dev := LSteps.still (.refl _) h.rep (.inl rfl)
  have hhang := h.idx.counts.hanging
  have hrest : ∀ u : St, Core G x (tried G L s.ctl) u → CountsOk G true u.ctl →
      ((u = s ∧ tried G L s.ctl = L) ∨ ∃ src rest, dirtyBlks G L = src :: rest ∧ s.ctl.numInuse = 0 ∧
        OnlyFresh G s.ctl (kvBlkGetAFresh G s.ctl) ∧ GcCtl s.ctl src (kvBlkGetAFresh G s.ctl) u.ctl) →
      LSteps G (TryStates G L s.ctl) s.dev u.dev →
      wp (workspaceChoose G) (fun r t => Located G x L s.ctl r t ∧
        LSteps G (TryStates G L s.ctl) s.dev t.dev) u := by
    intro u hu hcounts hctl hsteps
    unfold workspaceChoose
    apply wp_getCtl
    cases hw : kvNoWriteableBlk u.ctl with
    | true =>
      rw [if_pos rfl]
      apply wp.pure
      refine ⟨?_, hsteps⟩
      rcases hctl with ⟨rfl, htr⟩ | ⟨src, rest, hdirty, h0, honly, hgc⟩
      · exact ⟨hu, hcounts, .inr ⟨rfl, h.idle hw, htr⟩, by simp, .inl ⟨u.ctl.workspace, rfl, htr⟩⟩
      · have hmem := (mem_dirtyBlks.mp (show src ∈ dirtyBlks G L by simp [hdirty])).1
        have hone := (honly.collected hmem hgc).numFresh hcounts
        simp only [kvNoWriteableBlk, decide_eq_true_eq] at hw
        omega
    | false =>
      rw [if_neg (by simp)]
      obtain ⟨blk, hblk⟩ := find_workspace hcounts hw
      rw [located, hblk]
      apply wp.bind (wp_idx _)
      rintro _ t ⟨hdev, ht⟩
      apply wp.pure
      refine ⟨Located.choose hu hcounts ?_ hblk hdev ht, ?_⟩
      · rcases hctl with ⟨rfl, htr⟩ | hctl
        · exact .inl ⟨rfl, htr⟩
        · exact .inr hctl
      · rw [hdev]
        exact hsteps
  unfold kvMgrWorkspaceLocate
  dsimp only
  apply wp_getCtl
  rw [if_neg (by omega)]
  apply wp_getCtl
  by_cases hcond : s.ctl.numInuse = 0 ∧ s.ctl.numFresh = 1
  · rw [if_pos hcond]
    apply wp.bind (P := fun _ u => Core G x (tried G L s.ctl) u ∧ CountsOk G true u.ctl ∧
      ((u = s ∧ tried G L s.ctl = L) ∨ ∃ src rest, dirtyBlks G L = src :: rest ∧ s.ctl.numInuse = 0 ∧
        OnlyFresh G s.ctl (kvBlkGetAFresh G s.ctl) ∧ GcCtl s.ctl src (kvBlkGetAFresh G s.ctl) u.ctl) ∧
      LSteps G (TryStates G L s.ctl) s.dev u.dev)
    · apply wp.discard
      apply wp.mono (wp_kvTryGc hd hm h.weaken hcond.2 fun hx => hlive hx hcond.1 hcond.2)
      intro r u hr
      cases hdirty : dirtyBlks G L with
      | nil =>
        rw [hdirty] at hr
        subst hr
        have htr : tried G L u.ctl = L := by rw [tried, if_pos hcond, hdirty]
        rw [htr]
        exact ⟨h.weaken, h.idx.counts, .inl ⟨rfl, rfl⟩, hstill⟩
      | cons src rest =>
        rw [hdirty] at hr
        obtain ⟨hcore, hgc, hsteps⟩ := hr
        have honly := h.getAFresh hcond.2
        have hmem := (mem_dirtyBlks.mp (show src ∈ dirtyBlks G L by simp [hdirty])).1
        have htr : tried G L s.ctl = collect L src (kvBlkGetAFresh G s.ctl) := by
          rw [tried, if_pos hcond, hdirty]
        rw [htr]
        refine ⟨hcore, hgc.counts G hmem honly.mem h.idx.counts, .inr ⟨src, rest, rfl, hcond.1, honly, hgc⟩, ?_⟩
        apply hsteps.mono
        intro L' hL'
        exact .inr ⟨hcond, src, rest, hdirty, hL'⟩
    · rintro _ u ⟨h1, h2, h3, h4⟩
      exact hrest u h1 h2 h3 h4
  · rw [if_neg hcond]
    have htr : tried G L s.ctl = L := if_neg hcond
    exact hrest s (by rw [htr]; exact h.weaken) h.idx.counts (.inl ⟨rfl, htr⟩) hstill

/-! ### The whole init -/

theorem scanInv_start (h : s.ctl = .zero) : ScanInv G s.dev L₀ [] ⟨kvBlkInvalid, [], []⟩ L₀ s := by
  constructor
  · refine ⟨.refl, Dev.Steps.refl ⟨L₀, .refl⟩, ?_⟩
    rw [h]
    exact scanned_zero.congr fun b _ => by simp
  · simp
  · simp
  · rfl
  · rfl
  · simp

/-- `ln_kv_init` up to the end of the scan, where `k` is the rest of it. -/
theorem wp_initScan (hyp : BootHyp G E s.dev.flash L₀) (hctl : E.MallocOk .ctl) {R : KvErr → St → Prop}
    (hrest : ∀ scan L u, ScanInv G s.dev L₀ G.blks scan L u → wp (do
      let err ← kvHandleIncompleteGc G E scan
      if err ≠ .none then return err
      kvMgrWorkspaceLocate G E) R u) : wp (lnKvInit G E) R s := by
  unfold lnKvInit kvMgrCtlBuild
  apply wp.bind (wp_idx _)
  rintro _ t ⟨hdev, hc⟩
  apply wp.bind (wp_lnKvMalloc .ctl)
  rintro r v ⟨hst, hr⟩
  cases r with
  | false => exact absurd hctl (hr rfl)
  | true =>
    apply wp.ite
    · intro hno
      simp at hno
    intro _
    have hdv : v.dev = s.dev := hst.dev.trans hdev
    have hyp' : BootHyp G E v.dev.flash L₀ := by rwa [hdv]
    have hscan := wp_kvMgrCtlScan hyp' [] G.blks rfl (scanInv_start (hst.ctl.trans hc))
    rw [hdv] at hscan
    rw [bind_assoc]
    apply wp.bind hscan
    rintro scan u ⟨L, hL⟩
    exact hrest scan L u hL

/-- What `ln_kv_init` leaves: `L` are the blocks after the scan, in state `u`. -/
structure Inited (G : Geo) (tight : Bool) (s : St) (L₀ L : ℕ → Blk) (u : St) (r : KvErr) (t : St) : Prop where
  scan : ∃ scan, ScanInv G s.dev L₀ G.blks scan L u
  core : Core G true L u
  located : Located G tight L u.ctl r t
  steps : LSteps G (TryStates G L u.ctl) u.dev t.dev

/-- All blocks with items are full. -/
def AllFull (G : Geo) (L : ℕ → Blk) : Prop := ∀ b ∈ G.blks, (L b).slots ≠ [] → (L b).free ≤ kvItemHdrSize

theorem Core.allFull (h : Core G true L s) (h0 : s.ctl.numInuse = 0) : AllFull G L := by
  intro b hb hne
  have hi := h.idx.counts.inuse rfl
  rw [h0] at hi
  have hin : kvBlkIsInuse b s.ctl = false := by
    simpa [kvBlkIsInuse] using List.countP_eq_zero.mp hi.symm b hb
  have hk := h.idx.blk b hb
  have hnf : (s.ctl.blkDetail b).flags.fresh = false := by
    cases hf : (s.ctl.blkDetail b).flags.fresh with
    | true => exact absurd (hk.fresh hf).1 hne
    | false => rfl
  by_contra hlt
  have hyes := (hk.inuse hnf).mpr (by omega)
  rw [kvBlkIsInuse, kvBlkFlagsGet, hyes] at hin
  contradiction

theorem wp_lnKvInit_plain (hyp : BootHyp G E s.dev.flash L₀) (hctl : E.MallocOk .ctl) (hgc : E.MallocOk .gc)
    (hp : ∀ b ∈ G.blks, (L₀ b).Plain)
    (hlive : x = true → ∀ f L, Boots G s.dev.flash L₀ f L → AllFull G L →
      ∀ src rest, dirtyBlks G L = src :: rest → (L src).liveSlots ≠ []) :
    wp (lnKvInit G E) (fun r t => ∃ L u, Inited G x s L₀ L u r t) s := by
  apply wp_initScan hyp hctl
  intro scan L u hscan
  have hcore := hscan.core hyp hp
  have hsrc : scan.gcSrc = [] := by
    rw [hscan.src, List.filter_eq_nil_iff]
    intro b hb
    simp [(hp b hb).1]
  have hdst : scan.gcDstNotDone = [] := by
    rw [hscan.dst, List.filter_eq_nil_iff]
    intro b hb
    cases hd : (L₀ b).dst with
    | true => simp [(hp b hb).2 hd]
    | false => simp
  apply wp.bind (P := fun r t => r = .none ∧ t = u)
  · unfold kvHandleIncompleteGc
    rw [if_neg (by simp [hsrc, hdst]), hsrc]
    exact wp.pure ⟨rfl, rfl⟩
  rintro r t ⟨rfl, rfl⟩
  apply wp.ite
  · intro hno
    exact absurd rfl hno
  intro _
  have hl : x = true → t.ctl.numInuse = 0 → t.ctl.numFresh = 1 →
      ∀ src rest, dirtyBlks G L = src :: rest → (L src).liveSlots ≠ [] := by
    intro hx h0 _
    exact hlive hx _ L hscan.boot.boots (hcore.allFull h0)
  apply wp.mono (wp_kvMgrWorkspaceLocate hyp.drv hgc hcore hl)
  rintro r v ⟨hloc, hsteps⟩
  exact ⟨L, t, ⟨scan, hscan⟩, hcore, hloc, hsteps⟩

end Ln882x.Kv
