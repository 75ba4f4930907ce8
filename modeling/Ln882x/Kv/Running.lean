import Ln882x.Kv.Decode

/-! A running store and the map it holds. The blocks are read back from the
flash, so the state of the store says everything; each public call keeps the
store running and changes the map as its reply tells. -/

namespace Ln882x.Kv

open Nor

variable {G : Geo} {E : Env} {x : Bool} {L : ℕ → Blk} {s t : St} {f : Flash} {m : Bytes → Option Bytes}
  {key value : Bytes}

/-! ### Blocks in the flash -/

/-- The flash holds formatted blocks with the entries of `m`, each complete. -/
structure Stored (G : Geo) (m : Bytes → Option Bytes) (f : Flash) : Prop where
  rep : Rep G f (blksOf f)
  sane : ∀ b ∈ G.blks, (blksOf f b).Sane
  legal : AllLegal G (blksOf f)
  holds : Holds G (blksOf f) m

/-- The store runs on blocks with the entries of `m`. Without a block to write to it has no
workspace. -/
structure Running (G : Geo) (tight : Bool) (m : Bytes → Option Bytes) (s : St) : Prop where
  core : Core G tight (blksOf s.dev.flash) s
  legal : AllLegal G (blksOf s.dev.flash)
  holds : Holds G (blksOf s.dev.flash) m
  ready : s.ctl.workspace ∈ G.blks ∨ Idle G s.ctl

theorem Running.stored (h : Running G x m s) : Stored G m s.dev.flash := ⟨h.core.rep, h.core.sane, h.legal, h.holds⟩

theorem Core.blksOf_eq (h : Core G x L s) (hl : AllLegal G L) : ∀ b ∈ G.blks, blksOf s.dev.flash b = L b :=
  fun _ hb => h.rep.blksOf_eq hb (hl.canon hb)

theorem Core.running (h : Core G x L s) (hl : AllLegal G L) (hm : Holds G L m)
    (hw : s.ctl.workspace ∈ G.blks ∨ Idle G s.ctl) : Running G x m s := by
  have hL := h.blksOf_eq hl
  refine ⟨h.congr hL, hl.congr hL, ?_, hw⟩
  rw [Holds, allItems_congr hL]
  exact hm

/-! ### A store without a block to write to -/

theorem Idle.full (h : Idle G s.ctl) (hc : Core G x L s) {b : ℕ} (hb : b ∈ G.blks) :
    (L b).slots ≠ [] ∧ (L b).free ≤ kvItemHdrSize := by
  have hk := hc.idx.blk b hb
  have hf : (s.ctl.blkDetail b).flags.fresh = false := h.fresh b hb
  have hi : (s.ctl.blkDetail b).flags.inuse = false := h.inuse b hb
  have hle : (L b).free ≤ kvItemHdrSize := by
    by_contra hlt
    rw [(hk.inuse hf).mpr (by omega)] at hi
    contradiction
  refine ⟨?_, hle⟩
  intro h0
  rw [free_nil h0] at hle
  exact absurd hle (by decide)

theorem Idle.settle {c : Ctl} {k : Blk} {b : ℕ} (h : Idle G c) (hb : b ∈ G.blks) (hne : k.slots ≠ [])
    (hle : k.free ≤ kvItemHdrSize) : Idle G (settle k b c) := by
  have hi : (c.blkDetail b).flags.inuse = false := h.inuse b hb
  have hf : (c.blkDetail b).flags.fresh = false := h.fresh b hb
  have hset : Kv.settle k b c = kvBlkResetInuse b (kvBlkFreeszSet b c 0) := by
    rw [Kv.settle, if_neg hne, if_neg (by omega)]
  have hdet : ∀ y, ((Kv.settle k b c).blkDetail y).flags.inuse = (c.blkDetail y).flags.inuse ∧
      ((Kv.settle k b c).blkDetail y).flags.fresh = (c.blkDetail y).flags.fresh := by
    intro y
    rw [hset, detail_kvBlkResetInuse, detail_kvBlkFreeszSet]
    by_cases hy : y = b
    · subst hy
      simp [hi]
    · rw [Function.update_of_ne hy, Function.update_of_ne hy]
      exact ⟨rfl, rfl⟩
  have hnum : (Kv.settle k b c).numInuse = c.numInuse ∧ (Kv.settle k b c).numFresh = c.numFresh := by
    rw [hset, kvBlkResetInuse_eq]
    simp [kvBlkFlagsSet, kvBlkFreeszSet, kvBlkFlagsGet, hi]
  refine ⟨hnum.1.trans h.numInuse, hnum.2.trans h.numFresh, ?_, ?_⟩
  · intro y hy
    rw [kvBlkIsInuse, kvBlkFlagsGet, (hdet y).1]
    exact h.inuse y hy
  · intro y hy
    rw [kvBlkIsFresh, kvBlkFlagsGet, (hdet y).2]
    exact h.fresh y hy

theorem Idle.settles {c c' : Ctl} (hs : Settles G L c c') (h : Idle G c)
    (hfull : ∀ b ∈ G.blks, (L b).slots ≠ [] ∧ (L b).free ≤ kvItemHdrSize) : Idle G c' := by
  induction hs with
  | refl c => exact h
  | step hb _ _ ih => exact ih (h.settle hb (hfull _ hb).1 (hfull _ hb).2)

/-- A lookup leaves the store running. -/
theorem Running.still (h : Running G x m s) (hd : Dev.Still s.dev t.dev)
    (hc : Settles G (blksOf s.dev.flash) s.ctl t.ctl) : Running G x m t := by
  apply (h.core.still hd hc).running h.legal h.holds
  rcases h.ready with hw | hidle
  · left
    rw [hc.workspace]
    exact hw
  · right
    exact Idle.settles hc hidle fun b hb => hidle.full h.core hb

/-! ### Lookups -/

theorem Running.wp_lnKvGet (h : Running G x m s) (hd : E.DrvOk) (hm : E.MallocOk .find) (hk : key.length < 0xFF)
    (n : ℕ) : wp (lnKvGet G E key n) (fun r t => Running G x m t ∧
      r = match m key with
        | none => (.notExist, [])
        | some v => if n < v.length then (.bufTooShort, []) else (.none, v)) s := by
  apply wp.mono (Kv.wp_lnKvGet hd hm h.core h.holds hk n)
  rintro r t ⟨hst, hset, hr⟩
  exact ⟨h.still hst hset, hr⟩

theorem Running.wp_lnKvHasKey (h : Running G x m s) (hd : E.DrvOk) (hm : E.MallocOk .find) (hk : key.length < 0xFF) :
    wp (lnKvHasKey G E key) (fun r t => Running G x m t ∧ r = (m key).isSome) s := by
  apply wp.mono (Kv.wp_lnKvHasKey hd hm h.core h.holds hk)
  rintro r t ⟨hst, hset, hr⟩
  exact ⟨h.still hst hset, hr⟩

/-! ### Deleting -/

theorem Idle.del {c c' : Ctl} (h : Idle G c) (hd : DelCtl c c') : Idle G c' := by
  refine ⟨hd.numInuse.trans h.numInuse, hd.numFresh.trans h.numFresh, ?_, ?_⟩
  · intro b hb
    rw [hd.inuse]
    exact h.inuse b hb
  · intro b hb
    rw [hd.fresh]
    exact h.fresh b hb

theorem Running.wp_lnKvDel (h : Running G x m s) (hd : E.DrvOk) (hm : E.MallocOk .find) (hk : key.length < 0xFF) :
    wp (lnKvDel G E key) (fun r t => Running G x (Function.update m key none) t ∧
      r = if (m key).isSome then .none else .notExist) s := by
  apply wp.mono (Kv.wp_lnKvDel hd h.core hk)
  rintro r t ⟨s₁, hst, hset, ⟨rfl, rfl, hno⟩ | ⟨rfl, it, item, L', hit, rfl, hdel⟩⟩
  · have hnone : m key = none := by
      rcases hno with hno | hbad
      · exact h.holds.none_iff.mpr hno
      · exact absurd hm hbad
    refine ⟨?_, by simp [hnone]⟩
    rw [← hnone, Function.update_eq_self]
    exact h.still hst hset
  · rw [h.holds.get hit]
    refine ⟨?_, rfl⟩
    have hrun := h.still hst hset
    apply hdel.core.running (hdel.last.edits.allLegal h.legal) (hdel.holds h.holds)
    rcases hrun.ready with hw | hidle
    · left
      rw [hdel.ctl.workspace]
      exact hw
    · right
      exact hidle.del hdel.ctl

/-! ### Setting -/

/-- Without a block to write to a set fails, unless the value is stored already. -/
theorem wp_lnKvSet_idle (hd : E.DrvOk) (h : Core G x L s) (hidle : Idle G s.ctl) (hk : key.length < 0xFF)
    (hv : value.length < 0xFFFF) :
    wp (lnKvSet G E key value) (fun r t => Dev.Still s.dev t.dev ∧ Settles G L s.ctl t.ctl ∧
      (r = .insufficientSpace ∨ r = .none ∧ ∃ it ∈ allItems G L, it.key = key ∧ it.val = value)) s := by
  have hsave : ∀ (t : St) (prev : Option KvItem), Dev.Still s.dev t.dev → Settles G L s.ctl t.ctl →
      wp (kvItemSave G E key value prev) (fun r u => r.1 = .insufficientSpace ∧ u = t) t := by
    intro t prev hst hset
    have hi := Idle.settles hset hidle fun b hb => hidle.full h hb
    unfold kvItemSave
    apply wp.bind (P := fun r u => r = kvBlkInvalid ∧ u = t)
    · unfold kvBlkSearchSuitable
      apply wp_getCtl
      apply wp.ite
      · intro _
        exact wp.pure ⟨rfl, rfl⟩
      · intro hno
        simp [kvNoWriteableBlk, hi.numInuse, hi.numFresh] at hno
    rintro r u ⟨rfl, rfl⟩
    apply wp.ite
    · intro _
      exact wp.pure ⟨rfl, rfl⟩
    · intro hno
      exact absurd rfl hno
  unfold lnKvSet
  apply wp.ite
  · intro hno
    omega
  intro _
  apply wp.bind (wp_find hd h key)
  rintro r t ⟨hst, hset, ⟨it, item, rfl, hat, hkey⟩ | ⟨rfl, -⟩⟩
  · show wp (kvItemUpdate G E item key value) _ t
    unfold kvItemUpdate
    apply wp.ite
    · intro hmatch
      exact wp.pure ⟨hst, hset, .inr ⟨rfl, it, hat.mem, hkey, (kvItemValueIsMatch_iff hat value).mp hmatch⟩⟩
    intro _
    apply wp.bind (hsave t (some item) hst hset)
    rintro ⟨e, prev⟩ u ⟨he, rfl⟩
    simp only at he
    subst he
    exact wp.pure ⟨hst, hset, .inl rfl⟩
  · apply wp.bind (hsave t none hst hset)
    rintro ⟨e, prev⟩ u ⟨he, rfl⟩
    exact wp.pure ⟨hst, hset, .inl he⟩

/-- What a set asks of a running store. -/
abbrev SetOk (G : Geo) (E : Env) (tight : Bool) (s : St) (key value : Bytes) : Prop :=
  SetCond G E tight (blksOf s.dev.flash) key value (kvItemFind G E key s).2.ctl

theorem Running.wp_lnKvSet (h : Running G x m s) (hd : E.DrvOk) (hc : SetOk G E x s key value) :
    wp (lnKvSet G E key value) (fun r t =>
      Running G x (if r = .none then Function.update m key (some value) else m) t) s := by
  rcases h.ready with hw | hidle
  · have hinv : Inv G x (blksOf s.dev.flash) s := ⟨h.core, hw⟩
    apply wp.mono (Kv.wp_lnKvSet hd hinv h.holds hc)
    rintro r t ⟨s₁, L', hst, hset, hres, -⟩
    have hinv₁ := hinv.still hst hset
    have hinv' := hres.inv hinv₁
    exact hinv'.running ((hres.edits hinv₁ hc.fits).allLegal h.legal) (hres.holds hinv₁ hc.fits h.holds) (.inl hinv'.ws)
  · have hk := hc.fits.key_lt
    have hle := hc.fits.size_le
    have hv : value.length < 0xFFFF := by
      simp only [kvItemSize, kvItemHdrSize, kvBlkFreshSize, kvBlkSize, kvBlkHdrSize] at hle
      omega
    apply wp.mono (wp_lnKvSet_idle hd h.core hidle hk hv)
    rintro r t ⟨hst, hset, rfl | ⟨rfl, it, hit, rfl, rfl⟩⟩
    · rw [if_neg (by decide)]
      exact h.still hst hset
    · rw [if_pos rfl, ← h.holds.get hit, Function.update_eq_self]
      exact h.still hst hset

/-! ### Starting up -/

theorem mem_of_split {α : Type} {pre pre' post post' : List α} {a a' : α} (h : pre ++ a :: post = pre' ++ a' :: post')
    (hne : pre ≠ pre') : a' ∈ pre ++ post := by
  rcases List.append_eq_append_iff.mp h with ⟨l, rfl, hl⟩ | ⟨l, rfl, hl⟩
  · cases l with
    | nil => simp at hne
    | cons y l =>
      simp only [List.cons_append, List.cons.injEq] at hl
      simp [hl.2]
  · cases l with
    | nil => simp at hne
    | cons y l =>
      simp only [List.cons_append, List.cons.injEq] at hl
      simp [hl.1]

/-- No two live items have the same key. -/
theorem LiveAt.unique {p p' : ℕ} {it it' : Item} (hm : Holds G L m) (h : LiveAt G L p it) (h' : LiveAt G L p' it')
    (hk : it.key = it'.key) : p = p' := by
  obtain ⟨b, hb, pre, post, hs, rfl⟩ := h
  obtain ⟨b', hb', pre', post', hs', rfl⟩ := h'
  have hkeyed := hm.perm (allItems_discardSlot hb hs).symm
  have hnd := hkeyed.nodup
  rw [List.map_cons, List.nodup_cons] at hnd
  by_contra hne
  apply hnd.1
  rw [hk]
  apply List.mem_map_of_mem
  rw [mem_allItems]
  refine ⟨b', hb', ?_⟩
  by_cases hbb : b' = b
  · subst hbb
    rw [hs] at hs'
    have hpre : pre ≠ pre' := by
      rintro rfl
      exact hne rfl
    have hmem := mem_of_split hs' hpre
    rw [discardSlot, Function.update_self]
    simp only [List.mem_append, List.mem_cons] at hmem ⊢
    rcases hmem with hmem | hmem
    · exact .inl hmem
    · exact .inr (.inr hmem)
  · rw [discardSlot, Function.update_of_ne hbb, hs']
    simp

/-- The previous position of no live item shows a live item with its key. -/
def Quiet (G : Geo) (f : Flash) : Prop :=
  ∀ pos it, LiveAt G (blksOf f) pos it → Updated it pos → ¬LooksLive f it.prev it.key

theorem not_bootStep {f' : Flash} {L' : ℕ → Blk} (hsane : ∀ b ∈ G.blks, (L b).Sane) (hl : AllLegal G L)
    (hm : Holds G L m) : ¬BootStep G f L f' L' := by
  intro hstep
  cases hstep with
  | @broken b pre post sl hb hs hbr =>
    rw [hl b hb sl (by simp [hs])] at hbr
    contradiction
  | @torn b pre post it hb hs hsum => exact hsum ((hsane b hb).sum it (Blk.mem_liveItems.mpr (by simp [hs])))
  | older hb hs hat hu hp hk => exact hu.prev_pos (hp.trans (LiveAt.unique hm ⟨_, hb, _, _, hs, rfl⟩ hat hk))
  | @erase b hb he =>
    have hfmt := (hsane b hb).fmt
    rw [he] at hfmt
    contradiction
  | @format b hb he =>
    have hfmt := (hsane b hb).fmt
    rw [he] at hfmt
    contradiction

/-- The scan of a store that was not interrupted writes nothing. -/
theorem Stored.boots {f' : Flash} (h : Stored G m f) (hb : Boots G f (blksOf f) f' L) : f' = f ∧ L = blksOf f := by
  induction hb with
  | refl => exact ⟨rfl, rfl⟩
  | tail _ hstep ih =>
    rw [ih.1, ih.2] at hstep
    exact absurd hstep (not_bootStep h.sane h.legal h.holds)

theorem Stored.bootHyp (h : Stored G m f) (hq : Quiet G f) (hd : E.DrvOk) (hm : E.MallocOk .build) :
    BootHyp G E f (blksOf f) := by
  refine ⟨hd, hm, h.rep, ?_, ?_⟩
  · intro b hb hfmt
    rw [(h.sane b hb).fmt] at hfmt
    contradiction
  · intro f' L' hboots
    obtain ⟨rfl, rfl⟩ := h.boots hboots
    intro pos it hl hu hlook
    exact absurd hlook (hq pos it hl hu)

theorem Stored.plain (h : Stored G m f) : ∀ b ∈ G.blks, (blksOf f b).Plain :=
  fun b hb => ⟨(h.sane b hb).src, (h.sane b hb).done⟩

theorem allItems_tried {c : Ctl} (hone : c.numFresh = 1 → OnlyFresh G c (kvBlkGetAFresh G c))
    (he : ∀ b ∈ G.blks, kvBlkIsFresh b c = true → (L b).slots = []) :
    (allItems G (tried G L c)).Perm (allItems G L) ∧ Edits G L (tried G L c) := by
  unfold tried
  split_ifs with hcond
  · have honly := hone hcond.2
    cases hd : dirtyBlks G L with
    | nil => exact ⟨List.Perm.refl _, .refl⟩
    | cons src rest =>
      have hmem := mem_dirtyBlks.mp (show src ∈ dirtyBlks G L by simp [hd])
      have hemp := he _ honly.mem honly.fresh
      have hne : src ≠ kvBlkGetAFresh G c := by
        rintro rfl
        exact slots_of_hasDisc hmem.2 hemp
      exact ⟨allItems_collect hmem.1 honly.mem hne hemp, .collect .refl hmem.1 honly.mem hne hemp⟩
  · exact ⟨List.Perm.refl _, .refl⟩

/-- What an init leaves is a running store with the items that the scan left. -/
theorem Inited.running {u : St} {r : KvErr} {L₀ : ℕ → Blk} (h : Inited G x s L₀ L u r t) (hl : AllLegal G L)
    (hm : Holds G L m) : Running G x m t ∧ (r = .none ∨ r = .noWriteableBlk) := by
  have htr := allItems_tried (fun h1 => h.core.getAFresh h1) fun b hb => h.core.idx.fresh_empty hb
  have hrun : ∀ hw : t.ctl.workspace ∈ G.blks ∨ Idle G t.ctl, Running G x m t :=
    fun hw => h.located.core.running (htr.2.allLegal hl) (hm.perm htr.1) hw
  rcases h.located.ws with ⟨hr, hw⟩ | ⟨hr, hidle, -⟩
  · exact ⟨hrun (.inl hw), .inl hr⟩
  · exact ⟨hrun (.inr hidle), .inr hr⟩

/-- If all blocks with items are full, the first with discarded slots has a live item. -/
def TryLive (G : Geo) (L : ℕ → Blk) : Prop :=
  AllFull G L → ∀ src rest, dirtyBlks G L = src :: rest → (L src).liveSlots ≠ []

theorem Stored.wp_lnKvInit (h : Stored G m s.dev.flash) (hq : Quiet G s.dev.flash) (hd : E.DrvOk)
    (hb : E.MallocOk .build) (hc : E.MallocOk .ctl) (hg : E.MallocOk .gc)
    (hlive : x = true → TryLive G (blksOf s.dev.flash)) :
    wp (lnKvInit G E) (fun r t => Running G x m t ∧ (r = .none ∨ r = .noWriteableBlk) ∧
      ∃ u, u.dev.flash = s.dev.flash ∧ Inited G x s (blksOf s.dev.flash) (blksOf s.dev.flash) u r t) s := by
  have hlive' : x = true → ∀ f L, Boots G s.dev.flash (blksOf s.dev.flash) f L → AllFull G L →
      ∀ src rest, dirtyBlks G L = src :: rest → (L src).liveSlots ≠ [] := by
    intro hx f L hboots
    obtain ⟨-, rfl⟩ := h.boots hboots
    exact hlive hx
  apply wp.mono (wp_lnKvInit_plain (h.bootHyp hq hd hb) hc hg h.plain hlive')
  rintro r t ⟨L, u, hin⟩
  obtain ⟨scan, hscan⟩ := hin.scan
  obtain ⟨hf, rfl⟩ := h.boots hscan.boot.boots
  obtain ⟨hrun, hr⟩ := hin.running h.legal h.holds
  exact ⟨hrun, hr, u, hf, hin⟩

/-! ### The erased area -/

/-- Every byte of the area is erased. -/
def AreaErased (G : Geo) (f : Flash) : Prop := ∀ b ∈ G.blks, readBytes f b kvBlkSize = blank kvBlkSize

theorem AreaErased.rep (h : AreaErased G f) : Rep G f fun _ => .erased := by
  intro b hb
  exact ⟨(h b hb).trans Blk.image_erased.symm, trivial⟩

theorem slots_of_boots {f' : Flash} (h : Boots G f (fun _ => .erased) f' L) (b : ℕ) : (L b).slots = [] :=
  (h.marks.nil_iff b).mpr rfl

theorem AreaErased.bootHyp (h : AreaErased G f) (hd : E.DrvOk) (hm : E.MallocOk .build) :
    BootHyp G E f fun _ => .erased := by
  refine ⟨hd, hm, h.rep, fun _ _ _ => rfl, ?_⟩
  rintro f' L' hboots pos it ⟨b, hb, pre, post, hs, -⟩
  rw [slots_of_boots hboots b] at hs
  simp at hs

theorem allItems_nil (h : ∀ b ∈ G.blks, (L b).slots = []) : allItems G L = [] := by
  unfold allItems
  rw [List.flatMap_eq_nil_iff]
  intro b hb
  simp [Blk.liveItems, Blk.liveSlots, h b hb]

theorem AreaErased.wp_lnKvInit (h : AreaErased G s.dev.flash) (hd : E.DrvOk) (hb : E.MallocOk .build) (hc : E.MallocOk .ctl)
    (hg : E.MallocOk .gc) :
    wp (lnKvInit G E) (fun r t => Running G true (fun _ => none) t ∧ r = .none ∧ t.ctl.numFresh = G.blocks) s := by
  have hdirty : ∀ f L, Boots G s.dev.flash (fun _ => .erased) f L → dirtyBlks G L = [] := by
    intro f L hboots
    unfold dirtyBlks
    rw [List.filter_eq_nil_iff]
    intro b hb
    simp [hasDisc_nil (slots_of_boots hboots b)]
  apply wp.mono (wp_lnKvInit_plain (x := true) (h.bootHyp hd hb) hc hg (fun _ _ => ⟨rfl, by simp [Blk.erased]⟩) ?_)
  · rintro r t ⟨L, u, hin⟩
    obtain ⟨scan, hscan⟩ := hin.scan
    have hslots := slots_of_boots hscan.boot.boots
    have hl : AllLegal G L := by
      intro b _ sl hsl
      rw [hslots b] at hsl
      simp at hsl
    have hm : Holds G L fun _ => none := by
      rw [Holds, allItems_nil fun b _ => hslots b]
      exact .nil
    obtain ⟨hrun, -⟩ := hin.running hl hm
    have htr : tried G L u.ctl = L := by
      unfold tried
      rw [hdirty _ _ hscan.boot.boots]
      simp
    have hnum : t.ctl.numFresh = G.blocks := by
      have hcore := hin.located.core
      rw [htr] at hcore
      rw [hcore.idx.counts.fresh, numFlagged, List.countP_eq_length.mpr]
      · simp [Geo.blks]
      · intro b hb
        exact hcore.idx.empty rfl b hb (hslots b)
    refine ⟨hrun, ?_, hnum⟩
    rcases hin.located.ws with ⟨hr, -⟩ | ⟨-, hidle, -⟩
    · exact hr
    · have hpos := G.pos
      rw [hidle.numFresh] at hnum
      omega
  · intro _ f L hboots _ src rest hs
    rw [hdirty f L hboots] at hs
    simp at hs

end Ln882x.Kv
