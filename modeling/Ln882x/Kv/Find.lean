import Ln882x.Kv.Invariant

/-! Looking for an item. `kv_item_find` and `kv_item_find_new_copy` walk the
blocks with walkers that read and compare. On a running store they return the
position of a matching live item, and nothing only if there is none or an
allocation failed. The flash stays as it is; the index may be settled. -/

namespace Ln882x.Kv

open Nor

/-- The RAM copy of an item at a slot. -/
def found (b : ℕ) (pre : List Slot) (it : Item) : KvItem := ⟨it.slot.hdr, slotAddr b pre, it.body⟩

/-- A walker that reads items and stops at one with a property. -/
def Looks (G : Geo) (E : Env) (ph : Phase) (p : Item → Prop) (walker : Walker) : Prop :=
  ∀ (s : St) (L : ℕ → Blk) (b : ℕ) (pre : List Slot) (it : Item) (post : List Slot),
    Rep G s.dev.flash L → b ∈ G.blks → (L b).slots = pre ++ it.slot :: post →
    wp (walker ⟨it.slot.hdr, slotAddr b pre, []⟩) (fun r t => Same s t ∧
      (r = (.none, found b pre it) ∧ p it ∨ r.1 = .nextLoop ∧ ¬p it ∨ r.1 = .outOfMemory ∧ ¬E.MallocOk ph)) s

variable {G : Geo} {E : Env} {x : Bool} {L : ℕ → Blk} {b : ℕ} {s : St} {ph : Phase}

/-- Reading the body of an item of the flash. -/
theorem wp_kvItemBodyRead_slot (hd : E.DrvOk) (hrep : Rep G s.dev.flash L) (hb : b ∈ G.blks) {pre post : List Slot}
    {it : Item} (hs : (L b).slots = pre ++ it.slot :: post) (item : KvItem) (hh : item.hdr = it.slot.hdr)
    (hp : item.pos = slotAddr b pre) :
    wp (kvItemBodyRead E ph item)
      (fun r t => Same s t ∧ (r = .ok it.body ∨ r = .error .outOfMemory ∧ ¬E.MallocOk ph)) s := by
  refine (wp_kvItemBodyRead hd ph item).mono fun r t ⟨hst, hr⟩ => ⟨hst, ?_⟩
  have hlen : item.hdr.kLen + item.hdr.vLen = it.body.length := by
    rw [hh, Item.length_body]
    rfl
  have hread := hrep.read_body hb hs rfl (n := it.body.length) (le_refl _)
  rw [hp, hlen] at hr
  rwa [hread, Item.slot, List.take_length] at hr

theorem looks_kvItemDoFetch (hd : E.DrvOk) (key : Bytes) :
    Looks G E .find (fun it => it.key = key) (kvItemDoFetch E key) := by
  intro s L b pre it post hrep hb hs
  unfold kvItemDoFetch
  refine wp.ite (fun hne => ?_) fun heq => ?_
  · exact ⟨.refl s, .inr (.inl ⟨rfl, fun h => hne (by rw [← h]; rfl)⟩)⟩
  · have hlen : key.length = it.key.length := by simpa [Item.slot, Slot.hdr] using heq
    refine (wp_kvItemBodyRead_slot hd hrep hb hs _ rfl rfl).bind ?_
    rintro r t ⟨hst, rfl | ⟨rfl, hm⟩⟩
    · have htake : it.body.take it.slot.hdr.kLen = it.key := by simp [Item.body, Item.slot, Slot.hdr]
      refine wp.ite (fun h => ?_) fun h => ?_
      · rw [htake] at h
        exact ⟨hst, .inl ⟨rfl, h⟩⟩
      · rw [htake] at h
        exact ⟨hst, .inr (.inl ⟨rfl, h⟩)⟩
    · exact ⟨hst, .inr (.inr ⟨rfl, hm⟩)⟩

theorem looks_kvItemDoFetchNewCopy (hd : E.DrvOk) (dst : KvItem) :
    Looks G E .fix (fun it => it.key.length = dst.hdr.kLen ∧ it.val.length = dst.hdr.vLen ∧ it.body = dst.body)
      (kvItemDoFetchNewCopy E dst) := by
  intro s L b pre it post hrep hb hs
  unfold kvItemDoFetchNewCopy
  refine wp.ite (fun hne => ?_) fun heq => ?_
  · refine ⟨.refl s, .inr (.inl ⟨rfl, fun ⟨h1, h2, _⟩ => ?_⟩)⟩
    rcases hne with hne | hne
    · exact hne h1
    · exact hne h2
  · simp only [not_or, not_not] at heq
    refine (wp_kvItemBodyRead_slot hd hrep hb hs _ rfl rfl).bind fun r t ⟨hst, hr⟩ => ?_
    rcases hr with rfl | ⟨rfl, hm⟩
    · refine wp.ite (fun h => ?_) fun h => ?_
      · exact ⟨hst, .inl ⟨rfl, heq.1, heq.2, h⟩⟩
      · exact ⟨hst, .inr (.inl ⟨rfl, fun hp => h hp.2.2⟩)⟩
    · exact ⟨hst, .inr (.inr ⟨rfl, hm⟩)⟩

/-! ### One block -/

/-- Discarding what is discarded changes nothing. -/
theorem discard_still (hrep : Rep G s.dev.flash L) (hb : b ∈ G.blks) {pre post : List Slot} {sl : Slot}
    (hs : (L b).slots = pre ++ sl :: post) (hd : sl.disc = true) :
    (Op.program (slotAddr b pre) (leBytes 8 kvItemDiscarded)).apply s.dev.flash = s.dev.flash := by
  have hr := hrep.read_hdr hb hs
  rw [Slot.hdrImage, List.append_assoc, word, if_pos hd] at hr
  apply program_same
  rw [length_leBytes]
  exact readBytes_head hr (by simp)

/-- How a search of one block ends. -/
def searched (L : ℕ → Blk) (E : Env) (ph : Phase) (p : Item → Prop) (b : ℕ) (c c' : Ctl)
    (r : KvErr × Option KvItem) : Prop :=
  (∃ pre it post, (L b).slots = pre ++ it.slot :: post ∧ p it ∧ r = (.none, some (found b pre it)) ∧ c' = c) ∨
    (r = (.none, none) ∧ (∀ it ∈ (L b).liveItems, ¬p it) ∧ c' = settle (L b) b c) ∨
    (r = (.outOfMemory, none) ∧ ¬E.MallocOk ph ∧ c' = c)

/-- A lookup in a block with its broken slots discarded and its dirty flag set if need be. -/
theorem wp_lookup_block {p : Item → Prop} {walker : Walker} (hd : E.DrvOk) (hw : Looks G E ph p walker)
    (hflash : Rep G s.dev.flash L) (hb : b ∈ G.blks) (hbroken : ∀ sl ∈ (L b).slots, sl.legal = false → sl.disc = true)
    (hflag : ∀ sl ∈ (L b).slots, sl.live = false → kvBlkIsDirty b s.ctl = true) :
    wp (kvItemWalkthru G E ph b walker)
      (fun r t => Dev.Still s.dev t.dev ∧ searched L E ph p b s.ctl t.ctl r) s := by
  let I : List Slot → List Slot → St → Prop := fun pre post u =>
    Dev.Still s.dev u.dev ∧ u.ctl = s.ctl ∧ (L b).slots = pre ++ post ∧ ∀ sl ∈ pre, sl.live = true → ¬p sl.it
  let Q : (KvErr × Option KvItem) ⊕ ℕ → St → Prop := fun r u => Dev.Still s.dev u.dev ∧ u.ctl = s.ctl ∧
    ((∃ pre it post, (L b).slots = pre ++ it.slot :: post ∧ p it ∧ r = .inl (.none, some (found b pre it))) ∨
      (r = .inr (slotAddr b (L b).slots) ∧ ∀ it ∈ (L b).liveItems, ¬p it) ∨
      (r = .inl (.outOfMemory, none) ∧ ¬E.MallocOk ph))
  have hrepI : ∀ pre post u, I pre post u → Rep G u.dev.flash L := by
    rintro pre post u ⟨hst, -⟩
    rw [hst.flash]
    exact hflash
  have hdirty : ∀ {pre post : List Slot} {sl : Slot}, (L b).slots = pre ++ sl :: post → sl.live = false →
      kvBlkSetDirty b s.ctl = s.ctl := by
    intro pre post sl hs hl
    exact kvBlkSetDirty_of_dirty (hflag sl (by simp [hs]) hl)
  have hnext : ∀ {pre post : List Slot} {sl : Slot} {u v : St}, I pre (sl :: post) u → Dev.Still u.dev v.dev →
      v.ctl = s.ctl → (sl.live = true → ¬p sl.it) →
      passes b I Q post (.next (slotAddr b pre + sl.size)) v := by
    rintro pre post sl u v ⟨hst, -, hsl, hpre⟩ huv hv hp
    refine ⟨pre ++ [sl], post, slotAddr_snoc _ _ _, rfl, hst.trans huv, hv, by simpa using hsl, fun y hy => ?_⟩
    rcases List.mem_append.mp hy with hy | hy
    · exact hpre y hy
    · rw [List.mem_singleton.mp hy]
      exact hp
  have hround : ∀ pre sl post u, I pre (sl :: post) u →
      wp (kvItemWalkRound G E ph b walker (slotAddr b pre)) (passes b I Q post) u := by
    intro pre sl post u hI
    have hrep := hrepI _ _ _ hI
    obtain ⟨hst, hctl, hsl, hpre⟩ := hI
    refine wp_kvItemWalkRound hd hrep hb hsl (fun t ht hm => ?_) (fun hl t hdev hc => ?_)
      (fun hl hdsc t hdev hc => ?_) fun hl t ht => ?_
    · exact ⟨hst.trans (by rw [ht.dev]; exact .refl _), ht.ctl.trans hctl, .inr (.inr ⟨rfl, hm⟩)⟩
    · have hdsc := hbroken sl (by simp [hsl]) hl
      have hlive : sl.live = false := by simp [Slot.live, hl]
      refine hnext ⟨hst, hctl, hsl, hpre⟩ ?_ ?_ (by simp [hlive])
      · rw [hdev]
        exact .exec (discard_still hrep hb hsl hdsc)
      · rw [hc, hctl, hdirty hsl hlive]
    · have hlive : sl.live = false := by simp [Slot.live, hdsc]
      refine hnext ⟨hst, hctl, hsl, hpre⟩ ?_ ?_ (by simp [hlive])
      · rw [hdev]
        exact .refl _
      · rw [hc, hctl, hdirty hsl hlive]
    · rw [Slot.eq_slot hl] at hsl ⊢
      have hrep' : Rep G t.dev.flash L := by rwa [ht.dev]
      apply (hw t L b pre sl.it post hrep' hb hsl).mono
      rintro r v ⟨hsv, hr⟩
      have hdv : Dev.Still u.dev v.dev := by rw [hsv.dev, ht.dev]; exact .refl _
      have hcv : v.ctl = s.ctl := by rw [hsv.ctl, ht.ctl, hctl]
      unfold afterWalker
      rcases hr with ⟨rfl, hp⟩ | ⟨hr, hp⟩ | ⟨hr, hm⟩
      · rw [if_pos rfl]
        exact ⟨hst.trans hdv, hcv, .inl ⟨pre, sl.it, post, hsl, hp, rfl⟩⟩
      · rw [hr, if_neg (by decide), if_pos rfl]
        exact hnext ⟨hst, hctl, hsl, hpre⟩ hdv hcv fun _ => hp
      · rw [hr, if_neg (by decide), if_neg (by decide)]
        exact ⟨hst.trans hdv, hcv, .inr (.inr ⟨rfl, hm⟩)⟩
  have hok := (hflash b hb).2
  have hlast : ∀ pre u t, I pre [] u → Same u t → Q (.inr (slotAddr b pre)) t := by
    rintro pre u t ⟨hst, hctl, hsl, hpre⟩ hs
    rw [List.append_nil] at hsl
    refine ⟨by rw [hs.dev]; exact hst, hs.ctl.trans hctl, .inr (.inl ⟨by rw [hsl], ?_⟩)⟩
    intro it hit
    rw [Blk.mem_liveItems, hsl] at hit
    exact hpre _ hit rfl
  have hmalloc : ∀ pre u t, I pre [] u → Same u t → ¬E.MallocOk ph → Q (.inl (.outOfMemory, none)) t := by
    rintro pre u t ⟨hst, hctl, -, -⟩ hs hm
    exact ⟨by rw [hs.dev]; exact hst, hs.ctl.trans hctl, .inr (.inr ⟨rfl, hm⟩)⟩
  have hloop := wp_kvItemWalkLoop hd hb (Q := Q) (fun pre post u hI => ⟨L, hrepI pre post u hI, hI.2.2.1⟩) hround
    hlast hmalloc 171 [] (L b).slots s ⟨.refl _, rfl, rfl, by simp⟩ (by have := hok.length_slots; omega)
    (by simp [slotAddr, kvBlkFirstItem, kvBlkEnd, kvBlkHdrSize, kvItemHdrSize, kvBlkSize])
  apply wp_kvItemWalkthru hloop
  · rintro r t ⟨hst, hctl, hr⟩
    refine ⟨hst, ?_⟩
    rcases hr with ⟨pre, it, post, hsl, hp, hr⟩ | ⟨hr, -⟩ | ⟨hr, hm⟩
    · exact .inl ⟨pre, it, post, hsl, hp, Sum.inl.inj hr, hctl⟩
    · cases hr
    · exact .inr (.inr ⟨Sum.inl.inj hr, hm, hctl⟩)
  · rintro cur t ⟨hst, hctl, hr⟩
    rcases hr with ⟨pre, it, post, hsl, hp, hr⟩ | ⟨hr, hp⟩ | ⟨hr, hm⟩
    · cases hr
    · refine ⟨L b, hok, Sum.inr.inj hr, fun u hdev hc => ⟨by rw [hdev]; exact hst, .inr (.inl ⟨rfl, hp, ?_⟩)⟩⟩
      rw [hc, hctl]
    · cases hr

theorem wp_lookup {p : Item → Prop} {walker : Walker} (hd : E.DrvOk) (hw : Looks G E ph p walker)
    (h : Core G x L s) (hb : b ∈ G.blks) :
    wp (kvItemWalkthru G E ph b walker)
      (fun r t => Dev.Still s.dev t.dev ∧ searched L E ph p b s.ctl t.ctl r) s := by
  apply wp_lookup_block hd hw h.rep hb (h.sane b hb).broken
  intro sl hsl hl
  rw [h.idx.dirty_iff hb, Blk.hasDisc, List.any_eq_true]
  exact ⟨sl, hsl, by simp [hl]⟩

/-! ### All blocks -/

/-- How a search of some blocks ends. -/
def Searched (L : ℕ → Blk) (E : Env) (ph : Phase) (p : Item → Prop) (bs : List ℕ) : Option KvItem → Prop
  | some item => ∃ b ∈ bs, ∃ pre it post, (L b).slots = pre ++ it.slot :: post ∧ p it ∧ item = found b pre it
  | none => (∀ b ∈ bs, ∀ it ∈ (L b).liveItems, ¬p it) ∨ ¬E.MallocOk ph

theorem wp_kvItemSearch {p : Item → Prop} {f : ℕ → K (Option KvItem)} (bs : List ℕ) (hbs : ∀ b ∈ bs, b ∈ G.blks)
    (hf : ∀ b ∈ bs, ∀ s, Core G x L s → wp (f b) (fun r t => Dev.Still s.dev t.dev ∧
      ∃ e, searched L E ph p b s.ctl t.ctl (e, r)) s) (h : Core G x L s) :
    wp (kvItemSearch f bs) (fun r t => Dev.Still s.dev t.dev ∧ Settles G L s.ctl t.ctl ∧
      Searched L E ph p bs r) s := by
  induction bs generalizing s with
  | nil => exact ⟨.refl _, .refl _, .inl (by simp)⟩
  | cons b bs ih =>
    have hb := hbs b (by simp)
    have hstep : ∀ t : St, Core G x L t → Dev.Still s.dev t.dev → Settles G L s.ctl t.ctl →
        ((∀ it ∈ (L b).liveItems, ¬p it) ∨ ¬E.MallocOk ph) →
        wp (kvItemSearch f bs) (fun r t => Dev.Still s.dev t.dev ∧ Settles G L s.ctl t.ctl ∧
          Searched L E ph p (b :: bs) r) t := by
      intro t ht hst hset hnone
      apply (ih (fun y hy => hbs y (by simp [hy])) (fun y hy => hf y (by simp [hy])) ht).mono
      rintro r u ⟨hdu, hsu, hr⟩
      refine ⟨hst.trans hdu, hset.trans hsu, ?_⟩
      cases r with
      | some item =>
        obtain ⟨y, hy, hrest⟩ := hr
        exact ⟨y, by simp [hy], hrest⟩
      | none =>
        rcases hnone with hnone | hm
        · rcases hr with hr | hm
          · refine .inl fun y hy => ?_
            rcases List.mem_cons.mp hy with rfl | hy
            · exact hnone
            · exact hr y hy
          · exact .inr hm
        · exact .inr hm
    refine wp_getCtl ?_
    refine wp.ite (fun hskip => ?_) fun hwalk => ?_
    · have hbad := (h.idx.blk b hb).bad
      have hfresh : kvBlkIsFresh b s.ctl = true := by
        simpa [kvBlkIsBad, kvBlkFlagsGet, hbad] using hskip
      refine hstep s h (.refl _) (.refl _) (.inl ?_)
      rw [Blk.liveItems, Blk.liveSlots, h.idx.fresh_empty hb hfresh]
      simp
    · have hnf : kvBlkIsFresh b s.ctl = false := by
        simp only [Bool.or_eq_true, not_or, Bool.not_eq_true] at hwalk
        exact hwalk.2
      refine (hf b (by simp) s h).bind ?_
      rintro r t ⟨hst, e, hr⟩
      rcases hr with ⟨pre, it, post, hsl, hp, hr, hc⟩ | ⟨hr, hp, hc⟩ | ⟨hr, hm, hc⟩
      · obtain ⟨rfl, rfl⟩ := Prod.mk.inj hr
        refine wp.pure ⟨hst, by rw [hc]; exact .refl _, b, by simp, pre, it, post, hsl, hp, rfl⟩
      · obtain ⟨rfl, rfl⟩ := Prod.mk.inj hr
        have hset : Settles G L s.ctl t.ctl := by
          rw [hc]
          exact .step hb hnf (.refl _)
        exact hstep t (h.still hst hset) hst hset (.inl hp)
      · obtain ⟨rfl, rfl⟩ := Prod.mk.inj hr
        have hset : Settles G L s.ctl t.ctl := by
          rw [hc]
          exact .refl _
        exact hstep t (h.still hst hset) hst hset (.inr hm)

theorem wp_kvItemFind (hd : E.DrvOk) (key : Bytes) (h : Core G x L s) :
    wp (kvItemFind G E key) (fun r t => Dev.Still s.dev t.dev ∧ Settles G L s.ctl t.ctl ∧
      Searched L E .find (fun it => it.key = key) G.blks r) s := by
  refine wp_kvItemSearch G.blks (fun _ hb => hb) (fun b hb s h => ?_) h
  refine (wp_lookup hd (looks_kvItemDoFetch hd key) h hb).bind fun r t ⟨hst, hr⟩ => ?_
  rcases id hr with ⟨pre, it, post, -, -, rfl, -⟩ | ⟨rfl, -⟩ | ⟨rfl, -⟩
  · exact wp.pure ⟨hst, .none, hr⟩
  · exact wp.pure ⟨hst, .none, hr⟩
  · exact wp.pure ⟨hst, .outOfMemory, hr⟩

theorem wp_kvItemFindNewCopy (hd : E.DrvOk) (item : KvItem) (h : Core G x L s) :
    wp (kvItemFindNewCopy G E item) (fun r t => Dev.Still s.dev t.dev ∧ Settles G L s.ctl t.ctl ∧
      Searched L E .fix (fun it => it.key.length = item.hdr.kLen ∧ it.val.length = item.hdr.vLen ∧
        it.body = item.body) G.blks r) s := by
  refine wp_kvItemSearch G.blks (fun _ hb => hb) (fun b hb s h => ?_) h
  refine (wp_lookup hd (looks_kvItemDoFetchNewCopy hd item) h hb).bind fun r t ⟨hst, hr⟩ => ?_
  rcases id hr with ⟨pre, it, post, -, -, rfl, -⟩ | ⟨rfl, -⟩ | ⟨rfl, -⟩
  · exact wp.pure ⟨hst, .none, hr⟩
  · exact wp.pure ⟨hst, .none, hr⟩
  · exact wp.pure ⟨hst, .outOfMemory, hr⟩

end Ln882x.Kv
