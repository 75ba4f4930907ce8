import Ln882x.Kv.Save

/-! The public calls on a running store, for keys and values that fit a block. -/

namespace Ln882x.Kv

open Nor

variable {G : Geo} {E : Env} {x : Bool} {L : ℕ → Blk} {s : St} {m : Bytes → Option Bytes} {key value : Bytes}

/-! ### Looking up a key -/

theorem wp_find (hd : E.DrvOk) (h : Core G x L s) (key : Bytes) :
    wp (kvItemFind G E key) (fun r t => Dev.Still s.dev t.dev ∧ Settles G L s.ctl t.ctl ∧
      ((∃ it item, r = some item ∧ At G L it item ∧ it.key = key) ∨
        (r = none ∧ ((∀ it ∈ allItems G L, it.key ≠ key) ∨ ¬E.MallocOk .find)))) s := by
  apply wp.mono (wp_kvItemFind hd key h)
  rintro r t ⟨hst, hset, hr⟩
  refine ⟨hst, hset, ?_⟩
  cases r with
  | some item =>
    obtain ⟨b, hb, pre, it, post, hs, hk, rfl⟩ := hr
    exact .inl ⟨it, _, rfl, ⟨b, hb, pre, post, hs, rfl⟩, hk⟩
  | none =>
    rcases hr with hall | hbad
    · refine .inr ⟨rfl, .inl ?_⟩
      intro it hit
      obtain ⟨b, hb, hsl⟩ := mem_allItems.mp hit
      exact hall b hb it (Blk.mem_liveItems.mpr hsl)
    · exact .inr ⟨rfl, .inr hbad⟩

theorem found_value {it : Item} {item : KvItem} (h : At G L it item) :
    item.body.drop item.hdr.kLen = it.val ∧ item.hdr.vLen = it.val.length := by
  obtain ⟨b, hb, pre, post, hs, rfl⟩ := h
  simp [found, Item.slot, Slot.hdr, Item.body]

theorem kvItemValueIsMatch_iff {it : Item} {item : KvItem} (h : At G L it item) (value : Bytes) :
    kvItemValueIsMatch item value = true ↔ it.val = value := by
  obtain ⟨hv, hl⟩ := found_value h
  simp only [kvItemValueIsMatch, hv, hl, decide_eq_true_eq, and_iff_right_iff_imp]
  rintro rfl
  rfl

theorem wp_lnKvGet (hd : E.DrvOk) (hm : E.MallocOk .find) (h : Core G x L s) (hmap : Holds G L m)
    (hk : key.length < 0xFF) (n : ℕ) :
    wp (lnKvGet G E key n) (fun r t => Dev.Still s.dev t.dev ∧ Settles G L s.ctl t.ctl ∧
      r = match m key with
        | none => (.notExist, [])
        | some v => if n < v.length then (.bufTooShort, []) else (.none, v)) s := by
  unfold lnKvGet
  apply wp.ite
  · intro hno
    omega
  intro _
  apply wp.bind (wp_find hd h key)
  rintro r t ⟨hst, hset, ⟨it, item, rfl, hat, rfl⟩ | ⟨rfl, hno⟩⟩
  · obtain ⟨hv, hl⟩ := found_value hat
    rw [hmap.get hat.mem]
    apply wp.ite
    · intro hlt
      rw [hl] at hlt
      exact wp.pure ⟨hst, hset, by simp [hlt]⟩
    · intro hge
      rw [hl] at hge
      exact wp.pure ⟨hst, hset, by simp [hge, hv]⟩
  · rcases hno with hno | hbad
    · rw [hmap.none_iff.mpr hno]
      exact wp.pure ⟨hst, hset, rfl⟩
    · exact absurd hm hbad

theorem wp_lnKvHasKey (hd : E.DrvOk) (hm : E.MallocOk .find) (h : Core G x L s) (hmap : Holds G L m)
    (hk : key.length < 0xFF) :
    wp (lnKvHasKey G E key) (fun r t => Dev.Still s.dev t.dev ∧ Settles G L s.ctl t.ctl ∧ r = (m key).isSome) s := by
  unfold lnKvHasKey
  apply wp.ite
  · intro hno
    omega
  intro _
  apply wp.bind (wp_find hd h key)
  rintro r t ⟨hst, hset, ⟨it, item, rfl, hat, rfl⟩ | ⟨rfl, hno⟩⟩
  · rw [hmap.get hat.mem]
    exact wp.pure ⟨hst, hset, rfl⟩
  · rcases hno with hno | hbad
    · rw [hmap.none_iff.mpr hno]
      exact wp.pure ⟨hst, hset, rfl⟩
    · exact absurd hm hbad

/-! ### Deleting a key -/

theorem wp_lnKvDel (hd : E.DrvOk) (h : Core G x L s) (hk : key.length < 0xFF) :
    wp (lnKvDel G E key) (fun r t => ∃ s₁ : St, Dev.Still s.dev s₁.dev ∧ Settles G L s.ctl s₁.ctl ∧
      ((r = .notExist ∧ t = s₁ ∧ ((∀ it ∈ allItems G L, it.key ≠ key) ∨ ¬E.MallocOk .find)) ∨
        (r = .none ∧ ∃ it item L', it ∈ allItems G L ∧ it.key = key ∧ DelDone G x L s₁ it item L' t))) s := by
  unfold lnKvDel
  apply wp.ite
  · intro hno
    omega
  intro _
  apply wp.bind (wp_find hd h key)
  rintro r t ⟨hst, hset, ⟨it, item, rfl, hat, rfl⟩ | ⟨rfl, hno⟩⟩
  · apply wp.mono (wp_kvItemDelete hd (h.still hst hset) hat)
    rintro r u ⟨rfl, L', hdel⟩
    exact ⟨t, hst, hset, .inr ⟨rfl, it, item, L', hat.mem, rfl, hdel⟩⟩
  · exact wp.pure ⟨t, hst, hset, .inl ⟨rfl, rfl, hno⟩⟩

/-! ### Setting a key -/

section Set
variable (G E x L s key value)

/-- The blocks in which a set saves its item. -/
def roomFor : ℕ → Blk := madeRoom G L s.ctl (kvItemSize key.length value.length)

/-- A set chose `blk`, wrote its item, whose previous position is `p`, and deleted the old one. -/
structure SetDone (old : Option Item) (blk p : ℕ) (L' : ℕ → Blk) (t : St) : Prop where
  inv : Inv G x L' t
  chosen : ∃ s₁ s₂ : St, Chosen G x L s (kvItemSize key.length value.length) blk s₁ ∧
    Dev.Still s₁.dev s₂.dev ∧ Settles G (roomFor G L s key value) s₁.ctl s₂.ctl ∧
    t.ctl.numFresh + (kvBlkIsFresh blk s₂.ctl).toNat = s₂.ctl.numFresh
  perm : match old with
    | none => (allItems G L').Perm (newItem key value p :: allItems G L)
    | some it => it ∈ allItems G L ∧ it.key = key ∧
        (it :: allItems G L').Perm (newItem key value p :: allItems G L)
  fresh : old = none → ∀ it ∈ allItems G L, it.key ≠ key
  edits : Edits G L L'
  slot : (newItem key value p).slot ∈ (L' blk).slots
  freesz : kvBlkFreeszGet blk t.ctl = (L' blk).free
  notFresh : kvBlkIsFresh blk t.ctl = false
  ws : t.ctl.workspace = blk

/-- How a set ends, from the state after its search. -/
inductive SetResult : KvErr → (ℕ → Blk) → St → Prop
  | same {it : Item} : it ∈ allItems G L → it.key = key → it.val = value → SetResult .none L s
  | done {old : Option Item} {blk p : ℕ} {L' : ℕ → Blk} {t : St} : SetDone G x L s key value old blk p L' t →
      SetResult .none L' t
  | failed {blk : ℕ} {e : KvErr} {t u : St} : Chosen G x L s (kvItemSize key.length value.length) blk t →
      Dev.Still t.dev u.dev → Settles G (roomFor G L s key value) t.ctl u.ctl →
      (¬E.MallocOk .fix ∨ ¬E.MallocOk .save) → e ≠ .none → SetResult e (roomFor G L s key value) u
  | full : s.ctl.numFresh = 0 → SetResult .insufficientSpace L s

/-- The blocks between the driver calls of a set. -/
inductive SetStates (c : Ctl) : (ℕ → Blk) → Prop
  | rounds {L' : ℕ → Blk} : RoundStates L (kvBlkNextFresh G c) (gcList G L c (kvItemSize key.length value.length)) L' →
      SetStates c L'
  | writing {old : Option Item} {prev : Option KvItem} {blk p : ℕ} {L' : ℕ → Blk} : blk ∈ G.blks →
      Prev G (madeRoom G L c (kvItemSize key.length value.length)) old prev p → (∀ it ∈ old, it.key = key) →
      (old = none → ∀ it ∈ allItems G L, it.key ≠ key) →
      Writing (madeRoom G L c (kvItemSize key.length value.length)) blk (newItem key value p) L' → SetStates c L'
  | deleting {it : Item} {item : KvItem} {blk : ℕ} {L' : ℕ → Blk} : blk ∈ G.blks →
      At G (madeRoom G L c (kvItemSize key.length value.length)) it item → it.key = key →
      Deleting G (addSlot (madeRoom G L c (kvItemSize key.length value.length)) blk
        (newItem key value item.pos).slot) it item.pos L' → SetStates c L'

/-- What a set asks of the state it starts from and of its allocations; `c` is the index after
the search for the key. -/
structure SetCond (c : Ctl) : Prop where
  fits : Fits key value
  gc : E.MallocOk .gc
  find : E.MallocOk .find ∨ ∀ it ∈ allItems G L, it.key ≠ key
  noAlias : NoAlias G E L c key (kvItemSize key.length value.length)
  live : x = true → ∀ d ∈ gcList G L c (kvItemSize key.length value.length), (L d).liveSlots ≠ []

end Set

theorem At.addSlot {it : Item} {item : KvItem} (h : At G L it item) (b : ℕ) (sl : Slot) :
    At G (addSlot L b sl) it item := by
  obtain ⟨y, hy, pre, post, hs, rfl⟩ := h
  by_cases hyb : y = b
  · subst hyb
    refine ⟨y, hy, pre, post ++ [sl], ?_, rfl⟩
    rw [Kv.addSlot, Function.update_self]
    simp [hs]
  · refine ⟨y, hy, pre, post, ?_, rfl⟩
    rw [Kv.addSlot, Function.update_of_ne hyb]
    exact hs

theorem Deleting.edits {it : Item} {pos : ℕ} {L' : ℕ → Blk} (h : Deleting G L it pos L') : Edits G L L' := by
  cases h with
  | start => exact .refl
  | done hb hs => exact .discard .refl hb hs

/-- Discarding an item keeps every other slot. -/
theorem Deleting.mem {it : Item} {pos b : ℕ} {L' : ℕ → Blk} (h : Deleting G L it pos L') {sl : Slot}
    (hs : sl ∈ (L b).slots) (hne : sl ≠ it.slot) : sl ∈ (L' b).slots := by
  cases h with
  | start => exact hs
  | @done y pre post hy hsl hp =>
    by_cases hb : b = y
    · subst hb
      rw [discardSlot, Function.update_self]
      rw [hsl] at hs
      simp only [List.mem_append, List.mem_cons] at hs ⊢
      rcases hs with hs | rfl | hs
      · exact .inl hs
      · exact absurd rfl hne
      · exact .inr (.inr hs)
    · rw [discardSlot, Function.update_of_ne hb]
      exact hs

section SetSpec
variable (hd : E.DrvOk)
include hd

/-- From the search on: the item is written and the old one deleted. -/
theorem wp_setSave (h : Inv G x L s) (hmap : Holds G L m) (hc : SetCond G E x L key value s.ctl) {old : Option Item}
    {prev : Option KvItem} {p : ℕ} (hprev : Prev G L old prev p) (hold : ∀ it ∈ old, it.key = key) :
    wp (kvItemSave G E key value prev) (SaveResult G E x L s key value old) s :=
  wp_kvItemSave hd hc.fits hc.gc h hmap hc.live hc.noAlias hprev hold

theorem wp_kvItemUpdate (hinv : Inv G x L s) (hmap : Holds G L m) (hc : SetCond G E x L key value s.ctl) {it : Item}
    {item : KvItem} (hat : At G L it item) (hkey : it.key = key) :
    wp (kvItemUpdate G E item key value) (fun r t => ∃ L', SetResult G E x L s key value r L' t ∧
      LSteps G (SetStates G L key value s.ctl) s.dev t.dev) s := by
  have hstill : LSteps G (SetStates G L key value s.ctl) s.dev s.dev :=
    LSteps.still (.refl _) hinv.rep (.rounds .here)
  unfold kvItemUpdate
  apply wp.ite
  · intro hmatch
    exact wp.pure ⟨L, .same hat.mem hkey ((kvItemValueIsMatch_iff hat value).mp hmatch), hstill⟩
  intro hne
  rw [kvItemValueIsMatch_iff hat value] at hne
  apply wp.bind (wp_setSave hd hinv hmap hc (.some hat) (by simpa using hkey))
  intro r w hr
  cases hr with
  | @saved blk p prev t u _ hch hstu hsetu hprev hinvw hsave hsteps =>
    cases hprev with
    | @some _ item' hat' =>
      have hperm₁ := allItems_madeRoom hc.fits.hdr_lt hc.fits.size_le hinv
      have hperm₂ := allItems_addSlot (L := madeRoom G L s.ctl (kvItemSize key.length value.length)) hch.mem
        (newItem key value item'.pos)
      have hedits : Edits G L
          (addSlot (madeRoom G L s.ctl (kvItemSize key.length value.length)) blk (newItem key value item'.pos).slot) :=
        (edits_madeRoom hc.fits.hdr_lt hc.fits.size_le hinv).add hch.mem
      apply wp.mono (wp_kvItemDelete hd hinvw.toCore (hat'.addSlot blk _))
      rintro r v ⟨rfl, L', hdel⟩
      refine ⟨L', .done (?_ : SetDone G x L s key value (some it) blk item'.pos L' _), ?_⟩
      · refine ⟨⟨hdel.core, by rw [hdel.ctl.workspace]; exact hinvw.ws⟩, ⟨t, u, hch, hstu, hsetu, ?_⟩, ⟨hat.mem, hkey, ?_⟩, by simp, hedits.trans hdel.last.edits, ?_, ?_, ?_, ?_⟩
        · rw [hdel.ctl.numFresh]
          exact hsave.numFresh
        · exact hdel.perm.symm.trans (hperm₂.trans (hperm₁.cons _))
        · apply hdel.last.mem
          · rw [addSlot, Function.update_self]
            simp
          · intro heq
            have hval : (newItem key value item'.pos).val = it.val := congrArg (fun sl => sl.it.val) heq
            exact hne hval.symm
        · rw [hdel.ctl.freesz, hsave.freesz, hdel.free]
        · rw [hdel.ctl.fresh]
          exact hsave.fresh
        · rw [hdel.ctl.workspace, hsave.workspace, hsetu.workspace]
          exact hch.ws
      · have h₁ : LSteps G (SetStates G L key value s.ctl) _ _ := hch.steps.mono fun _ => .rounds
        have h₂ : LSteps G (SetStates G L key value s.ctl) t.dev u.dev :=
          LSteps.still hstu hch.inv.rep (.writing hch.mem (.some hat') (by simpa using hkey) (by simp) .start)
        have h₃ : LSteps G (SetStates G L key value s.ctl) _ _ := hsteps.mono fun _ hw =>
          .writing hch.mem (.some hat') (by simpa using hkey) (by simp) hw
        have h₄ : LSteps G (SetStates G L key value s.ctl) _ _ := hdel.steps.mono fun _ hw =>
          .deleting hch.mem hat' hkey hw
        exact ((h₁.trans h₂).trans h₃).trans h₄
  | @failed blk _ t _ hch hstu hsetu hm hne =>
    have h₁ : LSteps G (SetStates G L key value s.ctl) _ _ := hch.steps.mono fun _ => .rounds
    have h₂ : LSteps G (SetStates G L key value s.ctl) t.dev w.dev :=
      LSteps.still hstu hch.inv.rep (.rounds .last)
    obtain ⟨e, prev'⟩ := r
    cases e with
    | none => exact absurd rfl hne
    | _ => exact wp.pure ⟨_, .failed hch hstu hsetu hm (by simp), h₁.trans h₂⟩
  | full h0 he =>
    obtain ⟨e, prev'⟩ := r
    subst he
    exact wp.pure ⟨L, .full h0, hstill⟩

theorem wp_lnKvSet (h : Inv G x L s) (hmap : Holds G L m)
    (hc : SetCond G E x L key value (kvItemFind G E key s).2.ctl) :
    wp (lnKvSet G E key value) (fun r t => ∃ (s₁ : St) (L' : ℕ → Blk), Dev.Still s.dev s₁.dev ∧
      Settles G L s.ctl s₁.ctl ∧ SetResult G E x L s₁ key value r L' t ∧
      LSteps G (SetStates G L key value s₁.ctl) s₁.dev t.dev) s := by
  have hlt := hc.fits.key_lt
  have hle := hc.fits.size_le
  unfold lnKvSet
  apply wp.ite
  · intro hno
    simp only [kvItemSize, kvItemHdrSize, kvBlkFreshSize, kvBlkSize, kvBlkHdrSize] at hle
    omega
  intro _
  apply wp.bind (wp.and (wp_find hd h.toCore key) wp.self)
  rintro r s₁ ⟨⟨hst, hset, ⟨it, item, rfl, hat, hkey⟩ | ⟨rfl, hno⟩⟩, -, hs₁⟩
  · rw [← hs₁] at hc
    apply wp.mono (wp_kvItemUpdate hd (h.still hst hset) hmap hc hat hkey)
    rintro r t ⟨L', hres, hsteps⟩
    exact ⟨s₁, L', hst, hset, hres, hsteps⟩
  · have habs : ∀ it ∈ allItems G L, it.key ≠ key := by
      rcases hno with hno | hbad
      · exact hno
      · rcases hc.find with hok | hno
        · exact absurd hok hbad
        · exact hno
    have hinv := h.still hst hset
    rw [← hs₁] at hc
    have hstill : LSteps G (SetStates G L key value s₁.ctl) s₁.dev s₁.dev :=
      LSteps.still (.refl _) hinv.rep (.rounds .here)
    apply wp.bind (wp_setSave hd hinv hmap hc .none (by simp))
    intro r w hr
    cases hr with
    | @saved blk p prev t u _ hch hstu hsetu hprev hinvw hsave hsteps =>
      cases hprev
      have hperm₁ := allItems_madeRoom hc.fits.hdr_lt hc.fits.size_le hinv
      have hperm₂ := allItems_addSlot (L := madeRoom G L s₁.ctl (kvItemSize key.length value.length)) hch.mem
        (newItem key value 0)
      apply wp.pure
      have hdone : SetDone G x L s₁ key value none blk 0
          (addSlot (madeRoom G L s₁.ctl (kvItemSize key.length value.length)) blk (newItem key value 0).slot) w := by
        refine ⟨hinvw, ⟨t, u, hch, hstu, hsetu, hsave.numFresh⟩, hperm₂.trans (hperm₁.cons _), fun _ => habs,
          (edits_madeRoom hc.fits.hdr_lt hc.fits.size_le hinv).add hch.mem, ?_, hsave.freesz, hsave.fresh, ?_⟩
        · rw [addSlot, Function.update_self]
          simp
        · rw [hsave.workspace, hsetu.workspace]
          exact hch.ws
      refine ⟨s₁, _, hst, hset, .done hdone, ?_⟩
      · have h₁ : LSteps G (SetStates G L key value s₁.ctl) _ _ := hch.steps.mono fun _ => .rounds
        have h₂ : LSteps G (SetStates G L key value s₁.ctl) t.dev u.dev :=
          LSteps.still hstu hch.inv.rep (.writing hch.mem .none (by simp) (fun _ => habs) .start)
        have h₃ : LSteps G (SetStates G L key value s₁.ctl) _ _ := hsteps.mono fun _ hw =>
          .writing hch.mem .none (by simp) (fun _ => habs) hw
        exact (h₁.trans h₂).trans h₃
    | @failed blk _ t _ hch hstu hsetu hm hne =>
      have h₁ : LSteps G (SetStates G L key value s₁.ctl) _ _ := hch.steps.mono fun _ => .rounds
      have h₂ : LSteps G (SetStates G L key value s₁.ctl) t.dev w.dev :=
        LSteps.still hstu hch.inv.rep (.rounds .last)
      exact wp.pure ⟨s₁, _, hst, hset, .failed hch hstu hsetu hm hne, h₁.trans h₂⟩
    | full h0 he =>
      obtain ⟨e, prev'⟩ := r
      subst he
      exact wp.pure ⟨s₁, L, hst, hset, .full h0, hstill⟩

end SetSpec

/-! ### What a set leaves -/

theorem SetResult.inv {s₁ t : St} {r : KvErr} {L' : ℕ → Blk} (hr : SetResult G E x L s₁ key value r L' t)
    (h : Inv G x L s₁) : Inv G x L' t := by
  cases hr with
  | same => exact h
  | done hdone => exact hdone.inv
  | failed hch hst hset => exact hch.inv.still hst hset
  | full => exact h

theorem SetResult.edits {s₁ t : St} {r : KvErr} {L' : ℕ → Blk} (hr : SetResult G E x L s₁ key value r L' t)
    (h : Inv G x L s₁) (hkv : Fits key value) : Edits G L L' := by
  cases hr with
  | same => exact .refl
  | done hdone => exact hdone.edits
  | failed => exact edits_madeRoom hkv.hdr_lt hkv.size_le h
  | full => exact .refl

/-- A set that succeeds maps the key to the value; one that fails changes nothing. -/
theorem SetResult.holds {s₁ t : St} {r : KvErr} {L' : ℕ → Blk} (hr : SetResult G E x L s₁ key value r L' t)
    (h : Inv G x L s₁) (hkv : Fits key value) (hm : Holds G L m) :
    Holds G L' (if r = .none then Function.update m key (some value) else m) := by
  cases hr with
  | @same it hit hk hv =>
    have hget := hm.get hit
    rw [hk, hv] at hget
    rw [if_pos rfl, ← hget, Function.update_eq_self]
    exact hm
  | @done old blk p _ _ hdone =>
    rw [if_pos rfl]
    have hperm := hdone.perm
    cases old with
    | none =>
      have hnone := hm.none_iff.mpr (hdone.fresh rfl)
      exact (hm.cons (a := newItem key value p) hnone).perm hperm
    | some it =>
      obtain ⟨hit, hk, hperm⟩ := hperm
      have hl := List.perm_cons_erase hit
      have hcons := hm.perm hl.symm
      have hrep := hcons.replace (b := newItem key value p) hk.symm
      have hswap : (it :: allItems G L').Perm (it :: newItem key value p :: (allItems G L).erase it) :=
        hperm.trans ((hl.cons _).trans (List.Perm.swap _ _ _))
      exact hrep.perm hswap.cons_inv
  | failed hch hst hset hfail hne =>
    rw [if_neg hne]
    exact hm.perm (allItems_madeRoom hkv.hdr_lt hkv.size_le h)
  | full =>
    rw [if_neg (by decide)]
    exact hm

theorem DelDone.holds {t : St} {it : Item} {item : KvItem} {L' : ℕ → Blk} (h : DelDone G x L s it item L' t)
    (hm : Holds G L m) : Holds G L' (Function.update m it.key none) :=
  (hm.perm h.perm.symm).tail

end Ln882x.Kv
