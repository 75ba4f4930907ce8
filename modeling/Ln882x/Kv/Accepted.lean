import Ln882x.Kv.Semantics

/-! What a set does for every key and value that pass its own checks. The code
measures an item three more times: against the free size of a block before the
write, against the block when the free size is reduced, and against the header
limits when the item is read again. A set whose item fits a block either writes
it or is refused. One whose item does not fit, or has an empty key or value, is
harmless only if no block takes it. The search for the key settles the entries
of the blocks it passes, so a refusal leaves the index alone only if these are
settled. -/

namespace Ln882x.Kv

open Nor

variable {G : Geo} {E : Env} {x : Bool} {L : ℕ → Blk} {c : Ctl} {s t : St} {f : Flash} {m : Bytes → Option Bytes}
  {key value : Bytes} {b n size : ℕ}

/-! ### Settled entries -/

/-- The blocks that a search for the key passes: those before the one that holds it. -/
def passedBlks (G : Geo) (L : ℕ → Blk) (key : Bytes) : List ℕ :=
  G.blks.takeWhile fun b => !(L b).liveItems.any (·.key = key)

/-- The index entry of a used block is what a walk would make of it: the block is not empty, and
its free size is zero if no header fits. -/
def Settled (k : Blk) (b : ℕ) (c : Ctl) : Prop :=
  k.slots ≠ [] ∧ (k.free ≤ kvItemHdrSize → kvBlkFreeszGet b c = 0)

theorem kvBlkFreeszSet_self (h : kvBlkFreeszGet b c = n) : kvBlkFreeszSet b c n = c := by
  have hd : ({ c.blkDetail b with freeSize := n } : BlkDetail) = c.blkDetail b := by
    rw [← h]
    rfl
  rw [kvBlkFreeszSet, hd, Function.update_eq_self]

theorem kvBlkSetInuse_self (h : kvBlkIsInuse b c = true) : kvBlkSetInuse b c = c := by
  have hfl : ({ kvBlkFlagsGet b c with inuse := true } : Flags) = (c.blkDetail b).flags := by
    rw [← h]
    rfl
  rw [kvBlkSetInuse]
  simp only [h, if_true]
  rw [hfl, kvBlkFlagsSet, Function.update_eq_self]

theorem kvBlkResetInuse_self (h : kvBlkIsInuse b c = false) : kvBlkResetInuse b c = c := by
  have hfl : ({ kvBlkFlagsGet b c with inuse := false } : Flags) = (c.blkDetail b).flags := by
    rw [← h]
    rfl
  rw [kvBlkResetInuse]
  simp only [h, Bool.false_eq_true, if_false]
  rw [hfl, kvBlkFlagsSet, Function.update_eq_self]

/-- Walking a block whose entry is settled changes nothing. -/
theorem Indexed.settle_eq {k : Blk} (h : Indexed k (c.blkDetail b)) (hf : kvBlkIsFresh b c = false)
    (hs : Settled k b c) : settle k b c = c := by
  have hin := h.inuse hf
  rw [settle, if_neg hs.1]
  split_ifs with hroom
  · have hfree : kvBlkFreeszGet b c = k.free := by
      rcases h.free with hfree | ⟨hle, -⟩
      · exact hfree
      · omega
    rw [kvBlkFreeszSet_self hfree]
    exact kvBlkSetInuse_self (hin.mpr hroom)
  · rw [kvBlkFreeszSet_self (hs.2 (by omega))]
    apply kvBlkResetInuse_self
    rw [← Bool.not_eq_true]
    exact fun hi => hroom (hin.mp hi)

/-- A search that passes settled entries only leaves the index as it is. -/
theorem foundCtl_eq (hidx : IdxInv G x L c) {bs : List ℕ} (hbs : ∀ b ∈ bs, b ∈ G.blks)
    (h : ∀ b ∈ bs.takeWhile fun b => !(L b).liveItems.any (·.key = key),
      kvBlkIsFresh b c = false → Settled (L b) b c) : foundCtl L key bs c = c := by
  induction bs with
  | nil => rfl
  | cons b bs ih =>
    have hrest := fun y hy => hbs y (List.mem_cons_of_mem b hy)
    rw [foundCtl]
    by_cases hany : (L b).liveItems.any (·.key = key) = true
    · by_cases hf : kvBlkIsFresh b c = true
      · have hempty := hidx.fresh_empty (hbs b List.mem_cons_self) hf
        simp [Blk.liveItems, Blk.liveSlots, hempty] at hany
      · rw [if_neg hf, if_pos hany]
    · rw [Bool.not_eq_true] at hany
      rw [List.takeWhile_cons_of_pos (by rw [hany]; rfl)] at h
      have hnext := ih hrest fun y hy => h y (List.mem_cons_of_mem b hy)
      by_cases hf : kvBlkIsFresh b c = true
      · rw [if_pos hf]
        exact hnext
      · rw [Bool.not_eq_true] at hf
        have hself := (hidx.blk b (hbs b List.mem_cons_self)).settle_eq hf (h b List.mem_cons_self hf)
        rw [hf, hany, hself]
        exact hnext

/-! ### Searches without result -/

/-- No block takes an item of the size: there is no block to write to, or all are used and have
less free space. -/
def NoRoom (G : Geo) (c : Ctl) (size : ℕ) : Prop :=
  kvNoWriteableBlk c = true ∨ ∀ b ∈ G.blks, kvBlkIsFresh b c = false ∧ kvBlkFreeszGet b c < size

instance (G : Geo) (c : Ctl) (size : ℕ) : Decidable (NoRoom G c size) := inferInstanceAs (Decidable (_ ∨ _))

theorem CountsOk.numFresh_eq_zero (h : CountsOk G x c) (hf : ∀ b ∈ G.blks, kvBlkIsFresh b c = false) :
    c.numFresh = 0 := by
  rw [h.fresh, numFlagged, List.countP_eq_zero]
  intro b hb hfresh
  exact absurd (hf b hb) (by simpa [kvBlkIsFresh] using hfresh)

theorem CountsOk.not_fresh (h : CountsOk G x c) (h0 : c.numFresh = 0) (hb : b ∈ G.blks) :
    kvBlkIsFresh b c = false := by
  rw [h.fresh, numFlagged, List.countP_eq_zero] at h0
  exact Bool.not_eq_true _ ▸ h0 b hb

theorem wp_kvBlkSearchSuitable_noRoom (hc : CountsOk G x s.ctl) (hw : s.ctl.workspace ∈ G.blks ∨ Idle G s.ctl)
    (hno : NoRoom G s.ctl size) : wp (kvBlkSearchSuitable G E size) (fun r t => r = kvBlkInvalid ∧ t = s) s := by
  unfold kvBlkSearchSuitable
  apply wp_getCtl
  apply wp.ite
  · intro _
    exact wp.pure ⟨rfl, rfl⟩
  intro hwrite
  apply wp.ite
  · intro _
    exact wp.pure ⟨rfl, rfl⟩
  intro _
  have hall : ∀ b ∈ G.blks, kvBlkIsFresh b s.ctl = false ∧ kvBlkFreeszGet b s.ctl < size := by
    rcases hno with hno | hall
    · exact absurd hno hwrite
    · exact hall
  have h0 := hc.numFresh_eq_zero fun b hb => (hall b hb).1
  have hmem : s.ctl.workspace ∈ G.blks := by
    rcases hw with hw | hidle
    · exact hw
    · exact absurd (decide_eq_true ⟨hidle.numInuse, h0⟩) hwrite
  have hinuse : kvBlkSearchInuse G s.ctl size = kvBlkInvalid := by
    rcases Geo.ringSearch_spec
      (p := fun blk => kvBlkIsInuse blk s.ctl && decide (kvBlkFreeszGet blk s.ctl ≥ size)) hmem with
      ⟨hr, -⟩ | ⟨hm, -, hp⟩
    · exact hr
    · simp only [Bool.and_eq_true, decide_eq_true_eq] at hp
      have hlt := (hall _ hm).2
      omega
  unfold kvBlkSearchLoop
  apply wp_getCtl
  apply wp.ite
  · intro hge
    have hlt := (hall _ hmem).2
    omega
  intro _
  apply wp.ite
  · intro hne
    exact absurd hinuse hne
  intro _
  apply wp.ite
  · intro _
    exact wp.pure ⟨rfl, rfl⟩
  · intro hlt
    omega

/-- With room in a used block and no fresh one the search gives a block. -/
theorem wp_kvBlkSearchSuitable_room (h : Inv G x L s) (hsz : kvItemHdrSize < size) (h0 : s.ctl.numFresh = 0)
    (hno : ¬NoRoom G s.ctl size) : wp (kvBlkSearchSuitable G E size) (fun r _ => r ≠ kvBlkInvalid) s := by
  rw [NoRoom, not_or] at hno
  have hwsne : s.ctl.workspace ≠ kvBlkInvalid := fun hw => Geo.invalid_not_mem (by rw [← hw]; exact h.ws)
  unfold kvBlkSearchSuitable
  apply wp_getCtl
  apply wp.ite
  · intro hwrite
    exact absurd hwrite hno.1
  intro _
  apply wp.ite
  · intro hw
    exact absurd hw hwsne
  intro _
  unfold kvBlkSearchLoop
  apply wp_getCtl
  apply wp.ite
  · intro _
    exact wp.pure hwsne
  intro hlt
  rcases h.searchInuse hsz with ⟨hr, hall⟩ | ⟨y, hy, hr, -⟩
  · refine absurd (fun b hb => ⟨h.idx.counts.not_fresh h0 hb, ?_⟩) hno.2
    by_cases hbw : b = s.ctl.workspace
    · rw [hbw]
      omega
    · have hfree := hall b hb hbw (h.idx.counts.not_fresh h0 hb)
      by_contra hge
      have := ((h.idx.blk b hb).freesz_ge hsz).mp (by rw [kvBlkFreeszGet] at hge; omega)
      omega
  · have hne : y ≠ kvBlkInvalid := by
      rintro rfl
      exact Geo.invalid_not_mem hy
    rw [hr]
    apply wp.ite
    · intro _
      apply wp.bind (wp_idx _)
      intro _ u _
      exact wp.pure hne
    · intro hinv
      exact absurd hne hinv

/-! ### What the search for the key leaves of it -/

theorem Settles.fresh {c' : Ctl} (h : Settles G L c c') (hf : kvBlkIsFresh b c = true) : kvBlkIsFresh b c' = true := by
  induction h with
  | refl c => exact hf
  | @step c c' y hy hyf _ ih =>
    apply ih
    have hne : b ≠ y := by
      rintro rfl
      rw [hf] at hyf
      contradiction
    rw [kvBlkIsFresh, kvBlkFlagsGet, detail_settle_of_ne hne]
    exact hf

theorem Indexed.numInuse_settle {k : Blk} (h : Indexed k (c.blkDetail b)) (hf : kvBlkIsFresh b c = false) :
    (settle k b c).numInuse = c.numInuse := by
  have hin := h.inuse hf
  have hkeep : ∀ n, kvBlkIsInuse b (kvBlkFreeszSet b c n) = kvBlkIsInuse b c := by
    intro n
    rw [kvBlkIsInuse, kvBlkIsInuse, congrFun (flags_kvBlkFreeszSet b n) b]
  unfold settle
  split_ifs with h0 hroom
  · rw [kvBlkSetFresh_eq]
    rfl
  · rw [kvBlkSetInuse_self ((hkeep _).trans (hin.mpr hroom))]
    rfl
  · have hno : kvBlkIsInuse b c = false := by
      rw [← Bool.not_eq_true]
      exact fun hi => hroom (hin.mp hi)
    rw [kvBlkResetInuse_self ((hkeep _).trans hno)]
    rfl

theorem Settles.numInuse {c' : Ctl} (h : Settles G L c c') (hi : IdxInv G x L c) : c'.numInuse = c.numInuse := by
  induction h with
  | refl c => rfl
  | @step c c' y hy hyf _ ih =>
    rw [ih (hi.settled hy hyf)]
    exact (hi.blk y hy).numInuse_settle hyf

/-- A search for a key takes no room away. -/
theorem NoRoom.before {c' : Ctl} (h : NoRoom G c' size) (hset : Settles G L c c') (hi : IdxInv G x L c)
    (hsz : kvItemHdrSize < size) : NoRoom G c size := by
  have hi' := hset.idxInv hi
  have hfresh : ∀ b, kvBlkIsFresh b c' = false → kvBlkIsFresh b c = false := by
    intro b hf
    rw [← Bool.not_eq_true]
    intro hf'
    rw [hset.fresh hf'] at hf
    contradiction
  rcases h with hw | hall
  · left
    simp only [kvNoWriteableBlk, decide_eq_true_eq] at hw ⊢
    refine ⟨by rw [← hset.numInuse hi]; exact hw.1, ?_⟩
    exact hi.counts.numFresh_eq_zero fun b hb => hfresh b (hi'.counts.not_fresh hw.2 hb)
  · right
    intro b hb
    obtain ⟨hf, hlt⟩ := hall b hb
    refine ⟨hfresh b hf, ?_⟩
    by_contra hge
    have hfree := ((hi.blk b hb).freesz_ge hsz).mp (Nat.le_of_not_lt hge)
    have := ((hi'.blk b hb).freesz_ge hsz).mpr hfree
    rw [kvBlkFreeszGet] at hlt
    omega

/-! ### A set with room does not run out of space -/

section Room
variable (hd : E.DrvOk)
include hd

theorem wp_kvBlkSearchSuitable_some (hm : E.MallocOk .gc) (h : Inv G false L s) (hsz : kvItemHdrSize < size)
    (hle : size ≤ kvBlkFreshSize) (hno : ¬NoRoom G s.ctl size) :
    wp (kvBlkSearchSuitable G E size) (fun r _ => r ≠ kvBlkInvalid) s := by
  by_cases h0 : s.ctl.numFresh = 0
  · exact wp_kvBlkSearchSuitable_room h hsz h0 hno
  · apply wp.mono (wp_kvBlkSearchSuitable hd hm hsz hle h fun hx => absurd hx Bool.false_ne_true)
    rintro r t (⟨-, -, hz⟩ | hch)
    · exact absurd hz h0
    · rintro rfl
      exact Geo.invalid_not_mem hch.mem

theorem wp_kvItemSaveAt_err (blk p : ℕ) :
    wp (kvItemSaveAt E key value blk p) (fun r _ => r ≠ .insufficientSpace) s := by
  have hwrite : ∀ (a : ℕ) (hdr : ItemHdr) (body : Bytes) (u : St),
      wp (kvItemWrite E a hdr body) (fun r _ => r = .none) u := by
    intro a hdr body u
    unfold kvItemWrite kvItemHdrWrite kvFlashWunitModify
    apply wp.bind (P := fun r _ => r = .none)
    · apply wp.bind (wp_kvFlashWrite hd _ _)
      rintro r v ⟨rfl, -, -⟩
      apply wp.ite
      · intro hne
        exact absurd rfl hne
      · intro _
        exact (wp_kvFlashWrite hd _ _).mono fun r w hr => hr.1
    · rintro r v rfl
      apply wp.ite
      · intro hne
        exact absurd rfl hne
      · intro _
        exact (wp_kvFlashWrite hd _ _).mono fun r w hr => hr.1
  unfold kvItemSaveAt kvItemDoSave
  apply wp_getCtl
  apply wp.bind (P := fun r _ => r = .none ∨ r = .outOfMemory)
  · apply wp.bind (wp_lnKvMalloc .save)
    rintro r u -
    apply wp.ite
    · intro _
      exact wp.pure (.inr rfl)
    · intro _
      exact (hwrite _ _ _ u).mono fun r v hr => .inl hr
  rintro r u hr
  apply wp.ite
  · intro hne
    rcases hr with rfl | rfl
    · exact absurd rfl hne
    · exact wp.pure (by decide)
  intro _
  apply wp.bind (wp_idx _)
  rintro _ v -
  apply wp_getCtl
  apply wp.ite
  · intro _
    apply wp.bind (wp_idx _)
    rintro _ w -
    apply wp_getCtl
    apply wp.ite
    · intro _
      apply wp.bind (wp_idx _)
      rintro _ y -
      exact wp.pure (by decide)
    · intro _
      exact wp.pure (by decide)
  · intro _
    apply wp.ite
    · intro _
      apply wp.bind (wp_idx _)
      rintro _ w -
      exact wp.pure (by decide)
    · intro _
      exact wp.pure (by decide)

theorem wp_kvItemSave_room (hm : E.MallocOk .gc) (h : Inv G false L s) (hkv : Fits key value)
    (hno : ¬NoRoom G s.ctl (kvItemSize key.length value.length)) (prev : Option KvItem) :
    wp (kvItemSave G E key value prev) (fun r _ => r.1 ≠ .insufficientSpace) s := by
  unfold kvItemSave
  apply wp.bind (wp_kvBlkSearchSuitable_some hd hm h hkv.hdr_lt hkv.size_le hno)
  intro blk t hblk
  apply wp.ite
  · intro hinv
    exact absurd hinv hblk
  intro _
  cases prev with
  | none =>
    apply wp.bind (wp_kvItemSaveAt_err hd blk 0)
    intro r u hr
    exact wp.pure hr
  | some item =>
    apply wp.bind (wp_kvItemIsMoved hd item)
    rintro r u -
    apply wp.ite
    · intro _
      unfold kvItemFix
      apply wp.bind (P := fun r _ => r ≠ .error .insufficientSpace)
      · apply wp.bind wp.self
        rintro r v -
        cases r with
        | none => exact wp.pure (by simp)
        | some moved => exact wp.pure (by simp)
      intro r v hr
      cases r with
      | error e =>
        refine wp.pure ?_
        rintro rfl
        exact hr rfl
      | ok item' =>
        apply wp.bind (wp_kvItemSaveAt_err hd blk item'.pos)
        intro r w hr
        exact wp.pure hr
    · intro _
      apply wp.bind (wp_kvItemSaveAt_err hd blk item.pos)
      intro r w hr
      exact wp.pure hr

theorem wp_lnKvSet_room (hm : E.MallocOk .gc) (h : Inv G false L s) (hkv : Fits key value)
    (hno : ¬NoRoom G s.ctl (kvItemSize key.length value.length)) :
    wp (lnKvSet G E key value) (fun r _ => r ≠ .insufficientSpace) s := by
  have hafter : ∀ t : St, Dev.Still s.dev t.dev → Settles G L s.ctl t.ctl →
      Inv G false L t ∧ ¬NoRoom G t.ctl (kvItemSize key.length value.length) :=
    fun t hst hset => ⟨h.still hst hset, fun hbad => hno (hbad.before hset h.idx hkv.hdr_lt)⟩
  unfold lnKvSet
  apply wp.ite
  · intro _
    exact wp.pure (by decide)
  intro _
  apply wp.bind (wp_find hd h.toCore key)
  rintro r t ⟨hst, hset, hr⟩
  obtain ⟨hinv, hroom⟩ := hafter t hst hset
  cases r with
  | none =>
    apply wp.bind (wp_kvItemSave_room hd hm hinv hkv hroom none)
    intro r u hr
    exact wp.pure hr
  | some item =>
    show wp (kvItemUpdate G E item key value) _ t
    unfold kvItemUpdate
    apply wp.ite
    · intro _
      exact wp.pure (by decide)
    intro _
    apply wp.bind (wp_kvItemSave_room hd hm hinv hkv hroom (some item))
    rintro ⟨e, prev⟩ u he
    cases e with
    | none =>
      cases prev with
      | none => exact wp.pure he
      | some item' =>
        unfold kvItemDelete kvItemDeleteAux kvItemDoDelete kvFlashWunitModify
        apply wp.bind (wp_kvFlashWrite hd _ _)
        rintro r v ⟨rfl, -, -⟩
        apply wp.ite
        · intro hne
          exact absurd rfl hne
        intro _
        apply wp.bind (wp_idx _)
        rintro _ w -
        exact wp.pure (by decide)
    | _ => exact wp.pure he

end Room

/-! ### What a set has to leave -/

/-- The item lies wholly inside the block, byte for byte. -/
structure LiesIn (G : Geo) (f : Flash) (blk : ℕ) (it : Item) : Prop where
  mem : blk ∈ G.blks
  slot : ∃ pre post, (blksOf f blk).slots = pre ++ it.slot :: post ∧
    readBytes f (slotAddr blk pre) it.size = it.slot.image ∧ slotAddr blk pre + it.size ≤ kvBlkEnd blk

/-- Where the next item of the block goes. -/
def firstUnused (f : Flash) (blk : ℕ) : ℕ := slotAddr blk (blksOf f blk).slots

/-- What a set from `s` that answers `r` in the state `t` leaves. A refusal changes neither the
flash nor the index. Success leaves an item with the value inside a block; the free size of a
block that was written to is exact. Other keys are left alone, and an item that fits is refused
only if no block takes it. -/
structure Contained (G : Geo) (key value : Bytes) (s : St) (r : KvErr) (t : St) : Prop where
  refused : r ≠ .none → t.dev.flash = s.dev.flash ∧ t.ctl.blkDetail = s.ctl.blkDetail ∧
    t.ctl.workspace = s.ctl.workspace
  inside : r = .none → ∃ blk it, LiesIn G t.dev.flash blk it ∧ it.key = key ∧ it.val = value ∧
    (t.dev.flash = s.dev.flash ∨ firstUnused t.dev.flash blk + kvBlkFreeszGet blk t.ctl = kvBlkEnd blk)
  reads : r = .none → ∀ n, value.length ≤ n → (lnKvGet G .good key n t).1 = (.none, value)
  others : ∀ other, other ≠ key → ∀ n, (lnKvGet G .good other n t).1 = (lnKvGet G .good other n s).1
  works : Fits key value → ¬NoRoom G s.ctl (kvItemSize key.length value.length) → r = .none

theorem Core.liesIn (h : Core G x L s) (hl : AllLegal G L) (hb : b ∈ G.blks) {it : Item}
    (hs : it.slot ∈ (L b).slots) : LiesIn G s.dev.flash b it := by
  obtain ⟨pre, post, hsplit⟩ := List.append_of_mem hs
  obtain ⟨-, hfit⟩ := (h.ok hb).split hsplit
  have himg := (h.rep b hb).1
  rw [Blk.image_slot hsplit] at himg
  refine ⟨hb, pre, post, by rw [h.blksOf_eq hl b hb]; exact hsplit, ?_, ?_⟩
  · rw [slotAddr, kvBlkFirstItem, Nat.add_assoc]
    exact readBytes_part himg (by simp [kvBlkHdrSize]) (Slot.length_image _)
  · simp only [slotAddr, kvBlkFirstItem, kvBlkEnd, Item.slot] at *
    omega

theorem Core.firstUnused_add (h : Core G x L s) (hl : AllLegal G L) (hb : b ∈ G.blks)
    (hf : kvBlkFreeszGet b s.ctl = (L b).free) :
    firstUnused s.dev.flash b + kvBlkFreeszGet b s.ctl = kvBlkEnd b := by
  have hadd := (h.ok hb).free_add
  rw [firstUnused, h.blksOf_eq hl b hb, hf]
  simp only [slotAddr, kvBlkFirstItem, kvBlkEnd, Blk.used] at *
  omega

/-! ### One set -/

/-- The store has the entry already. -/
def HasEntry (G : Geo) (s : St) (key value : Bytes) : Prop :=
  ∃ it ∈ allItems G (blksOf s.dev.flash), it.key = key ∧ it.val = value

/-- When a set of a new value is harmless: if a block takes the item, it must fit a block and take
no copy for the item it replaces; if none does, the search for the key must pass settled entries
only. -/
structure SetMeets (G : Geo) (s : St) (key value : Bytes) : Prop where
  room : ¬HasEntry G s key value → ¬NoRoom G s.ctl (kvItemSize key.length value.length) →
    Fits key value ∧ TakesNoCopy G s (.set key value)
  settled : ¬HasEntry G s key value → NoRoom G s.ctl (kvItemSize key.length value.length) →
    ∀ b ∈ passedBlks G (blksOf s.dev.flash) key, kvBlkIsFresh b s.ctl = false → Settled (blksOf s.dev.flash b) b s.ctl

theorem Running.get_eq (h : Running G false m s) (hk : key.length < 0xFF) (n : ℕ) :
    (lnKvGet G .good key n s).1 = match m key with
      | none => (.notExist, [])
      | some v => if n < v.length then (.bufTooShort, []) else (.none, v) := by
  have hget : wp (lnKvGet G .good key n) _ s := h.wp_lnKvGet good_drvOk (good_mallocOk _) hk n
  exact hget.2

/-- Stores that map a key alike answer its lookups alike. -/
theorem Running.get_congr {m' : Bytes → Option Bytes} (h : Running G false m s) (h' : Running G false m' t)
    (he : m' key = m key) (n : ℕ) : (lnKvGet G .good key n t).1 = (lnKvGet G .good key n s).1 := by
  by_cases hlong : key.length ≥ 0xFF
  · unfold lnKvGet
    rw [if_pos hlong]
    rfl
  · rw [h.get_eq (Nat.lt_of_not_ge hlong), h'.get_eq (Nat.lt_of_not_ge hlong), he]

/-- What is left to show when a set succeeds. -/
theorem Running.contained_of_item {m' : Bytes → Option Bytes} (h : Running G false m s) (h' : Running G false m' t)
    (hm' : m' = Function.update m key (some value)) (hk : key.length < 0xFF)
    (hin : ∃ blk it, LiesIn G t.dev.flash blk it ∧ it.key = key ∧ it.val = value ∧
      (t.dev.flash = s.dev.flash ∨ firstUnused t.dev.flash blk + kvBlkFreeszGet blk t.ctl = kvBlkEnd blk)) :
    Contained G key value s .none t where
  refused := fun hne => absurd rfl hne
  inside := fun _ => hin
  reads := by
    intro _ n hn
    rw [h'.get_eq hk n, hm', Function.update_self]
    exact if_neg (Nat.not_lt.mpr hn)
  others := by
    intro other hne n
    apply h.get_congr h'
    rw [hm', Function.update_of_ne hne]
  works := fun _ _ => rfl

section OneSet
variable (h : Running G false m s) (hk : key.length < 0xFF)
include h hk

theorem Running.set_written (hroom : ¬NoRoom G s.ctl (kvItemSize key.length value.length)) (hfits : Fits key value)
    (hno : TakesNoCopy G s (.set key value)) :
    Contained G key value s (lnKvSet G .good key value s).1 (lnKvSet G .good key value s).2 ∧
      Running G false (Function.update m key (some value)) (lnKvSet G .good key value s).2 := by
  have hw : s.ctl.workspace ∈ G.blks := by
    rcases h.ready with hw | hidle
    · exact hw
    · refine absurd (.inr fun b hb => ⟨hidle.fresh b hb, ?_⟩) hroom
      have hle := (hidle.full h.core hb).2
      have hlt := hfits.hdr_lt
      rw [kvBlkFreeszGet]
      rcases (h.core.idx.blk b hb).free with hf | ⟨-, hf⟩ <;> omega
  have hinv : Inv G false (blksOf s.dev.flash) s := ⟨h.core, hw⟩
  have hcond := setOk_of_noAlias h hfits hno
  have hset : wp (lnKvSet G .good key value) _ s := wp.and (Kv.wp_lnKvSet good_drvOk hinv h.holds hcond)
    (wp_lnKvSet_room good_drvOk (good_mallocOk _) hinv hfits hroom)
  rw [wp_iff] at hset
  generalize (lnKvSet G .good key value s).1 = r at hset ⊢
  generalize (lnKvSet G .good key value s).2 = t at hset ⊢
  obtain ⟨⟨s₁, L', hst, hsettles, hres, -⟩, hne⟩ := hset
  have hinv₁ := hinv.still hst hsettles
  have hinv' := hres.inv hinv₁
  have hlegal := (hres.edits hinv₁ hfits).allLegal h.legal
  have hrun := hinv'.running hlegal (hres.holds hinv₁ hfits h.holds) (.inl hinv'.ws)
  cases hres with
  | @same it hit hkey hval =>
    rw [if_pos rfl] at hrun
    refine ⟨h.contained_of_item hrun rfl hk ?_, hrun⟩
    obtain ⟨b, hb, hslot⟩ := mem_allItems.mp hit
    exact ⟨b, it, hinv₁.liesIn h.legal hb hslot, hkey, hval, .inl hst.flash⟩
  | @done old blk p _ _ hdone =>
    rw [if_pos rfl] at hrun
    refine ⟨h.contained_of_item hrun rfl hk ?_, hrun⟩
    obtain ⟨s₂, s₃, hch, -⟩ := hdone.chosen
    exact ⟨blk, newItem key value p, hinv'.liesIn hlegal hch.mem hdone.slot, rfl, rfl,
      .inr (hinv'.firstUnused_add hlegal hch.mem hdone.freesz)⟩
  | failed _ _ _ hbad =>
    rcases hbad with hbad | hbad
    · exact absurd (good_mallocOk _) hbad
    · exact absurd (good_mallocOk _) hbad
  | full => exact absurd rfl hne

variable (hv : value.length < 0xFFFF)
include hv

theorem Running.set_stored (hst : HasEntry G s key value) :
    Contained G key value s (lnKvSet G .good key value s).1 (lnKvSet G .good key value s).2 ∧
      Running G false m (lnKvSet G .good key value s).2 := by
  obtain ⟨it, hit, hkey, hval⟩ := hst
  have hget := h.holds.get hit
  rw [hkey, hval] at hget
  have hset : wp (lnKvSet G .good key value) (fun r t => r = .none ∧ Dev.Still s.dev t.dev ∧
      Settles G (blksOf s.dev.flash) s.ctl t.ctl) s := by
    unfold lnKvSet
    apply wp.ite
    · intro hno
      omega
    intro _
    apply wp.bind (wp_find good_drvOk h.core key)
    rintro r t ⟨hst, hset, ⟨it', item, rfl, hat, hkey'⟩ | ⟨rfl, hno⟩⟩
    · have hget' := h.holds.get hat.mem
      rw [hkey', hget, Option.some.injEq] at hget'
      show wp (kvItemUpdate G .good item key value) _ t
      unfold kvItemUpdate
      apply wp.ite
      · intro _
        exact wp.pure ⟨rfl, hst, hset⟩
      · intro hno
        exact absurd ((kvItemValueIsMatch_iff hat value).mpr hget'.symm) hno
    · rcases hno with hno | hbad
      · exact absurd hkey (hno it hit)
      · exact absurd (good_mallocOk _) hbad
  rw [wp_iff] at hset
  obtain ⟨hr, hstill, hsettles⟩ := hset
  have hrun := h.still hstill hsettles
  have hupd : m = Function.update m key (some value) := by rw [← hget, Function.update_eq_self]
  refine ⟨?_, hrun⟩
  rw [hr]
  apply h.contained_of_item hrun hupd hk
  obtain ⟨b, hb, hslot⟩ := mem_allItems.mp hit
  have hlies := h.core.liesIn h.legal hb hslot
  exact ⟨b, it, by rw [hstill.flash]; exact hlies, hkey, hval, .inl hstill.flash⟩

/-- Nothing is written, and nothing of the index changes, when no block takes the item and all
entries that the search passes are settled. -/
theorem Running.set_refused (hno : ¬HasEntry G s key value)
    (hroom : NoRoom G s.ctl (kvItemSize key.length value.length))
    (hset : ∀ b ∈ passedBlks G (blksOf s.dev.flash) key, kvBlkIsFresh b s.ctl = false →
      Settled (blksOf s.dev.flash b) b s.ctl) :
    Contained G key value s (lnKvSet G .good key value s).1 (lnKvSet G .good key value s).2 ∧
      Running G false m (lnKvSet G .good key value s).2 := by
  have hfound : (kvItemFind G .good key s).2.ctl = s.ctl :=
    (kvItemFind_ctl good_drvOk (good_mallocOk _) h.core).trans (foundCtl_eq h.core.idx (fun _ hb => hb) hset)
  have hfull : wp (lnKvSet G .good key value) (fun r t => r = .insufficientSpace ∧ Dev.Still s.dev t.dev ∧
      t.ctl = s.ctl) s := by
    unfold lnKvSet
    apply wp.ite
    · intro hlong
      omega
    intro _
    apply wp.bind (wp.and (wp_find good_drvOk h.core key) wp.self)
    rintro r t ⟨⟨hst, -, hr⟩, -, ht⟩
    have hctl : t.ctl = s.ctl := by
      rw [ht]
      exact hfound
    have hsave : ∀ prev, wp (kvItemSave G .good key value prev) (fun r u => r.1 = .insufficientSpace ∧ u = t) t := by
      intro prev
      unfold kvItemSave
      apply wp.bind (wp_kvBlkSearchSuitable_noRoom (G := G) (by rw [hctl]; exact h.core.idx.counts)
        (by rw [hctl]; exact h.ready) (by rw [hctl]; exact hroom))
      rintro blk u ⟨rfl, rfl⟩
      apply wp.ite
      · intro _
        exact wp.pure ⟨rfl, rfl⟩
      · intro hne
        exact absurd rfl hne
    rcases hr with ⟨it, item, rfl, hat, hkey⟩ | ⟨rfl, -⟩
    · show wp (kvItemUpdate G .good item key value) _ t
      unfold kvItemUpdate
      apply wp.ite
      · intro hmatch
        exact absurd ⟨it, hat.mem, hkey, (kvItemValueIsMatch_iff hat value).mp hmatch⟩ hno
      intro _
      apply wp.bind (hsave (some item))
      rintro ⟨e, prev⟩ u ⟨he, rfl⟩
      simp only at he
      subst he
      exact wp.pure ⟨rfl, hst, hctl⟩
    · apply wp.bind (hsave none)
      rintro ⟨e, prev⟩ u ⟨he, rfl⟩
      exact wp.pure ⟨he, hst, hctl⟩
  rw [wp_iff] at hfull
  obtain ⟨hr, hstill, hctl⟩ := hfull
  have hrun : Running G false m (lnKvSet G .good key value s).2 := h.still hstill (by rw [hctl]; exact .refl _)
  refine ⟨⟨fun _ => ⟨hstill.flash, by rw [hctl], by rw [hctl]⟩, ?_, ?_, ?_, ?_⟩, hrun⟩
  · intro hnone
    rw [hr] at hnone
    contradiction
  · intro hnone
    rw [hr] at hnone
    contradiction
  · intro other _ n
    exact h.get_congr hrun rfl n
  · intro _ hyes
    exact absurd hroom hyes

theorem Running.set_contained (hc : SetMeets G s key value) :
    Contained G key value s (lnKvSet G .good key value s).1 (lnKvSet G .good key value s).2 ∧
      ∃ m', Running G false m' (lnKvSet G .good key value s).2 := by
  by_cases hst : HasEntry G s key value
  · obtain ⟨hcon, hrun⟩ := h.set_stored hk hv hst
    exact ⟨hcon, m, hrun⟩
  by_cases hroom : NoRoom G s.ctl (kvItemSize key.length value.length)
  · obtain ⟨hcon, hrun⟩ := h.set_refused hk hv hst hroom (hc.settled hst hroom)
    exact ⟨hcon, m, hrun⟩
  · obtain ⟨hfits, hno⟩ := hc.room hst hroom
    obtain ⟨hcon, hrun⟩ := h.set_written hk hroom hfits hno
    exact ⟨hcon, _, hrun⟩

end OneSet

/-! ### Runs -/

/-- What a call asks of the state it meets. A set of an overlong key or value is refused at once. -/
def CallMeets (G : Geo) (s : St) : Call → Prop
  | .init => Quiet G s.dev.flash
  | .set key value => key.length < 0xFF → value.length < 0xFFFF → SetMeets G s key value
  | _ => True

def CallsMeet (G : Geo) : List Call → St → Prop
  | [], _ => True
  | c :: cs, s => CallMeets G s c ∧ CallsMeet G cs (c.run G .good s).2

/-- Every set of a run with an accepted key and value is contained. -/
def SetsContained (G : Geo) : List Call → St → Prop
  | [], _ => True
  | c :: cs, s => (∀ key value, c = .set key value → key.length < 0xFF → value.length < 0xFFFF →
      Contained G key value s (lnKvSet G .good key value s).1 (lnKvSet G .good key value s).2) ∧
    SetsContained G cs (c.run G .good s).2

theorem Running.meets (h : Running G false m s) {c : Call} (hc : CallMeets G s c) :
    ∃ m', Running G false m' (c.run G .good s).2 := by
  cases c with
  | set key value =>
    by_cases hlong : key.length ≥ 0xFF ∨ value.length ≥ 0xFFFF
    · exact h.call (c := .set key value) (or_assoc.mp (.inl hlong))
    · rw [not_or, Nat.not_le, Nat.not_le] at hlong
      exact (h.set_contained hlong.1 hlong.2 (hc hlong.1 hlong.2)).2
  | init => exact h.call (c := .init) hc
  | get key n => exact h.call (c := .get key n) trivial
  | hasKey key => exact h.call (c := .hasKey key) trivial
  | del key => exact h.call (c := .del key) trivial

theorem Running.setsContained (h : Running G false m s) {calls : List Call} (hc : CallsMeet G calls s) :
    SetsContained G calls s := by
  induction calls generalizing m s with
  | nil => trivial
  | cons c cs ih =>
    refine ⟨?_, ?_⟩
    · rintro key value rfl hk hv
      exact (h.set_contained hk hv (hc.1 hk hv)).1
    · obtain ⟨m', hrun⟩ := h.meets hc.1
      exact ih hrun hc.2

/-- In every run from an erased area whose calls meet their conditions, every set is contained. -/
theorem sets_contained (G : Geo) (f : Flash) (hf : AreaErased G f) (calls : List Call)
    (hc : CallsMeet G calls (lnKvInit G .good (.on f)).2) : SetsContained G calls (lnKvInit G .good (.on f)).2 :=
  hf.started.setsContained hc

theorem setTwice_meet : CallsMeet threeBlocks setTwice (lnKvInit threeBlocks .good (.on fun _ => 0xFF)).2 := by
  have hok : CallsOk threeBlocks setTwice (lnKvInit threeBlocks .good (.on fun _ => 0xFF)).2 := by
    refine ⟨.inr (.inr (setOk_of_room ⟨?_, ?_, ?_, ?_⟩ ?_)), .inr (.inr (setOk_of_room ⟨?_, ?_, ?_, ?_⟩ ?_)), trivial⟩
    all_goals decide +kernel
  have hadm : ∀ c ∈ setTwice, Admissible c := by
    refine List.forall_mem_cons.mpr ⟨⟨?_, ?_, ?_, ?_⟩, List.forall_mem_singleton.mpr ⟨?_, ?_, ?_, ?_⟩⟩
    all_goals decide
  obtain ⟨hfirst, hsecond, -⟩ := takeNoCopies_of_callsOk threeBlocks_erased.started hadm hok
  have hroom : ¬NoRoom threeBlocks (lnKvInit threeBlocks .good (.on fun _ => 0xFF)).2.ctl (kvItemSize 1 1) := by
    decide +kernel
  have hroom' : ¬NoRoom threeBlocks ((Call.set [1] [2]).run threeBlocks .good
      (lnKvInit threeBlocks .good (.on fun _ => 0xFF)).2).2.ctl (kvItemSize 1 1) := by
    decide +kernel
  have hfits : Fits [1] [2] := hadm (.set [1] [2]) (by decide)
  have hfits' : Fits [1] [3] := hadm (.set [1] [3]) (by decide)
  exact ⟨fun _ _ => ⟨fun _ _ => ⟨hfits, hfirst⟩, fun _ hno => absurd hno hroom⟩,
    fun _ _ => ⟨fun _ _ => ⟨hfits', hsecond⟩, fun _ hno => absurd hno hroom'⟩, trivial⟩

theorem sets_contained_setTwice :
    SetsContained threeBlocks setTwice (lnKvInit threeBlocks .good (.on fun _ => 0xFF)).2 :=
  sets_contained threeBlocks _ threeBlocks_erased setTwice setTwice_meet

/-- An empty value and an empty key are written and not found again; a value longer than a block
is written past its end. -/
theorem sets_not_contained :
    ¬SetsContained threeBlocks [.set [1] []] (lnKvInit threeBlocks .good (.on fun _ => 0xFF)).2 ∧
      ¬SetsContained threeBlocks [.set [] [1]] (lnKvInit threeBlocks .good (.on fun _ => 0xFF)).2 ∧
      ¬SetsContained threeBlocks [.set [9] (List.replicate 4100 0)] (lnKvInit threeBlocks .good (.on fun _ => 0xFF)).2 := by
  refine ⟨fun h => ?_, fun h => ?_, fun h => ?_⟩
  · have hread := (h.1 [1] [] rfl (by decide) (by decide)).reads (by decide +kernel) 0 (by decide)
    exact absurd hread (by decide +kernel)
  · have hread := (h.1 [] [1] rfl (by decide) (by decide)).reads (by decide +kernel) 1 (by decide)
    exact absurd hread (by decide +kernel)
  · have hlong : (List.replicate 4100 (0 : UInt8)).length < 0xFFFF := by
      rw [List.length_replicate]
      decide
    obtain ⟨blk, it, hlies, hkey, hval, -⟩ := (h.1 [9] _ rfl (by decide) hlong).inside (by decide +kernel)
    obtain ⟨pre, post, -, -, hend⟩ := hlies.slot
    have hsize : it.size = 4125 := by
      rw [Item.size, hkey, hval, List.length_replicate]
      rfl
    simp only [hsize, slotAddr, kvBlkFirstItem, kvBlkHdrSize, kvBlkEnd, kvBlkSize] at hend
    omega

end Ln882x.Kv
