import Ln882x.Kv.Effects
import Ln882x.Kv.Layout

/-! Walking a block. When the driver works, a walk meets the slots of its block
one after the other, whatever bytes their bodies hold, and ends behind the last.
`wp_kvItemWalkLoop` is the loop rule all five walkers use: an invariant over
the slots passed and the slots ahead. -/

namespace Ln882x.Kv

open Nor

/-- Every driver call succeeds. -/
def Env.DrvOk (E : Env) : Prop := ∀ n, E.drv n = none

/-- Every allocation of a phase succeeds. -/
def Env.MallocOk (E : Env) (ph : Phase) : Prop := ∀ n, E.malloc ph n = true

/-- Nothing but the count of calls and the record of helper calls differs. -/
structure Same (s t : St) : Prop where
  dev : t.dev = s.dev
  ctl : t.ctl = s.ctl

theorem Same.refl (s : St) : Same s s := ⟨rfl, rfl⟩

theorem Same.trans {s t u : St} (h₁ : Same s t) (h₂ : Same t u) : Same s u :=
  ⟨h₂.dev.trans h₁.dev, h₂.ctl.trans h₁.ctl⟩

variable {G : Geo} {E : Env} {s : St}

/-! ### Driver calls and allocations -/

theorem wp_lnKvMalloc (ph : Phase) :
    wp (lnKvMalloc E ph) (fun r t => Same s t ∧ (r = false → ¬E.MallocOk ph)) s := by
  refine ⟨⟨rfl, rfl⟩, fun h hok => ?_⟩
  have : E.malloc ph s.tick = false := h
  rw [hok] at this
  contradiction

theorem wp_kvFlashRead (hd : E.DrvOk) (addr len : ℕ) :
    wp (kvFlashRead E addr len) (fun r t => r = .ok (readBytes s.dev.flash addr len) ∧ Same s t) s := by
  have h : kvFlashRead E addr len s = (.ok (readBytes s.dev.flash addr len), { s with tick := s.tick + 1 }) := by
    simp only [kvFlashRead, hd s.tick]
  rw [wp, h]
  exact ⟨rfl, rfl, rfl⟩

theorem wp_kvFlashOp (hd : E.DrvOk) (o : Op) :
    wp (kvFlashOp E o) (fun r t => r = true ∧ t.dev = s.dev.exec o ∧ t.ctl = s.ctl) s := by
  have h : kvFlashOp E o s = (true, { s with tick := s.tick + 1, dev := s.dev.exec o }) := by
    simp only [kvFlashOp, hd s.tick]
  rw [wp, h]
  exact ⟨rfl, rfl, rfl⟩

theorem wp_kvFlashWrite (hd : E.DrvOk) (addr : ℕ) (buf : Bytes) :
    wp (kvFlashWrite E addr buf)
      (fun r t => r = .none ∧ t.dev = s.dev.exec (.program addr buf) ∧ t.ctl = s.ctl) s := by
  refine (wp_kvFlashOp hd _).bind fun r t ⟨hr, hdev, hctl⟩ => ?_
  subst hr
  exact ⟨rfl, hdev, hctl⟩

theorem wp_kvFlashErase (hd : E.DrvOk) (addr len : ℕ) :
    wp (kvFlashErase E addr len)
      (fun r t => r = .none ∧ t.dev = s.dev.exec (.erase addr len) ∧ t.ctl = s.ctl) s := by
  refine (wp_kvFlashOp hd _).bind fun r t ⟨hr, hdev, hctl⟩ => ?_
  subst hr
  exact ⟨rfl, hdev, hctl⟩

theorem wp_idx (i : IdxCall) : wp (idx i) (fun _ t => t.dev = s.dev ∧ t.ctl = i.run s.ctl) s := ⟨rfl, rfl⟩

theorem wp_kvItemHdrRead (hd : E.DrvOk) (a : ℕ) :
    wp (kvItemHdrRead E a)
      (fun r t => r = .ok (ItemHdr.ofBytes (readBytes s.dev.flash a kvItemHdrSize)) ∧ Same s t) s := by
  refine (wp_kvFlashRead hd _ _).bind fun r t ⟨hr, hs⟩ => ?_
  subst hr
  exact ⟨rfl, hs⟩

theorem wp_kvItemBodyRead (hd : E.DrvOk) (ph : Phase) (item : KvItem) :
    wp (kvItemBodyRead E ph item) (fun r t => Same s t ∧
      (r = .ok (readBytes s.dev.flash (item.pos + kvItemHdrSize) (item.hdr.kLen + item.hdr.vLen)) ∨
        r = .error .outOfMemory ∧ ¬E.MallocOk ph)) s := by
  refine (wp_lnKvMalloc ph).bind fun r t ⟨hs, hr⟩ => ?_
  cases r with
  | true =>
    refine (wp_kvFlashRead hd _ _).mono fun r u ⟨hr, hs'⟩ => ⟨hs.trans hs', .inl ?_⟩
    rw [hr, hs.dev]
  | false => exact ⟨hs, .inr ⟨rfl, hr rfl⟩⟩

/-! ### Headers of slots -/

theorem Slot.hdr_isLegal (sl : Slot) : sl.hdr.isLegal = sl.legal := by
  cases h : sl.legal <;> simp [Slot.hdr, ItemHdr.isLegal, h, kvItemHdrMagic, wunitBlank]

theorem Slot.hdr_isDiscarded (sl : Slot) : sl.hdr.isDiscarded = sl.disc := by
  cases h : sl.disc <;> simp [Slot.hdr, ItemHdr.isDiscarded, h, kvItemDiscarded, wunitBlank]

theorem Slot.hdr_isFresh {sl : Slot} (h : sl.it.Ok) : sl.hdr.isFresh = false := by
  have := h.key_lt
  simp [Slot.hdr, ItemHdr.isFresh, show sl.it.key.length ≠ 0xFF by omega]

theorem ofBytes_blank : (ItemHdr.ofBytes (blank kvItemHdrSize)).isLegal = false ∧
    (ItemHdr.ofBytes (blank kvItemHdrSize)).isFresh = true := by decide

theorem kvItemHdrVerify_slot {b : ℕ} {pre : List Slot} {sl : Slot} (hb : b ∈ G.blks) (h : sl.it.Ok)
    (hfit : kvBlkHdrSize + slotsSize pre + sl.it.size ≤ kvBlkSize) :
    kvItemHdrVerify G sl.hdr (slotAddr b pre) b = true := by
  have h1 := h.key_pos
  have h2 := h.key_lt
  have h3 := h.val_pos
  have h4 := h.val_lt
  have hstop := Geo.blk_le_stop hb
  have hsz : kvItemSize sl.it.key.length sl.it.val.length = sl.it.size := rfl
  unfold kvItemHdrVerify
  rw [if_neg (by simp only [Slot.hdr]; omega), if_neg, if_neg]
  · simp only [Slot.hdr, hsz, slotAddr, kvBlkFirstItem]
    omega
  · simp only [Slot.hdr, hsz, slotAddr, kvBlkFirstItem, kvBlkEnd]
    omega

/-! ### One round -/

section Round
variable {L : ℕ → Blk} {b : ℕ} {ph : Phase} {walker : Walker} {pre post : List Slot} {sl : Slot}
  {Q : Round → St → Prop}

/-- How a round ends after its walker. -/
def afterWalker (a : ℕ) (Q : Round → St → Prop) (r : KvErr × KvItem) (t : St) : Prop :=
  if r.1 = .none then Q (.ret .none (some r.2)) t
  else if r.1 = .nextLoop then Q (.next a) t
  else Q (.ret r.1 none) t

theorem wp_kvItemWalkRound (hd : E.DrvOk) (hrep : Rep G s.dev.flash L) (hb : b ∈ G.blks)
    (hs : (L b).slots = pre ++ sl :: post)
    (hfail : ∀ t, Same s t → ¬E.MallocOk ph → Q (.ret .outOfMemory none) t)
    (hbroken : sl.legal = false → ∀ t,
      t.dev = s.dev.exec (.program (slotAddr b pre) (leBytes 8 kvItemDiscarded)) →
      t.ctl = kvBlkSetDirty b s.ctl → Q (.next (slotAddr b pre + sl.size)) t)
    (hdisc : sl.legal = true → sl.disc = true → ∀ t, t.dev = s.dev → t.ctl = kvBlkSetDirty b s.ctl →
      Q (.next (slotAddr b pre + sl.size)) t)
    (hlive : sl.live = true → ∀ t, Same s t →
      wp (walker ⟨sl.hdr, slotAddr b pre, []⟩) (afterWalker (slotAddr b pre + sl.size) Q) t) :
    wp (kvItemWalkRound G E ph b walker (slotAddr b pre)) Q s := by
  obtain ⟨hit, hfit⟩ := (hrep b hb).2.split hs
  refine (wp_lnKvMalloc ph).bind ?_
  rintro r t ⟨hst, hr⟩
  cases r with
  | false => exact hfail t hst (hr rfl)
  | true =>
    refine (wp_kvItemHdrRead hd _).bind ?_
    rintro r u ⟨hr, hsu⟩
    rw [hst.dev, hrep.read_hdr hb hs, Slot.ofBytes_hdrImage sl hit] at hr
    subst hr
    have hsame := hst.trans hsu
    have hfresh := Slot.hdr_isFresh hit
    have hv := kvItemHdrVerify_slot hb hit hfit
    refine wp.ite (fun h => by simp [hfresh] at h) fun _ => ?_
    cases hleg : sl.legal with
    | false =>
      refine wp.ite (fun _ => ?_) (fun h => by simp [Slot.hdr_isLegal, hleg] at h)
      have hsz : sl.size = kvItemHdrSize := by simp [Slot.size, hleg]
      refine (wp_kvFlashWrite hd _ _).bind ?_
      rintro r v ⟨rfl, hdev, hctl⟩
      refine (wp_idx _).bind ?_
      rintro _ w ⟨hdev', hctl'⟩
      rw [← hsz]
      exact hbroken hleg w (by rw [hdev', hdev, hsame.dev]) (by rw [hctl', hctl, hsame.ctl]; rfl)
    | true =>
      refine wp.ite (fun h => by simp [Slot.hdr_isLegal, hleg, hv] at h) fun _ => ?_
      have hsz : kvItemSize sl.hdr.kLen sl.hdr.vLen = sl.size := by simp [Slot.size, hleg, Slot.hdr, Item.size]
      rw [hsz]
      cases hdsc : sl.disc with
      | true =>
        refine wp.ite (fun _ => ?_) (fun h => by simp [Slot.hdr_isDiscarded, hdsc] at h)
        refine (wp_idx _).bind ?_
        rintro _ w ⟨hdev', hctl'⟩
        exact hdisc hleg hdsc w (by rw [hdev', hsame.dev]) (by rw [hctl', hsame.ctl]; rfl)
      | false =>
        refine wp.ite (fun h => by simp [Slot.hdr_isDiscarded, hdsc] at h) fun _ => ?_
        refine (hlive (by simp [Slot.live, hleg, hdsc]) u hsame).bind fun r v hv => ?_
        unfold afterWalker at hv
        split_ifs at hv with h1 h2
        · exact wp.ite (fun _ => hv) fun h => absurd h1 h
        · exact wp.ite (fun h => absurd h h1) fun _ => wp.ite (fun h => absurd h2 h) fun _ => hv
        · exact wp.ite (fun h => absurd h h1) fun _ => wp.ite (fun _ => hv) fun h => absurd h2 (by simpa using h)

/-- Behind the last slot the walk meets a blank header. -/
theorem wp_kvItemWalkRound_free (hd : E.DrvOk) (hrep : Rep G s.dev.flash L) (hb : b ∈ G.blks)
    (hfree : kvItemHdrSize ≤ (L b).free)
    (hfail : ∀ t, Same s t → ¬E.MallocOk ph → Q (.ret .outOfMemory none) t) (hbrk : ∀ t, Same s t → Q .brk t) :
    wp (kvItemWalkRound G E ph b walker (slotAddr b (L b).slots)) Q s := by
  refine (wp_lnKvMalloc ph).bind fun r t ⟨hst, hr⟩ => ?_
  cases r with
  | false => exact hfail t hst (hr rfl)
  | true =>
    refine (wp_kvItemHdrRead hd _).bind fun r u ⟨hr, hsu⟩ => ?_
    rw [hst.dev, hrep.read_free hb hfree] at hr
    subst hr
    exact wp.ite (fun _ => hbrk u (hst.trans hsu)) fun h => by simp [ofBytes_blank] at h

end Round

/-! ### The loop -/

section Loop
variable {b : ℕ} {ph : Phase} {walker : Walker} {I : List Slot → List Slot → St → Prop}
  {Q : (KvErr × Option KvItem) ⊕ ℕ → St → Prop}

/-- What one round at a slot must establish: it returns, or the slot is passed. -/
def passes (b : ℕ) (I : List Slot → List Slot → St → Prop) (Q : (KvErr × Option KvItem) ⊕ ℕ → St → Prop)
    (post : List Slot) : Round → St → Prop
  | .ret e i, t => Q (.inl (e, i)) t
  | .brk, _ => False
  | .next cur, t => ∃ pre' post', cur = slotAddr b pre' ∧ post'.length = post.length ∧ I pre' post' t

theorem slotAddr_snoc (b : ℕ) (pre : List Slot) (sl : Slot) :
    slotAddr b pre + sl.size = slotAddr b (pre ++ [sl]) := by
  simp only [slotAddr, slotsSize_append, slotsSize_cons, slotsSize_nil]
  omega

theorem wp_kvItemWalkLoop (hd : E.DrvOk) (hb : b ∈ G.blks)
    (hI : ∀ pre post s, I pre post s → ∃ L, Rep G s.dev.flash L ∧ (L b).slots = pre ++ post)
    (hround : ∀ pre sl post s, I pre (sl :: post) s →
      wp (kvItemWalkRound G E ph b walker (slotAddr b pre)) (passes b I Q post) s)
    (hend : ∀ pre s t, I pre [] s → Same s t → Q (.inr (slotAddr b pre)) t)
    (hfail : ∀ pre s t, I pre [] s → Same s t → ¬E.MallocOk ph → Q (.inl (.outOfMemory, none)) t) :
    ∀ n pre post s, I pre post s → post.length < n → slotAddr b pre + kvItemHdrSize < kvBlkEnd b →
      wp (kvItemWalkLoop G E ph b walker n (slotAddr b pre)) Q s := by
  intro n
  induction n with
  | zero => intro pre post s _ hn; omega
  | succ n ih =>
    intro pre post s hinv hn hlt
    obtain ⟨L, hrep, hslots⟩ := hI pre post s hinv
    cases post with
    | nil =>
      rw [List.append_nil] at hslots
      subst hslots
      have hfree : kvItemHdrSize ≤ (L b).free := by
        simp only [slotAddr, kvBlkFirstItem, kvBlkEnd, Blk.free, Blk.used] at *
        omega
      refine wp.bind (wp_kvItemWalkRound_free hd hrep hb hfree
        (Q := fun r t => (r = .brk ∧ Same s t) ∨ (r = .ret .outOfMemory none ∧ Same s t ∧ ¬E.MallocOk ph))
        (fun t hs hm => .inr ⟨rfl, hs, hm⟩) (fun t hs => .inl ⟨rfl, hs⟩)) fun r t h => ?_
      rcases h with ⟨rfl, hs⟩ | ⟨rfl, hs, hm⟩
      · exact hend _ s t hinv hs
      · exact hfail _ s t hinv hs hm
    | cons sl post =>
      refine wp.bind (hround pre sl post s hinv) fun r t h => ?_
      cases r with
      | ret e i => exact h
      | brk => exact h.elim
      | next cur =>
        obtain ⟨pre', post', rfl, hlen, hinv'⟩ := h
        refine wp.ite (fun hlt' => ?_) fun hge => ?_
        · exact ih _ post' t hinv' (by simp only [List.length_cons] at hn; omega) hlt'
        · cases post' with
          | nil => exact hend _ t t hinv' (.refl t)
          | cons sl₂ post₂ =>
            obtain ⟨L', hrep', hslots'⟩ := hI _ _ t hinv'
            obtain ⟨hit, hfit⟩ := (hrep' b hb).2.split hslots'
            have := hit.size_ge
            simp only [slotAddr, kvBlkFirstItem, kvBlkEnd, kvItemHdrSize] at *
            omega

end Loop

end Ln882x.Kv
