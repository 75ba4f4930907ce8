import Mathlib.Data.Int.ModEq
import Ln882x.Kv.Collect

/-! Making room. `kv_blk_search_suitable` hands out a block with enough free
space, collecting dirty blocks one by one when only one fresh block is left.
Each round moves the live items of the first dirty block into the fresh one, and
the collected block is the fresh one of the next round. -/

namespace Ln882x.Kv

open Nor

/-! ### The ring of blocks -/

section Ring
variable {G : Geo} {p : ℕ → Bool}

/-- Block number `i` of the ring. -/
def Geo.ringAt (G : Geo) (i : ℕ) : ℕ := G.start + i % G.blocks * kvBlkSize

theorem Geo.ringAt_mem (i : ℕ) : G.ringAt i ∈ G.blks := Geo.mem_blks.mpr ⟨_, Nat.mod_lt _ G.pos, rfl⟩

theorem Geo.next_ringAt (i : ℕ) : G.next (G.ringAt i) = G.ringAt (i + 1) := by
  have hlt := Nat.mod_lt i G.pos
  have hsucc : (i + 1) % G.blocks = (i % G.blocks + 1) % G.blocks := (Nat.mod_add_mod i G.blocks 1).symm
  unfold Geo.next Geo.ringAt Geo.stop
  rw [hsucc]
  rcases Nat.lt_or_eq_of_le (Nat.succ_le_of_lt hlt) with h | h
  · rw [Nat.mod_eq_of_lt h, if_neg]
    · rw [Nat.succ_mul, Nat.add_assoc]
    · have := Nat.mul_le_mul_right kvBlkSize (Nat.succ_le_of_lt h)
      simp only [Nat.succ_mul, kvBlkSize] at *
      omega
  · rw [show i % G.blocks + 1 = G.blocks from h, Nat.mod_self, if_pos, Nat.zero_mul, Nat.add_zero]
    have := congrArg (· * kvBlkSize) h
    simp only [Nat.succ_mul] at this
    omega

theorem Geo.ringAt_ne {o j : ℕ} (hj : j + 1 < G.blocks) : G.ringAt (o + 1 + j) ≠ G.ringAt o := by
  intro heq
  have hmod : (o + 1 + j) % G.blocks = o % G.blocks := by
    simp only [Geo.ringAt, kvBlkSize] at heq
    omega
  have hdvd := (Nat.modEq_iff_dvd' (by omega)).mp hmod.symm
  rw [show o + 1 + j - o = j + 1 by omega] at hdvd
  have := Nat.le_of_dvd (by omega) hdvd
  omega

/-- The blocks passed from the one behind `o` on: the search gives the first that passes the
test, and goes round to `o` if none does. -/
theorem Geo.ringSearch_from (o n k : ℕ) (h : k + n = G.blocks) :
    (G.ringSearch p (G.ringAt o) n (G.ringAt (o + 1 + k)) = kvBlkInvalid ∧
      ∀ j, k ≤ j → j + 1 < G.blocks → p (G.ringAt (o + 1 + j)) = false) ∨
    (∃ j, k ≤ j ∧ j + 1 < G.blocks ∧
      G.ringSearch p (G.ringAt o) n (G.ringAt (o + 1 + k)) = G.ringAt (o + 1 + j) ∧
      p (G.ringAt (o + 1 + j)) = true) := by
  induction n generalizing k with
  | zero => exact .inl ⟨rfl, fun j hj hj' => by omega⟩
  | succ n ih =>
    unfold Geo.ringSearch
    by_cases hk : k + 1 = G.blocks
    · have horigin : G.ringAt (o + 1 + k) = G.ringAt o := by
        rw [Geo.ringAt, Nat.add_assoc, Nat.add_comm 1 k, hk, Nat.add_mod_right]
        rfl
      rw [if_pos horigin]
      exact .inl ⟨rfl, fun j hj hj' => by omega⟩
    · rw [if_neg (Geo.ringAt_ne (by omega))]
      cases hp : p (G.ringAt (o + 1 + k)) with
      | true =>
        rw [if_pos rfl]
        exact .inr ⟨k, le_refl k, by omega, rfl, hp⟩
      | false =>
        rw [if_neg (by simp), Geo.next_ringAt, Nat.add_assoc (o + 1) k 1]
        rcases ih (k + 1) (by omega) with ⟨hr, hall⟩ | ⟨j, hj, hj', hr, hpj⟩
        · refine .inl ⟨hr, fun j hj hj' => ?_⟩
          rcases Nat.eq_or_lt_of_le hj with rfl | hj
          · exact hp
          · exact hall j hj hj'
        · exact .inr ⟨j, by omega, hj', hr, hpj⟩

/-- `KV_BLK_FOR_EACH_FROM` reaches every block but the one it starts from. -/
theorem Geo.ringSearch_spec {o : ℕ} (ho : o ∈ G.blks) :
    (G.ringSearch p o G.blocks (G.next o) = kvBlkInvalid ∧ ∀ b ∈ G.blks, b ≠ o → p b = false) ∨
    (G.ringSearch p o G.blocks (G.next o) ∈ G.blks ∧ G.ringSearch p o G.blocks (G.next o) ≠ o ∧
      p (G.ringSearch p o G.blocks (G.next o)) = true) := by
  obtain ⟨i, hi, rfl⟩ := Geo.mem_blks.mp ho
  have hat : G.start + i * kvBlkSize = G.ringAt i := by rw [Geo.ringAt, Nat.mod_eq_of_lt hi]
  rw [hat, Geo.next_ringAt]
  rcases Geo.ringSearch_from (G := G) (p := p) i G.blocks 0 (by omega) with ⟨hr, hall⟩ | ⟨j, -, hj, hr, hp⟩
  · refine .inl ⟨hr, fun b hb hne => ?_⟩
    obtain ⟨k, hk, rfl⟩ := Geo.mem_blks.mp hb
    have hki : k ≠ i := by
      rintro rfl
      exact hne hat
    have hk' : G.start + k * kvBlkSize = G.ringAt k := by rw [Geo.ringAt, Nat.mod_eq_of_lt hk]
    rw [hk']
    rcases Nat.lt_or_gt_of_ne hki with hlt | hgt
    · have := hall (k + G.blocks - i - 1) (by omega) (by omega)
      rwa [show i + 1 + (k + G.blocks - i - 1) = k + G.blocks by omega, Geo.ringAt, Nat.add_mod_right] at this
    · have := hall (k - i - 1) (by omega) (by omega)
      rwa [show i + 1 + (k - i - 1) = k by omega] at this
  · refine .inr ?_
    rw [show i + 1 = i + 1 + 0 from rfl, hr]
    exact ⟨Geo.ringAt_mem _, Geo.ringAt_ne hj, hp⟩

theorem Geo.invalid_not_mem : kvBlkInvalid ∉ G.blks := by
  intro h
  have := Geo.blk_lt h
  simp only [kvBlkInvalid] at this
  omega

end Ring

variable {G : Geo} {E : Env} {x : Bool} {L : ℕ → Blk} {s : St} {src dst : ℕ}

/-! ### One collection -/

def markSrc (L : ℕ → Blk) (src : ℕ) : ℕ → Blk := Function.update L src { L src with src := true }

/-- The blocks between the driver calls of a whole collection. -/
inductive GcStates (L : ℕ → Blk) (src dst : ℕ) : (ℕ → Blk) → Prop
  | before : GcStates L src dst L
  | marked {L' : ℕ → Blk} : GcMid (markSrc L src) src dst L' → GcStates L src dst L'

theorem markSrc_liveSlots : (markSrc L src src).liveSlots = (L src).liveSlots := by
  simp [markSrc, Blk.liveSlots]

theorem collect_markSrc (hne : src ≠ dst) : collect (markSrc L src) src dst = collect L src dst := by
  have hd : markSrc L src dst = L dst := Function.update_of_ne hne.symm _ _
  rw [collect, markSrc_liveSlots, hd, markSrc, Function.update_comm hne, Function.update_idem, collect]

theorem collect_src : collect L src dst src = .formatted := by simp [collect]

theorem collect_dst (hne : src ≠ dst) :
    collect L src dst dst = { L dst with dst := true, done := true, slots := (L src).liveSlots } := by
  rw [collect, Function.update_of_ne hne.symm, Function.update_self]

theorem collect_other {y : ℕ} (h1 : y ≠ src) (h2 : y ≠ dst) : collect L src dst y = L y := by
  rw [collect, Function.update_of_ne h1, Function.update_of_ne h2]

theorem liveItems_collect_dst (hne : src ≠ dst) : (collect L src dst dst).liveItems = (L src).liveItems := by
  simp [collect_dst hne, Blk.liveItems, Blk.liveSlots, List.filter_filter]

theorem sane_collect (h : ∀ b ∈ G.blks, (L b).Sane) (hs : src ∈ G.blks) (ht : dst ∈ G.blks) (hne : src ≠ dst) :
    ∀ b ∈ G.blks, (collect L src dst b).Sane := by
  intro b hb
  by_cases h1 : b = src
  · rw [h1, collect_src]
    constructor <;> simp [Blk.formatted]
    constructor <;> simp [Blk.liveItems, Blk.liveSlots]
  · by_cases h2 : b = dst
    · rw [h2]
      have hd := h dst ht
      have hsrc := h src hs
      refine ⟨⟨?_, fun sl hsl hl => ?_⟩, ?_, ?_, ?_⟩
      · rw [liveItems_collect_dst hne]
        exact hsrc.sum
      · rw [collect_dst hne] at hsl
        have hlive := (List.mem_filter.mp hsl).2
        simp [Slot.live, hl] at hlive
      · rw [collect_dst hne]
        exact hd.fmt
      · rw [collect_dst hne]
        exact hd.src
      · rw [collect_dst hne]
        exact fun _ => rfl
    · rw [collect_other h1 h2]
      exact h b hb

theorem slots_of_hasDisc {k : Blk} (h : k.hasDisc = true) : k.slots ≠ [] := by
  intro h0
  rw [hasDisc_nil h0] at h
  contradiction

theorem wp_kvDoGc (hd : E.DrvOk) (hm : E.MallocOk .gc) (h : Core G x L s) (hs : src ∈ G.blks) (ht : dst ∈ G.blks)
    (hdirty : (L src).hasDisc = true) (hfresh : kvBlkIsFresh dst s.ctl = true)
    (hlive : x = true → (L src).liveSlots ≠ []) :
    wp (kvDoGc G E src dst false) (fun r t => r = .none ∧
      kvBlkFreeszGet dst t.ctl = kvBlkFreshSize - slotsSize (L src).liveSlots ∧ Core G x (collect L src dst) t ∧
      GcCtl s.ctl src dst t.ctl ∧ LSteps G (GcStates L src dst) s.dev t.dev) s := by
  have hempty := h.idx.fresh_empty ht hfresh
  have hslots := slots_of_hasDisc hdirty
  have hne : src ≠ dst := by
    rintro rfl
    exact hslots hempty
  have hsf : kvBlkIsFresh src s.ctl = false := by
    cases hf : kvBlkIsFresh src s.ctl with
    | true => exact absurd (h.idx.fresh_empty hs hf) hslots
    | false => rfl
  have hmark : Rep G ((Op.program (src + 8) (leBytes 8 kvBlkHdrGcSrc)).apply s.dev.flash) (markSrc L src) :=
    h.rep.markSrc hs
  unfold kvDoGc kvBlkMarkGcSrc kvFlashWunitModify
  refine wp.ite (fun h => by simp at h) fun _ => ?_
  refine (wp_kvFlashWrite hd _ _).bind fun r t ⟨hr, hdev, hctl⟩ => ?_
  subst hr
  refine wp.ite (fun h => absurd rfl h) fun _ => ?_
  have hrep : Rep G t.dev.flash (markSrc L src) := by rwa [hdev]
  have htidy : (markSrc L src src).Tidy := by
    obtain ⟨h1, h2⟩ := (h.sane src hs).toTidy
    rw [markSrc, Function.update_self]
    exact ⟨h1, h2⟩
  have hother : ∀ y, y ≠ src → markSrc L src y = L y := fun y hy => Function.update_of_ne hy _ _
  have hexc : IdxExcept G x (markSrc L src) t.ctl src := by
    rw [hctl]
    have he := h.idx.except hsf
    exact ⟨fun b hb hbs => by rw [hother b hbs]; exact he.blk b hb hbs, he.counts,
      fun hx b hb hbs => by rw [hother b hbs]; exact he.empty hx b hb hbs, he.srcFresh⟩
  refine (wp_kvDoGcCopy hd hs ht hne hm hrep htidy hexc (by rwa [hctl]) (by simpa [markSrc] using hslots)
    (by rwa [markSrc_liveSlots])).mono
    fun r u ⟨hr, hgc, hfreesz, hidx, hrep', hsteps⟩ => ?_
  rw [collect_markSrc hne] at hidx hrep'
  rw [markSrc_liveSlots] at hfreesz
  rw [hctl] at hgc
  refine ⟨hr, hfreesz, ⟨hrep', sane_collect h.sane hs ht hne, hidx⟩, hgc, ?_⟩
  · rw [hdev] at hsteps
    exact (LSteps.exec h.rep .before hmark (.marked .start)).trans (hsteps.mono fun _ => .marked)

/-! ### The first dirty block -/

def dirtyBlks (G : Geo) (L : ℕ → Blk) : List ℕ := G.blks.filter fun b => (L b).hasDisc

theorem wp_kvGcFirst (hd : E.DrvOk) (hm : E.MallocOk .gc) (h : Core G x L s) (ht : dst ∈ G.blks)
    (hfresh : kvBlkIsFresh dst s.ctl = true) {l : List ℕ} (hl : ∀ b ∈ l, b ∈ G.blks)
    (hlive : x = true → ∀ b rest, l.filter (fun b => (L b).hasDisc) = b :: rest → (L b).liveSlots ≠ []) :
    wp (kvGcFirst G E dst l) (fun r t =>
      match l.filter fun b => (L b).hasDisc with
      | [] => r = false ∧ t = s
      | src :: _ => r = true ∧ Core G x (collect L src dst) t ∧ GcCtl s.ctl src dst t.ctl ∧
        LSteps G (GcStates L src dst) s.dev t.dev) s := by
  induction l with
  | nil => exact ⟨rfl, rfl⟩
  | cons b l ih =>
    have hb := hl b (by simp)
    have hdb := h.idx.dirty_iff hb
    refine wp_getCtl ?_
    cases hdisc : (L b).hasDisc with
    | true =>
      rw [hdisc] at hdb
      simp only [List.filter_cons, hdisc, if_true] at hlive ⊢
      refine wp.ite (fun _ => ?_) fun hn => absurd hdb hn
      refine (wp_kvDoGc hd hm h hb ht hdisc hfresh fun hx => hlive hx b _ rfl).bind fun r t ⟨hr, _, hrest⟩ => ?_
      subst hr
      exact wp.pure ⟨rfl, hrest⟩
    | false =>
      rw [hdisc] at hdb
      simp only [List.filter_cons, hdisc, Bool.false_eq_true, if_false] at hlive ⊢
      refine wp.ite (fun hy => by simp [hdb] at hy) fun _ => ?_
      exact ih (fun y hy => hl y (by simp [hy])) hlive

/-- `kv_gc` with a fresh block to collect into. -/
theorem wp_kvGc (hd : E.DrvOk) (hm : E.MallocOk .gc) (h : Inv G x L s)
    (ht : kvBlkNextFresh G s.ctl ∈ G.blks) (hfresh : kvBlkIsFresh (kvBlkNextFresh G s.ctl) s.ctl = true)
    (hlive : x = true → ∀ b rest, dirtyBlks G L = b :: rest → (L b).liveSlots ≠ []) :
    wp (kvGc G E) (fun r t =>
      match dirtyBlks G L with
      | [] => r = .gcNothing ∧ t = s
      | src :: _ => r = .none ∧ Inv G x (collect L src (kvBlkNextFresh G s.ctl)) t ∧
        (∃ c, GcCtl s.ctl src (kvBlkNextFresh G s.ctl) c ∧ t.ctl = { c with workspace := kvBlkNextFresh G s.ctl }) ∧
        LSteps G (GcStates L src (kvBlkNextFresh G s.ctl)) s.dev t.dev) s := by
  unfold kvGc
  dsimp only
  refine wp_getCtl ?_
  refine wp.ite (fun hh => by simp [h.idx.counts.hanging] at hh) fun _ => ?_
  refine wp.bind (P := fun r t => r = false ∧ t = s) ⟨rfl, rfl⟩ ?_
  rintro r t ⟨rfl, rfl⟩
  refine wp_getCtl ?_
  refine wp.ite (fun hinv => ?_) fun _ => ?_
  · rw [hinv] at ht
    exact absurd ht Geo.invalid_not_mem
  · refine (wp_kvGcFirst hd hm h.toCore ht hfresh (l := G.blks) (fun _ hb => hb) hlive).bind fun r t hr => ?_
    rw [dirtyBlks]
    split at hr
    next heq =>
      obtain ⟨rfl, rfl⟩ := hr
      exact wp.pure ⟨rfl, rfl⟩
    next src rest heq =>
      obtain ⟨rfl, hinv, hgc, hsteps⟩ := hr
      exact (wp_idx _).bind fun _ u ⟨hdev, hctl⟩ => wp.pure ⟨rfl, hinv.inv hdev ht hctl, ⟨t.ctl, hgc, hctl⟩, by rwa [hdev]⟩

/-! ### Several collections -/

/-- The blocks after collecting `ds` one after the other, each into the one before it, and the
first into `fr`. -/
def collectAll (L : ℕ → Blk) (fr : ℕ) : List ℕ → ℕ → Blk
  | [] => L
  | d :: ds => collectAll (collect L d fr) d ds

/-- A list up to its first element with a property. -/
def upTo (p : ℕ → Bool) : List ℕ → List ℕ
  | [] => []
  | d :: ds => if p d then [d] else d :: upTo p ds

/-- The free size of a block that got the live items of `k`. -/
def Blk.packedFree (k : Blk) : ℕ := kvBlkFreshSize - slotsSize k.liveSlots

/-- The dirty blocks that are collected to make room: up to the first that makes enough. -/
def gcBlks (G : Geo) (L : ℕ → Blk) (size : ℕ) : List ℕ :=
  upTo (fun d => decide (size ≤ (L d).packedFree)) (dirtyBlks G L)

/-- The blocks between the driver calls of several collections. -/
inductive RoundStates : (ℕ → Blk) → ℕ → List ℕ → (ℕ → Blk) → Prop
  | here {L : ℕ → Blk} {fr : ℕ} {ds : List ℕ} : RoundStates L fr ds L
  | now {L L' : ℕ → Blk} {fr d : ℕ} {ds : List ℕ} : GcStates L d fr L' → RoundStates L fr (d :: ds) L'
  | later {L L' : ℕ → Blk} {fr d : ℕ} {ds : List ℕ} :
      RoundStates (collect L d fr) d ds L' → RoundStates L fr (d :: ds) L'

theorem RoundStates.last {L : ℕ → Blk} {fr : ℕ} {ds : List ℕ} : RoundStates L fr ds (collectAll L fr ds) := by
  induction ds generalizing L fr with
  | nil => exact .here
  | cons d ds ih => exact .later ih

section Dirty
variable {fr : ℕ} {rest : List ℕ}

theorem mem_dirtyBlks {d : ℕ} : d ∈ dirtyBlks G L ↔ d ∈ G.blks ∧ (L d).hasDisc = true := List.mem_filter

theorem dirtyBlks_nodup : (dirtyBlks G L).Nodup := G.nodup_blks.filter _

/-- Collecting the first dirty block leaves the others dirty. -/
theorem dirtyBlks_collect (hd : dirtyBlks G L = src :: rest) (he : (L fr).slots = []) :
    dirtyBlks G (collect L src fr) = rest := by
  have hmem : src ∈ dirtyBlks G L := by simp [hd]
  have hne : src ≠ fr := by
    rintro rfl
    exact slots_of_hasDisc (mem_dirtyBlks.mp hmem).2 he
  have hnd : src ∉ rest := by
    have := dirtyBlks_nodup (G := G) (L := L)
    rw [hd] at this
    exact (List.nodup_cons.mp this).1
  have hcol : ∀ b, (collect L src fr b).hasDisc = ((L b).hasDisc && decide (b ≠ src)) := by
    intro b
    by_cases h1 : b = src
    · rw [h1, collect_src, hasDisc_nil rfl]
      simp
    · by_cases h2 : b = fr
      · rw [h2, collect_dst hne, hasDisc_liveSlots (k := L src) rfl, hasDisc_nil he]
        rfl
      · rw [collect_other h1 h2]
        simp [h1]
  have hfil : dirtyBlks G (collect L src fr) = (dirtyBlks G L).filter fun b => decide (b ≠ src) := by
    simp only [dirtyBlks, hcol, List.filter_filter, Bool.and_comm]
  rw [hfil, hd, List.filter_cons, if_neg (by simp), List.filter_eq_self]
  intro b hb
  simp only [ne_eq, decide_eq_true_eq]
  rintro rfl
  exact hnd hb

/-- The dirty blocks left keep their content. -/
theorem collect_dirty (hd : dirtyBlks G L = src :: rest) (he : (L fr).slots = []) {b : ℕ} (hb : b ∈ rest) :
    collect L src fr b = L b := by
  have hnd := dirtyBlks_nodup (G := G) (L := L)
  have hmem : b ∈ dirtyBlks G L := by simp [hd, hb]
  rw [hd] at hnd
  refine collect_other ?_ ?_
  · rintro rfl
    exact (List.nodup_cons.mp hnd).1 hb
  · rintro rfl
    exact slots_of_hasDisc (mem_dirtyBlks.mp hmem).2 he

theorem upTo_congr {p q : ℕ → Bool} {l : List ℕ} (h : ∀ b ∈ l, p b = q b) : upTo p l = upTo q l := by
  induction l with
  | nil => rfl
  | cons b l ih =>
    unfold upTo
    rw [h b (by simp), ih fun y hy => h y (by simp [hy])]

theorem upTo_sublist {p : ℕ → Bool} {l : List ℕ} : (upTo p l).Sublist l := by
  induction l with
  | nil => exact List.Sublist.refl _
  | cons b l ih =>
    unfold upTo
    split_ifs
    · simp
    · exact ih.cons_cons b

/-- The collections still to be done after the first. -/
theorem gcBlks_cons {size : ℕ} (hd : dirtyBlks G L = src :: rest) (he : (L fr).slots = []) :
    gcBlks G L size = src :: (if size ≤ (L src).packedFree then [] else gcBlks G (collect L src fr) size) := by
  unfold gcBlks
  rw [hd, dirtyBlks_collect hd he]
  have hcongr : upTo (fun d => decide (size ≤ (collect L src fr d).packedFree)) rest =
      upTo (fun d => decide (size ≤ (L d).packedFree)) rest :=
    upTo_congr fun b hb => by rw [collect_dirty hd he hb]
  rw [hcongr, upTo]
  by_cases h : size ≤ (L src).packedFree
  · rw [if_pos (by simpa using h), if_pos h]
  · rw [if_neg (by simpa using h), if_neg h]

end Dirty

/-! ### The only fresh block -/

/-- `fr` is the only block flagged fresh. -/
structure OnlyFresh (G : Geo) (c : Ctl) (fr : ℕ) : Prop where
  mem : fr ∈ G.blks
  fresh : kvBlkIsFresh fr c = true
  only : ∀ y ∈ G.blks, kvBlkIsFresh y c = true → y = fr

theorem CountsOk.onlyFresh {c : Ctl} {fr : ℕ} (h : CountsOk G x c) (h1 : c.numFresh = 1) (hb : fr ∈ G.blks)
    (hf : kvBlkIsFresh fr c = true) : OnlyFresh G c fr := by
  rw [h.fresh, numFlagged, List.countP_eq_length_filter, List.length_eq_one_iff] at h1
  obtain ⟨a, ha⟩ := h1
  have hmem : ∀ y ∈ G.blks, kvBlkIsFresh y c = true → y = a := by
    intro y hy hyf
    have : y ∈ G.blks.filter fun b => (kvBlkFlagsGet b c).fresh := List.mem_filter.mpr ⟨hy, hyf⟩
    rw [ha] at this
    exact List.mem_singleton.mp this
  exact ⟨hb, hf, fun y hy hyf => (hmem y hy hyf).trans (hmem fr hb hf).symm⟩

theorem OnlyFresh.numFresh {c : Ctl} {fr : ℕ} (h : OnlyFresh G c fr) (hc : CountsOk G x c) : c.numFresh = 1 := by
  rw [hc.fresh, numFlagged, ← List.count_eq_one_of_mem G.nodup_blks h.mem, List.count]
  refine List.countP_congr fun y hy => ?_
  constructor
  · intro hyf
    simp [h.only y hy hyf]
  · intro hyf
    rw [beq_iff_eq.mp hyf]
    exact h.fresh

theorem OnlyFresh.nextFresh {c : Ctl} {fr : ℕ} (h : OnlyFresh G c fr) (hws : c.workspace ∈ G.blks)
    (hne : c.workspace ≠ fr) : kvBlkNextFresh G c = fr := by
  rcases Geo.ringSearch_spec (p := (kvBlkIsFresh · c)) hws with ⟨-, hall⟩ | ⟨hm, -, hp⟩
  · have := hall fr h.mem hne.symm
    rw [h.fresh] at this
    contradiction
  · exact h.only _ hm hp

theorem Indexed.freesz_ge {k : Blk} {d : BlkDetail} {size : ℕ} (h : Indexed k d) (hs : kvItemHdrSize < size) :
    size ≤ d.freeSize ↔ size ≤ k.free := by
  rcases h.free with hf | ⟨hf, h0⟩
  · rw [hf]
  · omega

/-! ### Searching a block with room -/

/-- Only one fresh block is left and no other block has room. -/
structure Stuck (G : Geo) (L : ℕ → Blk) (c : Ctl) (size fr : ℕ) : Prop extends OnlyFresh G c fr where
  room : ∀ y ∈ G.blks, y ≠ fr → (L y).free < size
  ws : c.workspace ≠ fr

/-- Nothing is left to collect, and no block but one has room. -/
def Exhausted (G : Geo) (L : ℕ → Blk) (size r : ℕ) : Prop :=
  dirtyBlks G L = [] ∧ ∀ y ∈ G.blks, y ≠ r → (L y).free < size

theorem free_collect_dst (hne : src ≠ dst) : (collect L src dst dst).free = (L src).packedFree := by
  simp only [Blk.free, Blk.used, Blk.packedFree, collect_dst hne, kvBlkFreshSize]
  omega

theorem Indexed.not_fresh {k : Blk} {d : BlkDetail} (h : Indexed k d) (hi : d.flags.inuse = true) :
    d.flags.fresh = false := by
  cases hf : d.flags.fresh with
  | true =>
    have := (h.fresh hf).2
    rw [hi] at this
    contradiction
  | false => rfl

/-- `kv_blk_search_inuse` finds a block with room unless there is none behind the workspace. -/
theorem Inv.searchInuse {size : ℕ} (h : Inv G x L s) (hs : kvItemHdrSize < size) :
    (kvBlkSearchInuse G s.ctl size = kvBlkInvalid ∧
      ∀ y ∈ G.blks, y ≠ s.ctl.workspace → kvBlkIsFresh y s.ctl = false → (L y).free < size) ∨
    ∃ b ∈ G.blks, kvBlkSearchInuse G s.ctl size = b ∧ kvBlkIsFresh b s.ctl = false ∧ size ≤ (L b).free := by
  rcases Geo.ringSearch_spec
    (p := fun blk => kvBlkIsInuse blk s.ctl && decide (kvBlkFreeszGet blk s.ctl ≥ size)) h.ws with
    ⟨hr, hall⟩ | ⟨hm, -, hp⟩
  · refine .inl ⟨hr, fun y hy hne hnf => ?_⟩
    have hk := h.idx.blk y hy
    by_contra hge
    have hin : kvBlkIsInuse y s.ctl = true := (hk.inuse hnf).mpr (by omega)
    have hfree : size ≤ kvBlkFreeszGet y s.ctl := (hk.freesz_ge hs).mpr (by omega)
    simpa [hin, hfree] using hall y hy hne
  · simp only [Bool.and_eq_true, decide_eq_true_eq] at hp
    have hk := h.idx.blk _ hm
    exact .inr ⟨_, hm, rfl, hk.not_fresh hp.1, (hk.freesz_ge hs).mp hp.2⟩

/-- After a collection, the collected block is the only fresh one. -/
theorem OnlyFresh.collected {c c' : Ctl} {fr : ℕ} (h : OnlyFresh G c fr) (hs : src ∈ G.blks)
    (hgc : GcCtl c src fr c') : OnlyFresh G c' src := by
  refine ⟨hs, hgc.srcFresh, fun y hy hyf => ?_⟩
  by_contra hne
  by_cases h2 : y = fr
  · rw [h2, hgc.dstFresh] at hyf
    contradiction
  · rw [kvBlkIsFresh, kvBlkFlagsGet, hgc.other y hne h2] at hyf
    exact h2 (h.only y hy hyf)

section Search
variable {size : ℕ} (hd : E.DrvOk) (hm : E.MallocOk .gc) (hsz : kvItemHdrSize < size) (hle : size ≤ kvBlkFreshSize)
include hd hm hsz hle

/-- The loop of `kv_blk_search_suitable` once it has to collect. -/
theorem wp_kvBlkSearchLoop_stuck (n : ℕ) {L : ℕ → Blk} {s : St} {fr : ℕ} (h : Inv G x L s)
    (hst : Stuck G L s.ctl size fr) (hn : (dirtyBlks G L).length < n)
    (hlive : x = true → ∀ d ∈ gcBlks G L size, (L d).liveSlots ≠ []) :
    wp (kvBlkSearchLoop G E size n) (fun r t => Inv G x (collectAll L fr (gcBlks G L size)) t ∧
      LSteps G (RoundStates L fr (gcBlks G L size)) s.dev t.dev ∧ r ∈ G.blks ∧ t.ctl.workspace = r ∧
      size ≤ (collectAll L fr (gcBlks G L size) r).free ∧ (∃ fr', OnlyFresh G t.ctl fr') ∧
      (kvBlkIsFresh r t.ctl = true → Exhausted G (collectAll L fr (gcBlks G L size)) size r)) s := by
  induction n generalizing L s fr with
  | zero => omega
  | succ n ih =>
    have hnum := hst.numFresh h.idx.counts
    have hempty := h.idx.fresh_empty hst.mem hst.fresh
    have hwsroom : ¬kvBlkFreeszGet s.ctl.workspace s.ctl ≥ size := by
      have := hst.room _ h.ws hst.ws
      rw [ge_iff_le, kvBlkFreeszGet, (h.idx.blk _ h.ws).freesz_ge hsz]
      omega
    have hinuse : kvBlkSearchInuse G s.ctl size = kvBlkInvalid := by
      rcases h.searchInuse hsz with ⟨hr, -⟩ | ⟨b, hb, -, hnf, hge⟩
      · exact hr
      · have := hst.room b hb (by rintro rfl; simp [hst.fresh] at hnf)
        omega
    have hnext := hst.nextFresh h.ws hst.ws
    unfold kvBlkSearchLoop
    dsimp only
    refine wp_getCtl ?_
    refine wp.ite (fun hge => absurd hge hwsroom) fun _ => ?_
    refine wp.ite (fun hne => absurd hinuse hne) fun _ => ?_
    refine wp.ite (fun hlt => by omega) fun _ => ?_
    refine wp.ite (fun hgt => by omega) fun _ => ?_
    have hgc := wp_kvGc hd hm h (by rw [hnext]; exact hst.mem) (by rw [hnext]; exact hst.fresh)
      fun hx b rest hb => hlive hx b (by rw [gcBlks_cons hb hempty]; simp)
    rw [hnext] at hgc
    refine hgc.bind fun r t hr => ?_
    cases hdirty : dirtyBlks G L with
    | nil =>
      rw [hdirty] at hr
      obtain ⟨rfl, rfl⟩ := hr
      refine wp.ite (fun _ => ?_) fun hno => absurd (by decide) hno
      refine wp_getCtl ?_
      rw [hnext]
      have hgcb : gcBlks G L size = [] := by rw [gcBlks, hdirty, upTo]
      rw [hgcb]
      refine (wp_idx _).bind ?_
      rintro _ u ⟨hdev, hctl⟩
      refine wp.pure ⟨?_, ?_, hst.mem, ?_, ?_, ⟨fr, ?_⟩, fun _ => ⟨hdirty, hst.room⟩⟩
      · exact h.toCore.inv hdev hst.mem hctl
      · rw [hdev]
        exact LSteps.still (.refl _) h.rep .here
      · rw [hctl]
        rfl
      · rw [collectAll, free_nil hempty]
        exact hle
      · rw [hctl]
        exact ⟨hst.mem, hst.fresh, hst.only⟩
    | cons src rest =>
      rw [hdirty] at hr hn
      obtain ⟨rfl, hinv, ⟨c, hgcc, htctl⟩, hsteps⟩ := hr
      refine wp.ite (fun hno => absurd rfl hno) fun _ => ?_
      have hmem : src ∈ dirtyBlks G L := by simp [hdirty]
      obtain ⟨hsrc, hdisc⟩ := mem_dirtyBlks.mp hmem
      have hne : src ≠ fr := by
        rintro rfl
        exact slots_of_hasDisc hdisc hempty
      have honly : OnlyFresh G t.ctl src := by
        obtain ⟨h1, h2, h3⟩ := hst.toOnlyFresh.collected hsrc hgcc
        rw [htctl]
        exact ⟨h1, h2, h3⟩
      have hws : t.ctl.workspace = fr := by rw [htctl]
      have hfrf : kvBlkIsFresh fr t.ctl = false := by
        cases hf : kvBlkIsFresh fr t.ctl with
        | true => exact absurd (honly.only fr hst.mem hf).symm hne
        | false => rfl
      have hfree : (collect L src fr fr).free = (L src).packedFree := free_collect_dst hne
      have hlater : LSteps G (RoundStates L fr (gcBlks G L size)) s.dev t.dev := by
        rw [gcBlks_cons hdirty hempty]
        exact hsteps.mono fun _ => .now
      by_cases hroom : size ≤ (L src).packedFree
      · have hgcb : gcBlks G L size = [src] := by rw [gcBlks_cons hdirty hempty, if_pos hroom]
        obtain ⟨m, rfl⟩ : ∃ m, n = m + 1 := ⟨n - 1, by simp only [List.length_cons] at hn; omega⟩
        unfold kvBlkSearchLoop
        dsimp only
        refine wp_getCtl ?_
        have hwsr : kvBlkFreeszGet t.ctl.workspace t.ctl ≥ size := by
          rw [hws, ge_iff_le, kvBlkFreeszGet, (hinv.idx.blk _ hst.mem).freesz_ge hsz, hfree]
          exact hroom
        refine wp.ite (fun _ => ?_) fun hno => absurd hwsr hno
        rw [hws]
        refine wp.pure ⟨?_, hlater, hst.mem, hws, ?_, ⟨src, honly⟩, fun hf => ?_⟩
        · rw [hgcb]
          exact hinv
        · rw [hgcb]
          exact hroom.trans hfree.ge
        · rw [hfrf] at hf
          contradiction
      · have hgcb : gcBlks G L size = src :: gcBlks G (collect L src fr) size := by
          rw [gcBlks_cons hdirty hempty, if_neg hroom]
        have hst' : Stuck G (collect L src fr) t.ctl size src := by
          refine ⟨honly, fun y hy hne' => ?_, by rw [hws]; exact hne.symm⟩
          by_cases h2 : y = fr
          · rw [h2, hfree]
            omega
          · rw [collect_other hne' h2]
            exact hst.room y hy h2
        have hlive' : x = true → ∀ d ∈ gcBlks G (collect L src fr) size, (collect L src fr d).liveSlots ≠ [] := by
          intro hx d hd'
          have hdr : d ∈ rest := by
            rw [← dirtyBlks_collect hdirty hempty]
            exact upTo_sublist.subset hd'
          rw [collect_dirty hdirty hempty hdr]
          exact hlive hx d (by rw [hgcb]; simp [hd'])
        refine (ih hinv hst' ?_ hlive').mono ?_
        · rw [dirtyBlks_collect hdirty hempty]
          simp only [List.length_cons] at hn
          omega
        · rintro r u ⟨hu, hsteps', hrest⟩
          rw [hgcb] at hlater ⊢
          exact ⟨hu, hlater.trans (hsteps'.mono fun _ => .later), hrest⟩

end Search

/-- The next save of an item of a size has to collect. -/
def NeedsGc (G : Geo) (c : Ctl) (size : ℕ) : Prop :=
  c.numFresh = 1 ∧ kvBlkFreeszGet c.workspace c < size ∧ kvBlkSearchInuse G c size = kvBlkInvalid

instance (G : Geo) (c : Ctl) (size : ℕ) : Decidable (NeedsGc G c size) := inferInstanceAs (Decidable (_ ∧ _))

theorem NeedsGc.stuck {size : ℕ} (hgc : NeedsGc G s.ctl size) (hsz : kvItemHdrSize < size)
    (hle : size ≤ kvBlkFreshSize) (h : Inv G x L s) : Stuck G L s.ctl size (kvBlkNextFresh G s.ctl) := by
  obtain ⟨h1, hws, hinuse⟩ := hgc
  have hwsroom : (L s.ctl.workspace).free < size := by
    by_contra hno
    have := ((h.idx.blk _ h.ws).freesz_ge hsz).mpr (by omega)
    rw [kvBlkFreeszGet] at hws
    omega
  have hwsf : kvBlkIsFresh s.ctl.workspace s.ctl = false := by
    cases hf : kvBlkIsFresh s.ctl.workspace s.ctl with
    | true =>
      rw [free_nil (h.idx.fresh_empty h.ws hf)] at hwsroom
      omega
    | false => rfl
  obtain ⟨fr, hfr, hfresh⟩ : ∃ fr ∈ G.blks, kvBlkIsFresh fr s.ctl = true := by
    rw [h.idx.counts.fresh] at h1
    exact List.countP_pos_iff.mp (show 0 < numFlagged G Flags.fresh s.ctl by omega)
  have honly := h.idx.counts.onlyFresh h1 hfr hfresh
  have hwsne : s.ctl.workspace ≠ fr := by
    rintro rfl
    rw [hwsf] at hfresh
    contradiction
  rw [honly.nextFresh h.ws hwsne]
  refine ⟨honly, fun y hy hne => ?_, hwsne⟩
  by_cases hyw : y = s.ctl.workspace
  · rw [hyw]
    exact hwsroom
  · have hyf : kvBlkIsFresh y s.ctl = false := by
      cases hf : kvBlkIsFresh y s.ctl with
      | true => exact absurd (honly.only y hy hf) hne
      | false => rfl
    rcases h.searchInuse hsz with ⟨-, hall⟩ | ⟨b, hb, hr, -⟩
    · exact hall y hy hyw hyf
    · rw [hinuse] at hr
      rw [← hr] at hb
      exact absurd hb Geo.invalid_not_mem

/-- The blocks that are collected to save an item of a size. -/
def gcList (G : Geo) (L : ℕ → Blk) (c : Ctl) (size : ℕ) : List ℕ := if NeedsGc G c size then gcBlks G L size else []

/-- The blocks after the collections needed to save an item of a size. -/
def madeRoom (G : Geo) (L : ℕ → Blk) (c : Ctl) (size : ℕ) : ℕ → Blk :=
  collectAll L (kvBlkNextFresh G c) (gcList G L c size)

/-- The chosen block has room and is the workspace. If it is fresh, another one is left, or it
was the workspace before, or nothing else has room. -/
structure Chosen (G : Geo) (tight : Bool) (L : ℕ → Blk) (s : St) (size r : ℕ) (t : St) : Prop where
  inv : Inv G tight (madeRoom G L s.ctl size) t
  steps : LSteps G (RoundStates L (kvBlkNextFresh G s.ctl) (gcList G L s.ctl size)) s.dev t.dev
  mem : r ∈ G.blks
  ws : t.ctl.workspace = r
  room : size ≤ (madeRoom G L s.ctl size r).free
  numFresh : t.ctl.numFresh = s.ctl.numFresh
  fresh : kvBlkIsFresh r t.ctl = true → 2 ≤ t.ctl.numFresh ∨ r = s.ctl.workspace ∨
    Exhausted G (madeRoom G L s.ctl size) size r

/-- A block is chosen without collecting. -/
theorem Chosen.direct {size r : ℕ} {t : St} (h : Inv G x L s) (hn : ¬NeedsGc G s.ctl size) (hr : r ∈ G.blks)
    (hroom : size ≤ (L r).free) (hdev : t.dev = s.dev) (hctl : t.ctl = { s.ctl with workspace := r })
    (hfresh : kvBlkIsFresh r s.ctl = true → 2 ≤ s.ctl.numFresh ∨ r = s.ctl.workspace) :
    Chosen G x L s size r t := by
  have hlist : gcList G L s.ctl size = [] := if_neg hn
  have hmade : madeRoom G L s.ctl size = L := by rw [madeRoom, hlist, collectAll]
  refine ⟨?_, ?_, hr, by rw [hctl], by rwa [hmade], by rw [hctl], fun hf => ?_⟩
  · rw [hmade]
    exact h.toCore.inv hdev hr hctl
  · rw [hdev]
    exact LSteps.still (.refl _) h.rep .here
  · rw [hctl] at hf ⊢
    rcases hfresh hf with h2 | hws
    · exact .inl h2
    · exact .inr (.inl hws)

/-- `kv_blk_search_suitable` fails only when no block is fresh, and then changes nothing. -/
theorem wp_kvBlkSearchSuitable {size : ℕ} (hd : E.DrvOk) (hm : E.MallocOk .gc) (hsz : kvItemHdrSize < size)
    (hle : size ≤ kvBlkFreshSize) (h : Inv G x L s)
    (hlive : x = true → ∀ d ∈ gcList G L s.ctl size, (L d).liveSlots ≠ []) :
    wp (kvBlkSearchSuitable G E size) (fun r t =>
      r = kvBlkInvalid ∧ t = s ∧ s.ctl.numFresh = 0 ∨ Chosen G x L s size r t) s := by
  have hwsne : s.ctl.workspace ≠ kvBlkInvalid := fun h0 => Geo.invalid_not_mem (by rw [← h0]; exact h.ws)
  have hself : { s.ctl with workspace := s.ctl.workspace } = s.ctl := rfl
  unfold kvBlkSearchSuitable
  refine wp_getCtl ?_
  refine wp.ite (fun h0 => wp.pure (.inl ⟨rfl, rfl, ?_⟩)) fun _ => ?_
  · simp only [kvNoWriteableBlk, decide_eq_true_eq] at h0
    exact h0.2
  refine wp.ite (fun h0 => absurd h0 hwsne) fun _ => ?_
  by_cases hgc : NeedsGc G s.ctl size
  · have hst := hgc.stuck hsz hle h
    have hlist : gcList G L s.ctl size = gcBlks G L size := if_pos hgc
    have hlen : (dirtyBlks G L).length < 2 * G.blocks + 1 := by
      have := List.length_filter_le (fun b => (L b).hasDisc) G.blks
      rw [G.length_blks] at this
      simp only [dirtyBlks]
      omega
    rw [hlist] at hlive
    refine (wp_kvBlkSearchLoop_stuck hd hm hsz hle _ h hst hlen hlive).mono ?_
    rintro r t ⟨hinv, hsteps, hr, hws', hroom, ⟨fr', hfr'⟩, hex⟩
    right
    have hmade : madeRoom G L s.ctl size = collectAll L (kvBlkNextFresh G s.ctl) (gcBlks G L size) := by
      rw [madeRoom, hlist]
    refine ⟨by rwa [hmade], by rwa [hlist], hr, hws', by rwa [hmade], ?_, fun hf => .inr (.inr ?_)⟩
    · rw [hfr'.numFresh hinv.idx.counts, hgc.1]
    · rw [hmade]
      exact hex hf
  · unfold kvBlkSearchLoop
    dsimp only
    refine wp_getCtl ?_
    refine wp.ite (fun hge => ?_) fun hlt => ?_
    · refine wp.pure (.inr (.direct h hgc h.ws ?_ rfl hself.symm fun _ => .inr rfl))
      exact ((h.idx.blk _ h.ws).freesz_ge hsz).mp hge
    · rcases h.searchInuse hsz with ⟨hr, hall⟩ | ⟨b, hb, hr, hnf, hroom⟩
      · refine wp.ite (fun hne => absurd hr hne) fun _ => ?_
        refine wp.ite (fun h0 => wp.pure (.inl ⟨rfl, rfl, by omega⟩)) fun hn1 => ?_
        refine wp.ite (fun hn2 => ?_) fun hn2 => absurd ⟨by omega, by omega, hr⟩ hgc
        obtain ⟨hmem, hnf⟩ : kvBlkNextFresh G s.ctl ∈ G.blks ∧ kvBlkIsFresh (kvBlkNextFresh G s.ctl) s.ctl = true := by
          rcases Geo.ringSearch_spec (p := (kvBlkIsFresh · s.ctl)) h.ws with ⟨-, hno⟩ | ⟨hm, -, hp⟩
          · have hwsf : s.ctl.numFresh ≤ 1 := by
              rw [h.idx.counts.fresh, numFlagged, ← List.count_eq_one_of_mem G.nodup_blks h.ws, List.count]
              refine List.countP_mono_left fun y hy hyf => ?_
              by_contra hne
              have := hno y hy (by simpa using hne)
              rw [kvBlkIsFresh, hyf] at this
              contradiction
            omega
          · exact ⟨hm, hp⟩
        refine (wp_idx _).bind ?_
        rintro _ u ⟨hdev, hctl⟩
        refine wp.pure (.inr (.direct h hgc hmem ?_ hdev hctl fun _ => .inl (by omega)))
        rw [free_nil (h.idx.fresh_empty hmem hnf)]
        exact hle
      · have hbne : b ≠ kvBlkInvalid := by
          rintro rfl
          exact Geo.invalid_not_mem hb
        rw [hr]
        refine wp.ite (fun _ => ?_) fun hno => absurd (by simpa using hno) hbne
        refine (wp_idx _).bind ?_
        rintro _ u ⟨hdev, hctl⟩
        refine wp.pure (.inr (.direct h hgc hb hroom hdev hctl fun hf => ?_))
        rw [hnf] at hf
        contradiction

end Ln882x.Kv
