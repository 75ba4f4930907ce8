import Ln882x.Nor.Keyed
import Ln882x.Kv.Space

/-! The items a store holds. Collections move items and change nothing about
which there are. -/

namespace Ln882x.Kv

open Nor

/-- The live items of all blocks. -/
def allItems (G : Geo) (L : ℕ → Blk) : List Item := G.blks.flatMap fun b => (L b).liveItems

/-- The blocks hold the entries of a map, each once. -/
abbrev Holds (G : Geo) (L : ℕ → Blk) (m : Bytes → Option Bytes) : Prop := Keyed Item.key Item.val (allItems G L) m

variable {G : Geo} {L : ℕ → Blk} {b : ℕ}

theorem mem_allItems {it : Item} : it ∈ allItems G L ↔ ∃ b ∈ G.blks, it.slot ∈ (L b).slots := by
  simp only [allItems, List.mem_flatMap, Blk.mem_liveItems]

/-! ### Changes of one block -/

theorem allItems_update (hb : b ∈ G.blks) (k : Blk) :
    (allItems G (Function.update L b k)).Perm (k.liveItems ++ (G.blks.erase b).flatMap fun y => (L y).liveItems) := by
  have hp := (List.perm_cons_erase hb).flatMap_right fun y => (Function.update L b k y).liveItems
  rw [List.flatMap_cons, Function.update_self] at hp
  have hrest : ((G.blks.erase b).flatMap fun y => (Function.update L b k y).liveItems) =
      (G.blks.erase b).flatMap fun y => (L y).liveItems := by
    apply List.flatMap_congr
    intro y hy
    rw [Function.update_of_ne]
    rintro rfl
    exact G.nodup_blks.not_mem_erase hy
  rw [hrest] at hp
  exact hp

theorem allItems_self (hb : b ∈ G.blks) :
    (allItems G L).Perm ((L b).liveItems ++ (G.blks.erase b).flatMap fun y => (L y).liveItems) := by
  have := allItems_update (L := L) hb (L b)
  rwa [Function.update_eq_self] at this

theorem liveItems_append (k : Blk) (l m : List Slot) : ({ k with slots := l ++ m } : Blk).liveItems =
    ({ k with slots := l } : Blk).liveItems ++ ({ k with slots := m } : Blk).liveItems := by
  simp [Blk.liveItems, Blk.liveSlots]

theorem allItems_addSlot (hb : b ∈ G.blks) (it : Item) :
    (allItems G (addSlot L b it.slot)).Perm (it :: allItems G L) := by
  have hlive : ({ L b with slots := (L b).slots ++ [it.slot] } : Blk).liveItems = (L b).liveItems ++ [it] := by
    rw [liveItems_append]
    simp [Blk.liveItems, Blk.liveSlots, Item.slot, Slot.live]
  have h := allItems_update (L := L) hb { L b with slots := (L b).slots ++ [it.slot] }
  rw [hlive] at h
  calc (allItems G (addSlot L b it.slot)).Perm _ := h
    _ = _ := List.append_assoc _ _ _
    List.Perm _ (it :: ((L b).liveItems ++ _)) := List.perm_middle
    List.Perm _ _ := (allItems_self hb).symm.cons it

/-- The blocks with one slot of one of them discarded. -/
def discardSlot (L : ℕ → Blk) (b : ℕ) (pre : List Slot) (sl : Slot) (post : List Slot) : ℕ → Blk :=
  Function.update L b { L b with slots := pre ++ { sl with disc := true } :: post }

theorem allItems_discardSlot (hb : b ∈ G.blks) {pre post : List Slot} {it : Item}
    (hs : (L b).slots = pre ++ it.slot :: post) :
    (allItems G L).Perm (it :: allItems G (discardSlot L b pre it.slot post)) := by
  have h := allItems_update (L := L) hb { L b with slots := pre ++ { it.slot with disc := true } :: post }
  have hold : (L b).liveItems = (pre.filter Slot.live).map Slot.it ++ it :: (post.filter Slot.live).map Slot.it := by
    simp [Blk.liveItems, Blk.liveSlots, hs, Item.slot, Slot.live]
  have hnew : ({ L b with slots := pre ++ { it.slot with disc := true } :: post } : Blk).liveItems =
      (pre.filter Slot.live).map Slot.it ++ (post.filter Slot.live).map Slot.it := by
    simp [Blk.liveItems, Blk.liveSlots, Item.slot, Slot.live]
  have hself := allItems_self (L := L) hb
  rw [hold, List.append_assoc] at hself
  rw [hnew, List.append_assoc] at h
  calc (allItems G L).Perm _ := hself
    List.Perm _ (it :: _) := List.perm_middle
    List.Perm _ _ := h.symm.cons it

/-! ### Collections -/

section Collect
variable {src dst fr : ℕ} {ds : List ℕ}

theorem allItems_collect (hs : src ∈ G.blks) (ht : dst ∈ G.blks) (hne : src ≠ dst) (he : (L dst).slots = []) :
    (allItems G (collect L src dst)).Perm (allItems G L) := by
  have hform : Blk.formatted.liveItems = [] := rfl
  have h1 := allItems_update
    (L := Function.update L dst { L dst with dst := true, done := true, slots := (L src).liveSlots }) hs .formatted
  have h2 := allItems_update (L := L) ht { L dst with dst := true, done := true, slots := (L src).liveSlots }
  have h3 := allItems_self
    (L := Function.update L dst { L dst with dst := true, done := true, slots := (L src).liveSlots }) hs
  have h4 := allItems_self (L := L) ht
  have hdst : (L dst).liveItems = [] := by simp [Blk.liveItems, Blk.liveSlots, he]
  have hnew : ({ L dst with dst := true, done := true, slots := (L src).liveSlots } : Blk).liveItems =
      (L src).liveItems := by simp [Blk.liveItems, Blk.liveSlots, List.filter_filter]
  rw [hform, List.nil_append] at h1
  rw [Function.update_of_ne hne] at h3
  rw [hdst, List.nil_append] at h4
  rw [hnew] at h2
  have h5 := (List.perm_append_left_iff _).mp (h3.symm.trans h2)
  exact h1.trans (h5.trans h4.symm)

theorem allItems_collectAll (hmem : ∀ d ∈ fr :: ds, d ∈ G.blks) (hnd : (fr :: ds).Nodup) (he : (L fr).slots = []) :
    (allItems G (collectAll L fr ds)).Perm (allItems G L) := by
  induction ds generalizing L fr with
  | nil => exact List.Perm.refl _
  | cons d ds ih =>
    have hne : d ≠ fr := by
      rintro rfl
      simp at hnd
    have hcol := allItems_collect (hmem d (by simp)) (hmem fr (by simp)) hne he
    have hrest := @ih (collect L d fr) d (fun y hy => hmem y (by simp [List.mem_cons.mp hy]))
      (List.nodup_cons.mp hnd).2 (by rw [collect_src]; rfl)
    exact hrest.trans hcol

/-- Blocks that take no part keep their content. -/
theorem collectAll_other {y : ℕ} (h1 : y ≠ fr) (h2 : y ∉ ds) : collectAll L fr ds y = L y := by
  induction ds generalizing L fr with
  | nil => rfl
  | cons d ds ih =>
    rw [List.mem_cons, not_or] at h2
    rw [collectAll, ih h2.1 h2.2, collect_other h2.1 h1]

/-- The last block collected is left formatted. -/
theorem collectAll_last {d : ℕ} (hnd : (fr :: (ds ++ [d])).Nodup) : collectAll L fr (ds ++ [d]) d = .formatted := by
  induction ds generalizing L fr with
  | nil =>
    rw [List.nil_append, collectAll, collectAll, collect_src]
  | cons e ds ih =>
    rw [List.cons_append, collectAll, ih (List.nodup_cons.mp hnd).2]

/-- A block collected before another one gets the live items of that one. -/
theorem collectAll_next {d e : ℕ} {ds' : List ℕ} (hnd : (fr :: (ds ++ d :: e :: ds')).Nodup) :
    collectAll L fr (ds ++ d :: e :: ds') d =
      { Blk.formatted with dst := true, done := true, slots := (L e).liveSlots } := by
  induction ds generalizing L fr with
  | nil =>
    simp only [List.nil_append, List.nodup_cons, List.mem_cons, not_or] at hnd
    obtain ⟨⟨-, hfe, -⟩, ⟨hde, hd'⟩, -⟩ := hnd
    rw [List.nil_append, collectAll, collectAll, collectAll_other hde hd', collect_dst (Ne.symm hde), collect_src,
      collect_other (Ne.symm hde) (Ne.symm hfe)]
  | cons y ds ih =>
    simp only [List.cons_append, List.nodup_cons, List.mem_cons, List.mem_append, not_or] at hnd
    obtain ⟨⟨-, -, -, hfe, -⟩, ⟨-, -, hye, -⟩, -⟩ := id hnd
    have hnd' : (y :: (ds ++ d :: e :: ds')).Nodup := by
      simp only [List.nodup_cons, List.mem_append, List.mem_cons, not_or]
      exact hnd.2
    rw [List.cons_append, collectAll, ih hnd', collect_other (Ne.symm hye) (Ne.symm hfe)]

end Collect

/-! ### Edits -/

/-- What the calls of a running store do to its blocks. -/
inductive Edits (G : Geo) (L : ℕ → Blk) : (ℕ → Blk) → Prop
  | refl : Edits G L L
  | collect {L' : ℕ → Blk} {src dst : ℕ} : Edits G L L' → src ∈ G.blks → dst ∈ G.blks → src ≠ dst →
      (L' dst).slots = [] → Edits G L (collect L' src dst)
  | add {L' : ℕ → Blk} {b : ℕ} {it : Item} : Edits G L L' → b ∈ G.blks → Edits G L (addSlot L' b it.slot)
  | discard {L' : ℕ → Blk} {b : ℕ} {pre post : List Slot} {sl : Slot} : Edits G L L' → b ∈ G.blks →
      (L' b).slots = pre ++ sl :: post → Edits G L (discardSlot L' b pre sl post)

theorem Edits.trans {L₁ L₂ L₃ : ℕ → Blk} (h₁ : Edits G L₁ L₂) (h₂ : Edits G L₂ L₃) : Edits G L₁ L₃ := by
  induction h₂ with
  | refl => exact h₁
  | collect _ hs ht hne he ih => exact .collect ih hs ht hne he
  | add _ hb ih => exact .add ih hb
  | discard _ hb hs ih => exact .discard ih hb hs

theorem edits_collectAll {fr : ℕ} {ds : List ℕ} (hmem : ∀ d ∈ fr :: ds, d ∈ G.blks) (hnd : (fr :: ds).Nodup)
    (he : (L fr).slots = []) : Edits G L (collectAll L fr ds) := by
  induction ds generalizing L fr with
  | nil => exact .refl
  | cons d ds ih =>
    have hne : d ≠ fr := by
      rintro rfl
      simp at hnd
    have hcol := Edits.collect (.refl (G := G) (L := L)) (hmem d (by simp)) (hmem fr (by simp)) hne he
    have hrest := @ih (collect L d fr) d (fun y hy => hmem y (by simp [List.mem_cons.mp hy]))
      (List.nodup_cons.mp hnd).2 (by rw [collect_src]; rfl)
    exact hcol.trans hrest

/-- Every slot has its magic: no item was cut short while it was written. -/
def AllLegal (G : Geo) (L : ℕ → Blk) : Prop := ∀ b ∈ G.blks, ∀ sl ∈ (L b).slots, sl.legal = true

theorem Edits.allLegal {L' : ℕ → Blk} (h : Edits G L L') (hl : AllLegal G L) : AllLegal G L' := by
  induction h with
  | refl => exact hl
  | @collect L₁ src dst _ hs ht hne he ih =>
    intro b hb sl hsl
    by_cases h1 : b = src
    · rw [h1, collect_src] at hsl
      simp [Blk.formatted] at hsl
    · by_cases h2 : b = dst
      · rw [h2, collect_dst hne] at hsl
        exact ih src hs sl (List.mem_of_mem_filter hsl)
      · rw [collect_other h1 h2] at hsl
        exact ih b hb sl hsl
  | @add L₁ y it _ hy ih =>
    intro b hb sl hsl
    by_cases hby : b = y
    · rw [hby, addSlot, Function.update_self] at hsl
      rcases List.mem_append.mp hsl with hsl | hsl
      · exact ih y hy sl hsl
      · rw [List.mem_singleton.mp hsl]
        rfl
    · rw [addSlot, Function.update_of_ne hby] at hsl
      exact ih b hb sl hsl
  | @discard L₁ y pre post sl₁ _ hy hs ih =>
    intro b hb sl hsl
    by_cases hby : b = y
    · rw [hby, discardSlot, Function.update_self] at hsl
      have hall := ih y hy
      rw [hs] at hall
      rcases List.mem_append.mp hsl with hsl | hsl
      · exact hall sl (by simp [hsl])
      · rcases List.mem_cons.mp hsl with rfl | hsl
        · exact hall sl₁ (by simp)
        · exact hall sl (by simp [hsl])
    · rw [discardSlot, Function.update_of_ne hby] at hsl
      exact ih b hb sl hsl

end Ln882x.Kv
