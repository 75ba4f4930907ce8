import Ln882x.Kv.Init

/-! Reading the blocks back from the flash. The flash determines the blocks it
holds, up to the bodies of slots whose magic is missing, which are taken as
blank. -/

namespace Ln882x.Kv

open Nor

/-- The slot whose bytes start a list. -/
def Slot.ofBytes (bs : Bytes) : Slot :=
  let h := ItemHdr.ofBytes (bs.take kvItemHdrSize)
  let body := bs.drop kvItemHdrSize
  if h.isLegal then ⟨⟨h.checksum, body.take h.kLen, (body.drop h.kLen).take h.vLen, h.prevPos⟩, h.isDiscarded, true⟩
  else ⟨⟨h.checksum, blank h.kLen, blank h.vLen, h.prevPos⟩, h.isDiscarded, false⟩

def decodeSlots : ℕ → Bytes → List Slot
  | 0, _ => []
  | n + 1, bs =>
    if bs.length < kvItemHdrSize ∨ (ItemHdr.ofBytes (bs.take kvItemHdrSize)).isFresh then []
    else Slot.ofBytes bs :: decodeSlots n (bs.drop (Slot.ofBytes bs).size)

def decodeBlk (bs : Bytes) : Blk :=
  let h := BlkHdr.ofBytes (bs.take kvBlkHdrSize)
  ⟨h.isLegal, h.isGcSrc, h.isGcDst, h.isGcDone, decodeSlots 170 (bs.drop kvBlkHdrSize)⟩

/-- The blocks the flash holds. -/
def blksOf (f : Flash) (b : ℕ) : Blk := decodeBlk (readBytes f b kvBlkSize)

/-- A slot without magic has a blank body. -/
def Slot.Canon (sl : Slot) : Prop := sl.legal = false → sl.it.torn = sl.it

/-- Every slot without magic has a blank body. -/
def CanonBlk (k : Blk) : Prop := ∀ sl ∈ k.slots, sl.Canon

variable {G : Geo} {f : Flash} {L L' : ℕ → Blk} {x : Bool} {s : St}

theorem Slot.ofBytes_image {sl : Slot} (h : sl.it.Ok) (hc : sl.Canon) (rest : Bytes) :
    Slot.ofBytes (sl.image ++ rest) = sl := by
  have hhdr : (sl.image ++ rest).take kvItemHdrSize = sl.hdrImage := by
    rw [Slot.image, List.append_assoc]
    exact List.take_left' (by simp [kvItemHdrSize])
  have hbody : (sl.image ++ rest).drop kvItemHdrSize = sl.bodyImage ++ rest := by
    rw [Slot.image, List.append_assoc]
    exact List.drop_left' (by simp [kvItemHdrSize])
  unfold Slot.ofBytes
  simp only [hhdr, hbody, Slot.ofBytes_hdrImage sl h, Slot.hdr_isLegal, Slot.hdr_isDiscarded]
  cases hl : sl.legal with
  | true =>
    simp only [Slot.bodyImage, hl, if_true, Slot.hdr, Item.body, List.append_assoc, List.take_left, List.drop_left]
    obtain ⟨it, d, l⟩ := sl
    simp only at hl
    rw [hl]
  | false =>
    have htorn := hc hl
    simp only [Bool.false_eq_true, if_false, Slot.hdr]
    obtain ⟨it, d, l⟩ := sl
    simp only [Item.torn] at hl htorn ⊢
    rw [hl, htorn]

theorem decodeSlots_blank (n k : ℕ) : decodeSlots n (blank k) = [] := by
  cases n with
  | zero => rfl
  | succ n =>
    unfold decodeSlots
    rw [if_pos]
    by_cases hk : k < kvItemHdrSize
    · left
      simpa using hk
    · right
      obtain ⟨r, rfl⟩ := Nat.exists_eq_add_of_le (Nat.le_of_not_lt hk)
      rw [blank_add, List.take_left' (by simp)]
      exact ofBytes_blank.2

theorem decodeSlots_image {l : List Slot} {off : ℕ} (hok : slotsOk off l) (hc : ∀ sl ∈ l, sl.Canon) {n : ℕ}
    (hn : l.length ≤ n) (k : ℕ) : decodeSlots n (slotsImage l ++ blank k) = l := by
  induction l generalizing n off with
  | nil => exact decodeSlots_blank n k
  | cons sl l ih =>
    obtain ⟨hit, -, hrest⟩ := hok
    cases n with
    | zero => simp at hn
    | succ n =>
      have hsl := Slot.ofBytes_image hit (hc sl (by simp)) (slotsImage l ++ blank k)
      have hge := sl.size_ge
      have hlen := sl.length_image
      unfold decodeSlots
      rw [slotsImage_cons, List.append_assoc, hsl, if_neg]
      · rw [List.drop_left' hlen, ih hrest (fun y hy => hc y (by simp [hy])) (by simpa using hn)]
      · rw [not_or]
        constructor
        · rw [List.length_append, hlen]
          simp only [kvItemHdrSize]
          omega
        · have hhdr : (sl.image ++ (slotsImage l ++ blank k)).take kvItemHdrSize = sl.hdrImage := by
            rw [Slot.image, List.append_assoc]
            exact List.take_left' (by simp [kvItemHdrSize])
          rw [hhdr, Slot.ofBytes_hdrImage sl hit, Slot.hdr_isFresh hit]
          simp

theorem decodeBlk_image {k : Blk} (hok : k.Ok) (hc : CanonBlk k) : decodeBlk k.image = k := by
  have hhead : k.image.take kvBlkHdrSize = k.head := by
    rw [Blk.image, List.append_assoc]
    exact List.take_left' (by simp [kvBlkHdrSize])
  have hbody : k.image.drop kvBlkHdrSize = slotsImage k.slots ++ blank k.free := by
    rw [Blk.image, List.append_assoc]
    exact List.drop_left' (by simp [kvBlkHdrSize])
  have hdst : (BlkHdr.ofBytes k.head).isGcDst = k.dst := by
    simp only [Blk.ofBytes_head, BlkHdr.isGcDst]
    cases k.dst <;> decide
  have hdone : (BlkHdr.ofBytes k.head).isGcDone = k.done := by
    simp only [Blk.ofBytes_head, BlkHdr.isGcDone]
    cases k.done <;> decide
  unfold decodeBlk
  simp only [hhead, hbody, Blk.isLegal_head, Blk.isGcSrc_head, hdst, hdone]
  rw [decodeSlots_image hok hc (Nat.le_succ_of_le hok.length_slots)]

/-- The flash determines its blocks. -/
theorem Rep.blksOf_eq (h : Rep G f L) {b : ℕ} (hb : b ∈ G.blks) (hc : CanonBlk (L b)) : blksOf f b = L b := by
  obtain ⟨hi, hok⟩ := h b hb
  rw [blksOf, hi, decodeBlk_image hok hc]

/-! ### Only the blocks of the area count -/

theorem Core.congr (h : Core G x L s) (hL : ∀ b ∈ G.blks, L' b = L b) : Core G x L' s := by
  refine ⟨?_, ?_, ?_, h.idx.counts, ?_⟩
  · intro b hb
    rw [hL b hb]
    exact h.rep b hb
  · intro b hb
    rw [hL b hb]
    exact h.sane b hb
  · intro b hb
    rw [hL b hb]
    exact h.idx.blk b hb
  · intro hx b hb
    rw [hL b hb]
    exact h.idx.empty hx b hb

theorem allItems_congr (hL : ∀ b ∈ G.blks, L' b = L b) : allItems G L' = allItems G L := by
  apply List.flatMap_congr
  intro b hb
  rw [hL b hb]

theorem AllLegal.congr (h : AllLegal G L) (hL : ∀ b ∈ G.blks, L' b = L b) : AllLegal G L' := by
  intro b hb
  rw [hL b hb]
  exact h b hb

theorem AllLegal.canon (h : AllLegal G L) {b : ℕ} (hb : b ∈ G.blks) : CanonBlk (L b) := by
  intro sl hsl hl
  rw [h b hb sl hsl] at hl
  contradiction

end Ln882x.Kv
