import Ln882x.Kv.Store

/-! What the blocks of the store hold, as data. A block has a header of four
words, each blank or written, and a row of slots. A slot starts with an item
header; its body follows when the magic is written. A slot whose magic is
missing is what a power cut leaves of an item between the first two driver calls
of `kv_item_write`.

`Rep` relates such blocks to the flash, and every driver call the store makes on
them is the matching change of one block. -/

namespace Ln882x.Kv

open Nor

/-! ### Items and slots -/

structure Item where
  checksum : UInt8
  key : Bytes
  val : Bytes
  prev : ℕ
  deriving DecidableEq

namespace Item
variable (it : Item)

def body : Bytes := it.key ++ it.val

def size : ℕ := kvItemSize it.key.length it.val.length

/-- Sizes that `kv_item_hdr_verify` accepts, and an address for the previous position. -/
structure Ok : Prop where
  key_pos : 0 < it.key.length
  key_lt : it.key.length < 0xFF
  val_pos : 0 < it.val.length
  val_lt : it.val.length < 0xFFFF
  prev_lt : it.prev < 2 ^ 32

/-- The item as it reads before its body is written. -/
def torn : Item := { it with key := blank it.key.length, val := blank it.val.length }

/-- The header from the checksum on. -/
def tail : Bytes :=
  [it.checksum, UInt8.ofNat it.key.length] ++ leBytes 2 it.val.length ++ leBytes 4 it.prev

end Item

/-- A header word that is blank until it is written. -/
def word (written : Bool) (w : ℕ) : Bytes := if written then leBytes 8 w else blank 8

structure Slot where
  it : Item
  disc : Bool
  legal : Bool
  deriving DecidableEq

namespace Slot
variable (sl : Slot)

def live : Bool := sl.legal && !sl.disc

def size : ℕ := if sl.legal then sl.it.size else kvItemHdrSize

def hdrImage : Bytes := word sl.disc kvItemDiscarded ++ word sl.legal kvItemHdrMagic ++ sl.it.tail

def bodyImage : Bytes := if sl.legal then sl.it.body else []

def image : Bytes := sl.hdrImage ++ sl.bodyImage

/-- The header as `kv_item_hdr_read` returns it. -/
def hdr : ItemHdr :=
  ⟨if sl.disc then kvItemDiscarded else wunitBlank, if sl.legal then kvItemHdrMagic else wunitBlank,
    sl.it.checksum, sl.it.key.length, sl.it.val.length, sl.it.prev⟩

end Slot

/-- A slot with its whole item, not discarded. -/
def Item.slot (it : Item) : Slot := ⟨it, false, true⟩

def slotsSize (slots : List Slot) : ℕ := (slots.map Slot.size).sum

def slotsImage (slots : List Slot) : Bytes := slots.flatMap Slot.image

/-! ### Blocks -/

structure Blk where
  fmt : Bool
  src : Bool
  dst : Bool
  done : Bool
  slots : List Slot
  deriving DecidableEq

namespace Blk
variable (k : Blk)

/-- An erased block. -/
def erased : Blk := ⟨false, false, false, false, []⟩

/-- A block after `kv_blk_format`. -/
def formatted : Blk := ⟨true, false, false, false, []⟩

def head : Bytes :=
  word k.fmt kvBlkHdrMagic ++ word k.src kvBlkHdrGcSrc ++ word k.dst kvBlkHdrGcDst ++ word k.done kvBlkHdrGcDone

def used : ℕ := kvBlkHdrSize + slotsSize k.slots

def free : ℕ := kvBlkSize - k.used

def image : Bytes := k.head ++ slotsImage k.slots ++ blank k.free

end Blk

/-- The items of slots that start at an offset of their block are well-formed, and the whole
of each, written or not, fits the block. -/
def slotsOk (off : ℕ) : List Slot → Prop
  | [] => True
  | sl :: slots => sl.it.Ok ∧ off + sl.it.size ≤ kvBlkSize ∧ slotsOk (off + sl.size) slots

def Blk.Ok (k : Blk) : Prop := slotsOk kvBlkHdrSize k.slots

/-! ### Lengths -/

@[simp] theorem length_word (b : Bool) (w : ℕ) : (word b w).length = 8 := by
  cases b <;> simp [word]

@[simp] theorem Item.length_tail (it : Item) : it.tail.length = 8 := by simp [Item.tail]

theorem Item.length_body (it : Item) : it.body.length = it.key.length + it.val.length := by
  simp [Item.body]

theorem Item.size_eq (it : Item) : it.size = 24 + it.body.length := by
  simp [Item.size, kvItemSize, kvItemHdrSize, Item.length_body]

@[simp] theorem Item.size_torn (it : Item) : it.torn.size = it.size := by
  simp [Item.size, Item.torn]

@[simp] theorem Item.torn_torn (it : Item) : it.torn.torn = it.torn := by simp [Item.torn]

theorem Item.tail_torn (it : Item) : it.torn.tail = it.tail := by simp [Item.tail, Item.torn]

theorem Item.Ok.torn {it : Item} (h : it.Ok) : it.torn.Ok := by
  obtain ⟨h1, h2, h3, h4, h5⟩ := h
  constructor <;> simpa [Item.torn]

@[simp] theorem Slot.length_hdrImage (sl : Slot) : sl.hdrImage.length = 24 := by simp [Slot.hdrImage]

theorem Slot.length_image (sl : Slot) : sl.image.length = sl.size := by
  cases h : sl.legal <;> simp [Slot.image, Slot.bodyImage, Slot.size, h, Item.size_eq, kvItemHdrSize]

theorem Slot.size_ge (sl : Slot) : 24 ≤ sl.size := by
  cases h : sl.legal <;> simp [Slot.size, h, Item.size_eq, kvItemHdrSize]

theorem Slot.size_le (sl : Slot) : sl.size ≤ sl.it.size := by
  cases h : sl.legal <;> simp [Slot.size, h, Item.size_eq, kvItemHdrSize]

theorem Item.Ok.size_ge {it : Item} (h : it.Ok) : 26 ≤ it.size := by
  have := h.key_pos
  have := h.val_pos
  rw [Item.size_eq, Item.length_body]
  omega

@[simp] theorem Blk.length_head (k : Blk) : k.head.length = 32 := by simp [Blk.head]

@[simp] theorem slotsSize_nil : slotsSize [] = 0 := rfl

@[simp] theorem slotsSize_cons (sl : Slot) (l : List Slot) : slotsSize (sl :: l) = sl.size + slotsSize l := by
  simp [slotsSize]

@[simp] theorem slotsSize_append (l m : List Slot) : slotsSize (l ++ m) = slotsSize l + slotsSize m := by
  simp [slotsSize]

@[simp] theorem slotsImage_nil : slotsImage [] = [] := rfl

@[simp] theorem slotsImage_cons (sl : Slot) (l : List Slot) :
    slotsImage (sl :: l) = sl.image ++ slotsImage l := by simp [slotsImage]

@[simp] theorem slotsImage_append (l m : List Slot) :
    slotsImage (l ++ m) = slotsImage l ++ slotsImage m := by simp [slotsImage]

@[simp] theorem length_slotsImage (l : List Slot) : (slotsImage l).length = slotsSize l := by
  induction l with
  | nil => rfl
  | cons sl l ih => simp [Slot.length_image, ih]

theorem length_mul_le_slotsSize (l : List Slot) : 24 * l.length ≤ slotsSize l := by
  induction l with
  | nil => simp
  | cons sl l ih =>
    have := sl.size_ge
    simp only [List.length_cons, slotsSize_cons]
    omega

@[simp] theorem slotsOk_nil (off : ℕ) : slotsOk off [] := trivial

theorem slotsOk_cons {off : ℕ} {sl : Slot} {l : List Slot} :
    slotsOk off (sl :: l) ↔ sl.it.Ok ∧ off + sl.it.size ≤ kvBlkSize ∧ slotsOk (off + sl.size) l := Iff.rfl

theorem slotsOk_append {off : ℕ} {l m : List Slot} :
    slotsOk off (l ++ m) ↔ slotsOk off l ∧ slotsOk (off + slotsSize l) m := by
  induction l generalizing off with
  | nil => simp
  | cons sl l ih => simp only [List.cons_append, slotsOk_cons, ih, slotsSize_cons, Nat.add_assoc, and_assoc]

theorem slotsOk.size_le {off : ℕ} {l : List Slot} (h : slotsOk off l) (h0 : off ≤ kvBlkSize) :
    off + slotsSize l ≤ kvBlkSize := by
  induction l generalizing off with
  | nil => simpa using h0
  | cons sl l ih =>
    have hl := sl.size_le
    have := ih h.2.2 (by have := h.2.1; omega)
    simp only [slotsSize_cons]
    omega

namespace Blk.Ok
variable {k : Blk}

theorem used_le (h : k.Ok) : k.used ≤ kvBlkSize := slotsOk.size_le h (by decide)

theorem free_add (h : k.Ok) : k.used + k.free = kvBlkSize := by
  have := h.used_le
  simp only [Blk.free]
  omega

theorem length_slots (h : k.Ok) : k.slots.length ≤ 169 := by
  have := length_mul_le_slotsSize k.slots
  have := h.used_le
  simp only [Blk.used, kvBlkSize, kvBlkHdrSize] at *
  omega

theorem length_image (h : k.Ok) : k.image.length = kvBlkSize := by
  rw [← h.free_add]
  simp only [Blk.image, Blk.used, kvBlkHdrSize, List.length_append, Blk.length_head, length_slotsImage, length_blank]

/-- The slots behind `pre` in a block. -/
theorem split (h : k.Ok) {pre post : List Slot} {sl : Slot} (hs : k.slots = pre ++ sl :: post) :
    sl.it.Ok ∧ kvBlkHdrSize + slotsSize pre + sl.it.size ≤ kvBlkSize := by
  rw [Blk.Ok, hs, slotsOk_append, slotsOk_cons] at h
  exact ⟨h.2.1, h.2.2.1⟩

end Blk.Ok

theorem Blk.image_erased : Blk.erased.image = blank kvBlkSize := by
  simp only [Blk.image, Blk.head, Blk.erased, word, Bool.false_eq_true, if_false, slotsImage_nil,
    List.append_nil, ← blank_add]
  rfl

/-! ### Decoding headers -/

theorem le_blank_eight : le (blank 8) = wunitBlank := by decide

theorem le_word (b : Bool) {w : ℕ} (hw : w < 256 ^ 8) : le (word b w) = if b then w else wunitBlank := by
  cases b with
  | true => simpa [word] using le_leBytes 8 w hw
  | false => simpa [word] using le_blank_eight

theorem Slot.ofBytes_hdrImage (sl : Slot) (h : sl.it.Ok) : ItemHdr.ofBytes sl.hdrImage = sl.hdr := by
  have hk := h.key_lt
  have hv := h.val_lt
  have hp := h.prev_lt
  have h1 : sl.hdrImage.take 8 = word sl.disc kvItemDiscarded := by
    simp [Slot.hdrImage]
  have h2 : (sl.hdrImage.drop 8).take 8 = word sl.legal kvItemHdrMagic := by
    simp [Slot.hdrImage]
  have h3 : sl.hdrImage.drop 16 = sl.it.tail := by
    rw [Slot.hdrImage, List.drop_left' (by simp)]
  have h4 : ∀ i, sl.hdrImage.getD (16 + i) 0 = sl.it.tail.getD i 0 := by
    intro i
    rw [← h3]
    simp [List.getD, List.getElem?_drop]
  have h5 : (sl.hdrImage.drop 18).take 2 = leBytes 2 sl.it.val.length := by
    rw [show 18 = 16 + 2 from rfl, ← List.drop_drop, h3]
    simp [Item.tail]
  have h6 : (sl.hdrImage.drop 20).take 4 = leBytes 4 sl.it.prev := by
    rw [show 20 = 16 + 4 from rfl, ← List.drop_drop, h3, Item.tail, List.drop_left' (by simp),
      List.take_of_length_le (by simp)]
  have h7 : sl.hdrImage.getD 16 0 = sl.it.checksum := h4 0
  have h8 : sl.hdrImage.getD 17 0 = UInt8.ofNat sl.it.key.length := h4 1
  simp only [ItemHdr.ofBytes, h1, h2, h5, h6, h7, h8, le_word _ (show kvItemDiscarded < 256 ^ 8 by decide),
    le_word _ (show kvItemHdrMagic < 256 ^ 8 by decide), le_leBytes 2 _ (show sl.it.val.length < 256 ^ 2 by omega),
    le_leBytes 4 _ (show sl.it.prev < 256 ^ 4 by omega), UInt8.toNat_ofNat', Slot.hdr]
  rw [Nat.mod_eq_of_lt (by omega)]

theorem Blk.ofBytes_head (k : Blk) : BlkHdr.ofBytes k.head =
    ⟨if k.fmt then kvBlkHdrMagic else wunitBlank, if k.src then kvBlkHdrGcSrc else wunitBlank,
      if k.dst then kvBlkHdrGcDst else wunitBlank, if k.done then kvBlkHdrGcDone else wunitBlank⟩ := by
  have h1 : k.head.take 8 = word k.fmt kvBlkHdrMagic := by simp [Blk.head]
  have h2 : (k.head.drop 8).take 8 = word k.src kvBlkHdrGcSrc := by simp [Blk.head]
  have h3 : (k.head.drop 16).take 8 = word k.dst kvBlkHdrGcDst := by
    rw [Blk.head, List.append_assoc, List.drop_left' (by simp), List.take_left' (by simp)]
  have h4 : (k.head.drop 24).take 8 = word k.done kvBlkHdrGcDone := by
    rw [Blk.head, List.drop_left' (by simp), List.take_of_length_le (by simp)]
  rw [BlkHdr.ofBytes, h1, h2, h3, h4, le_word _ (by decide), le_word _ (by decide), le_word _ (by decide),
    le_word _ (by decide)]

/-! ### The flash holds the blocks -/

/-- The start address of the slot behind `pre` in block `b`. -/
def slotAddr (b : ℕ) (pre : List Slot) : ℕ := kvBlkFirstItem b + slotsSize pre

def Rep (G : Geo) (f : Flash) (L : ℕ → Blk) : Prop :=
  ∀ b ∈ G.blks, readBytes f b kvBlkSize = (L b).image ∧ (L b).Ok

section Blocks
variable {G : Geo}

theorem Geo.mem_blks {b : ℕ} : b ∈ G.blks ↔ ∃ i, i < G.blocks ∧ b = G.start + i * kvBlkSize := by
  simp [Geo.blks, eq_comm]

theorem Geo.blks_disjoint {b c : ℕ} (hb : b ∈ G.blks) (hc : c ∈ G.blks) (hne : b ≠ c) :
    b + kvBlkSize ≤ c ∨ c + kvBlkSize ≤ b := by
  obtain ⟨i, -, rfl⟩ := Geo.mem_blks.mp hb
  obtain ⟨j, -, rfl⟩ := Geo.mem_blks.mp hc
  simp only [kvBlkSize] at *
  omega

theorem Geo.blk_le_stop {b : ℕ} (hb : b ∈ G.blks) : b + kvBlkSize ≤ G.stop := by
  obtain ⟨i, hi, rfl⟩ := Geo.mem_blks.mp hb
  have : (i + 1) * kvBlkSize ≤ G.blocks * kvBlkSize := Nat.mul_le_mul_right _ hi
  simp only [Geo.stop]
  linarith

theorem Geo.blk_lt {b : ℕ} (hb : b ∈ G.blks) : b + kvBlkSize + 2 ^ 17 ≤ 2 ^ 32 := by
  have := Geo.blk_le_stop hb
  have := G.fits
  simp only [Geo.stop] at *
  omega

theorem Geo.itemAddr2Blk_eq {b off : ℕ} (hb : b ∈ G.blks) (h : off < kvBlkSize) :
    G.itemAddr2Blk (b + off) = b := by
  have hlt := Geo.blk_lt hb
  obtain ⟨i, -, rfl⟩ := Geo.mem_blks.mp hb
  simp only [Geo.itemAddr2Blk, kvBlkSize] at *
  rw [show G.start + i * 4096 + off + 2 ^ 32 - G.start = (i * 4096 + off) + 2 ^ 32 by omega,
    Nat.add_mod_right, Nat.mod_eq_of_lt (by omega)]
  omega

end Blocks

variable {G : Geo} {f : Flash} {L : ℕ → Blk} {b : ℕ}

/-- A driver call inside one block changes that block only. -/
theorem Rep.apply (h : Rep G f L) (hb : b ∈ G.blks) {o : Op} (h0 : b ≤ o.addr)
    (h1 : o.addr + o.len ≤ b + kvBlkSize) {k : Blk} (hi : readBytes (o.apply f) b kvBlkSize = k.image)
    (hk : k.Ok) : Rep G (o.apply f) (Function.update L b k) := by
  intro c hc
  by_cases hcb : c = b
  · subst hcb
    rw [Function.update_self]
    exact ⟨hi, hk⟩
  · rw [Function.update_of_ne hcb, readBytes_apply_disjoint]
    · exact h c hc
    · have := Geo.blks_disjoint hc hb hcb
      omega

/-! ### Reading -/

theorem Rep.read_head (h : Rep G f L) (hb : b ∈ G.blks) : readBytes f b kvBlkHdrSize = (L b).head := by
  have := (h b hb).1
  rw [Blk.image, List.append_assoc] at this
  exact readBytes_head this (by simp [kvBlkHdrSize])

section ReadSlot
variable {pre post : List Slot} {sl : Slot}

theorem Blk.image_slot {k : Blk} (hs : k.slots = pre ++ sl :: post) :
    k.image = (k.head ++ slotsImage pre) ++ sl.image ++ (slotsImage post ++ blank k.free) := by
  simp [Blk.image, hs]

theorem Rep.read_hdr (h : Rep G f L) (hb : b ∈ G.blks) (hs : (L b).slots = pre ++ sl :: post) :
    readBytes f (slotAddr b pre) kvItemHdrSize = sl.hdrImage := by
  have hi := (h b hb).1
  have himg : (L b).image = ((L b).head ++ slotsImage pre) ++ sl.hdrImage ++
      (sl.bodyImage ++ (slotsImage post ++ blank (L b).free)) := by
    rw [Blk.image_slot hs, Slot.image]
    simp only [List.append_assoc]
  rw [himg] at hi
  rw [slotAddr, kvBlkFirstItem, Nat.add_assoc]
  exact readBytes_part hi (by simp [kvBlkHdrSize]) (by simp [kvItemHdrSize])

theorem Rep.read_body (h : Rep G f L) (hb : b ∈ G.blks) (hs : (L b).slots = pre ++ sl :: post)
    (hl : sl.legal = true) {n : ℕ} (hn : n ≤ sl.it.body.length) :
    readBytes f (slotAddr b pre + kvItemHdrSize) n = sl.it.body.take n := by
  have hi := (h b hb).1
  have himg : (L b).image = ((L b).head ++ slotsImage pre ++ sl.hdrImage) ++ sl.it.body.take n ++
      (sl.it.body.drop n ++ (slotsImage post ++ blank (L b).free)) := by
    rw [Blk.image_slot hs, Slot.image, Slot.bodyImage, if_pos hl]
    conv_lhs => rw [← List.take_append_drop n sl.it.body]
    simp only [List.append_assoc]
  rw [himg] at hi
  rw [slotAddr, kvBlkFirstItem, Nat.add_assoc, Nat.add_assoc]
  exact readBytes_part hi (by simp [kvBlkHdrSize, kvItemHdrSize]) (by simpa using hn)

/-- Behind the last slot the block is blank. -/
theorem Rep.read_free (h : Rep G f L) (hb : b ∈ G.blks) {n : ℕ} (hn : n ≤ (L b).free) :
    readBytes f (slotAddr b (L b).slots) n = blank n := by
  have hi := (h b hb).1
  obtain ⟨m, hm⟩ := Nat.exists_eq_add_of_le hn
  rw [Blk.image, hm, blank_add, ← List.append_assoc] at hi
  rw [slotAddr, kvBlkFirstItem, Nat.add_assoc]
  exact readBytes_part hi (by simp [kvBlkHdrSize]) (by simp)

end ReadSlot

/-! ### Writing -/

theorem zipWith_word (m : Bool) (w : ℕ) : List.zipWith (· &&& ·) (word m w) (leBytes 8 w) = leBytes 8 w := by
  cases m with
  | true => exact zipWith_and_self _
  | false =>
    have := zipWith_and_blank (leBytes 8 w)
    rwa [length_leBytes] at this

/-- Writing a header word that is blank or already written. -/
theorem readBytes_program_word {off w : ℕ} {A C : Bytes} {m : Bool}
    (h : readBytes f b kvBlkSize = A ++ word m w ++ C) (hA : A.length = off) :
    readBytes ((Op.program (b + off) (leBytes 8 w)).apply f) b kvBlkSize = A ++ word true w ++ C := by
  rw [readBytes_program h hA (by simp), zipWith_word]
  rfl

section Marks
variable (h : Rep G f L) (hb : b ∈ G.blks)
include h hb

theorem Rep.mark {o : Op} {n w : ℕ} (ho : o = .program (b + n) (leBytes 8 w)) (hn : n + 8 ≤ kvBlkSize)
    {A C : Bytes} {m : Bool} (himg : (L b).image = A ++ word m w ++ C) (hA : A.length = n) {k : Blk}
    (hk : k.image = A ++ word true w ++ C) (hok : k.Ok) : Rep G (o.apply f) (Function.update L b k) := by
  subst ho
  refine h.apply hb (by simp [Op.addr]) (by simp [Op.addr, Op.len]; omega) ?_ hok
  rw [readBytes_program_word ((h b hb).1.trans himg) hA, hk]

theorem Rep.markSrc : Rep G ((Op.program (b + 8) (leBytes 8 kvBlkHdrGcSrc)).apply f)
    (Function.update L b { L b with src := true }) := by
  refine h.mark hb rfl (by decide) (A := word (L b).fmt kvBlkHdrMagic) (m := (L b).src)
    (C := word (L b).dst kvBlkHdrGcDst ++ word (L b).done kvBlkHdrGcDone ++ slotsImage (L b).slots ++
      blank (L b).free) ?_ (by simp) ?_ (h b hb).2
  · simp only [Blk.image, Blk.head, List.append_assoc]
  · simp only [Blk.image, Blk.head, List.append_assoc, Blk.free, Blk.used]

theorem Rep.markDst : Rep G ((Op.program (b + 16) (leBytes 8 kvBlkHdrGcDst)).apply f)
    (Function.update L b { L b with dst := true }) := by
  refine h.mark hb rfl (by decide) (A := word (L b).fmt kvBlkHdrMagic ++ word (L b).src kvBlkHdrGcSrc)
    (m := (L b).dst) (C := word (L b).done kvBlkHdrGcDone ++ slotsImage (L b).slots ++
      blank (L b).free) ?_ (by simp) ?_ (h b hb).2
  · simp only [Blk.image, Blk.head, List.append_assoc]
  · simp only [Blk.image, Blk.head, List.append_assoc, Blk.free, Blk.used]

theorem Rep.markDone : Rep G ((Op.program (b + 24) (leBytes 8 kvBlkHdrGcDone)).apply f)
    (Function.update L b { L b with done := true }) := by
  refine h.mark hb rfl (by decide)
    (A := word (L b).fmt kvBlkHdrMagic ++ word (L b).src kvBlkHdrGcSrc ++ word (L b).dst kvBlkHdrGcDst)
    (m := (L b).done) (C := slotsImage (L b).slots ++ blank (L b).free) ?_ (by simp) ?_ (h b hb).2
  · simp only [Blk.image, Blk.head, List.append_assoc]
  · simp only [Blk.image, Blk.head, List.append_assoc, Blk.free, Blk.used]

theorem Rep.erase : Rep G ((Op.erase b kvBlkSize).apply f) (Function.update L b .erased) := by
  refine h.apply hb (by simp [Op.addr]) (by simp [Op.addr, Op.len]) ?_ trivial
  rw [readBytes_erase, Blk.image_erased]

theorem Rep.format (he : L b = .erased) : Rep G ((Op.program b (leBytes 8 kvBlkHdrMagic)).apply f)
    (Function.update L b .formatted) := by
  refine h.mark hb rfl (by decide) (A := []) (m := false) (C := (word false kvBlkHdrGcSrc ++
    word false kvBlkHdrGcDst ++ word false kvBlkHdrGcDone) ++ blank Blk.erased.free) ?_ rfl ?_ trivial
  · simp [he, Blk.image, Blk.head, Blk.erased]
  · simp [Blk.image, Blk.head, Blk.formatted, Blk.free, Blk.used, Blk.erased]

/-- Discarding a slot, whatever its mark was before. -/
theorem Rep.discard {pre post : List Slot} {sl : Slot} (hs : (L b).slots = pre ++ sl :: post) :
    Rep G ((Op.program (slotAddr b pre) (leBytes 8 kvItemDiscarded)).apply f)
      (Function.update L b { L b with slots := pre ++ { sl with disc := true } :: post }) := by
  have hok := (h b hb).2
  obtain ⟨hit, hfit⟩ := hok.split hs
  have hge := hit.size_ge
  refine h.mark hb (n := kvBlkHdrSize + slotsSize pre) (by rw [slotAddr, kvBlkFirstItem, Nat.add_assoc]) (by omega)
    (A := (L b).head ++ slotsImage pre) (m := sl.disc)
    (C := word sl.legal kvItemHdrMagic ++ sl.it.tail ++ sl.bodyImage ++ slotsImage post ++ blank (L b).free)
    ?_ (by simp [kvBlkHdrSize]) ?_ ?_
  · simp only [Blk.image_slot hs, Slot.image, Slot.hdrImage, List.append_assoc]
  · have hfree : ({ L b with slots := pre ++ { sl with disc := true } :: post } : Blk).free = (L b).free := by
      simp [Blk.free, Blk.used, hs, Slot.size]
    rw [Blk.image_slot (k := { L b with slots := pre ++ { sl with disc := true } :: post }) rfl, hfree]
    simp only [Blk.head, Slot.image, Slot.hdrImage, Slot.bodyImage, List.append_assoc]
  · rw [Blk.Ok, hs, slotsOk_append, slotsOk_cons] at hok
    rw [Blk.Ok, slotsOk_append, slotsOk_cons]
    exact hok

end Marks

/-! ### Writing an item -/

section WriteItem
variable (h : Rep G f L) (hb : b ∈ G.blks) {pre : List Slot} {it : Item} (hit : it.Ok)
  (hfit : kvBlkHdrSize + slotsSize pre + it.size ≤ kvBlkSize)
include h hb hit hfit

theorem Rep.writeTail (hs : (L b).slots = pre) :
    Rep G ((Op.program (slotAddr b pre + 16) it.tail).apply f)
      (Function.update L b { L b with slots := pre ++ [⟨it, false, false⟩] }) := by
  have hsz := it.size_eq
  subst hs
  have hfree : (L b).free = 16 + it.tail.length + ((L b).free - 24) := by
    simp only [Blk.free, Blk.used, Item.length_tail]
    omega
  have himg : readBytes f b kvBlkSize = ((L b).head ++ slotsImage (L b).slots ++ blank 16) ++ blank it.tail.length ++
      blank ((L b).free - 24) := by
    rw [(h b hb).1, Blk.image]
    conv_lhs => rw [hfree, blank_add, blank_add]
    simp only [List.append_assoc]
  have hat : slotAddr b (L b).slots + 16 = b + (kvBlkHdrSize + slotsSize (L b).slots + 16) := by
    simp only [slotAddr, kvBlkFirstItem]
    omega
  refine h.apply hb (by simp only [Op.addr]; omega) (by simp only [Op.addr, Op.len, Item.length_tail]; omega) ?_ ?_
  · rw [hat, readBytes_program_blank himg (by simp [kvBlkHdrSize]; omega)]
    have hfree' : ({ L b with slots := (L b).slots ++ [⟨it, false, false⟩] } : Blk).free = (L b).free - 24 := by
      simp only [Blk.free, Blk.used, slotsSize_append, slotsSize_cons, slotsSize_nil, Slot.size, kvItemHdrSize,
        Bool.false_eq_true, if_false]
      omega
    rw [Blk.image, hfree', slotsImage_append, show (16 : ℕ) = 8 + 8 from rfl, blank_add]
    simp only [Blk.head, slotsImage_cons, slotsImage_nil, Slot.image, Slot.hdrImage, Slot.bodyImage, word,
      Bool.false_eq_true, if_false, List.append_assoc, List.append_nil]
  · exact slotsOk_append.mpr ⟨(h b hb).2, hit, hfit, trivial⟩

theorem Rep.writeMagic (hs : (L b).slots = pre ++ [⟨it, false, false⟩]) :
    Rep G ((Op.program (slotAddr b pre + 8) (leBytes 8 kvItemHdrMagic)).apply f)
      (Function.update L b { L b with slots := pre ++ [⟨it.torn, false, true⟩] }) := by
  have hsz := it.size_eq
  have hfree : (L b).free = it.body.length +
      ({ L b with slots := pre ++ [⟨it.torn, false, true⟩] } : Blk).free := by
    simp only [Blk.free, Blk.used, hs, slotsSize_append, slotsSize_cons, slotsSize_nil, Slot.size, kvItemHdrSize,
      Bool.false_eq_true, if_false, if_true, Item.size_torn]
    omega
  have htail := it.tail_torn
  have hbody : it.torn.body = blank it.body.length := by simp [Item.body, Item.torn, blank_add]
  refine h.mark hb (n := kvBlkHdrSize + slotsSize pre + 8) (by simp only [slotAddr, kvBlkFirstItem]; congr 1; omega)
    (by omega) (A := (L b).head ++ slotsImage pre ++ blank 8) (m := false) (C := it.tail ++ blank (L b).free) ?_
    (by simp [kvBlkHdrSize]; omega) ?_ ?_
  · rw [Blk.image, hs]
    simp only [slotsImage_append, slotsImage_cons, slotsImage_nil, Slot.image, Slot.hdrImage, Slot.bodyImage, word,
      Bool.false_eq_true, if_false, List.append_assoc, List.append_nil]
  · rw [hfree, blank_add, ← hbody, Blk.image]
    simp only [Blk.head, slotsImage_append, slotsImage_cons, slotsImage_nil, Slot.image, Slot.hdrImage, Slot.bodyImage,
      word, Bool.false_eq_true, if_false, if_true, htail, List.append_assoc, List.append_nil]
  · have hok := (h b hb).2
    rw [Blk.Ok, hs, slotsOk_append] at hok
    refine slotsOk_append.mpr ⟨hok.1, hit.torn, ?_, trivial⟩
    simpa using hfit

theorem Rep.writeBody (hs : (L b).slots = pre ++ [⟨it.torn, false, true⟩]) :
    Rep G ((Op.program (slotAddr b pre + kvItemHdrSize) it.body).apply f)
      (Function.update L b { L b with slots := pre ++ [it.slot] }) := by
  have hsz := it.size_eq
  have hfree : ({ L b with slots := pre ++ [it.slot] } : Blk).free = (L b).free := by
    simp [Blk.free, Blk.used, hs, Slot.size, Item.slot]
  have htail := it.tail_torn
  have hbody : it.torn.body = blank it.body.length := by simp [Item.body, Item.torn, blank_add]
  have himg : readBytes f b kvBlkSize = ((L b).head ++ slotsImage pre ++ blank 8 ++ leBytes 8 kvItemHdrMagic ++ it.tail) ++
      blank it.body.length ++ blank (L b).free := by
    rw [(h b hb).1, Blk.image, hs, ← hbody, ← htail]
    simp only [slotsImage_append, slotsImage_cons, slotsImage_nil, Slot.image, Slot.hdrImage, Slot.bodyImage, word,
      Bool.false_eq_true, if_false, if_true, List.append_assoc, List.append_nil]
  have hat : slotAddr b pre + kvItemHdrSize = b + (kvBlkHdrSize + slotsSize pre + 24) := by
    simp only [slotAddr, kvBlkFirstItem, kvItemHdrSize]
    omega
  refine h.apply hb (by simp only [Op.addr]; omega) (by simp only [Op.addr, Op.len]; omega) ?_ ?_
  · rw [hat, readBytes_program_blank himg (by simp [kvBlkHdrSize]; omega), Blk.image, hfree]
    simp only [Blk.head, Item.slot, slotsImage_append, slotsImage_cons, slotsImage_nil, Slot.image, Slot.hdrImage,
      Slot.bodyImage, word, Bool.false_eq_true, if_false, if_true, List.append_assoc, List.append_nil]
  · have hok := (h b hb).2
    rw [Blk.Ok, hs, slotsOk_append] at hok
    exact slotsOk_append.mpr ⟨hok.1, hit, hfit, trivial⟩

end WriteItem

end Ln882x.Kv
