import Ln882x.Ota.Staging
import Ln882x.Ota.Verify

/-! What holds over all attempts of a download. The statics survive from one
attempt to the next: the flash offset starts again at zero, but the result of an
earlier precheck stays, and the last sector of an attempt is saved without any
check. -/

namespace Ln882x.Ota

open Nor

variable {st st' : Download} {f : Flash}

/-! ### Events -/

/-- The start of an attempt and the calls of `http_get_callback`. -/
inductive Event where
  | start (mallocOk : Bool)
  | recv (buf : Bytes) (mallocOk : Bool)
  | finished

def Download.on (st : Download) : Event → Download
  | .start mallocOk => (otaPersistentStart st mallocOk).2
  | .recv buf mallocOk => (otaPersistentWrite st buf mallocOk).2
  | .finished => { (otaPersistentFinish st).2 with isReadyToVerify := true }

def Download.run (st : Download) : List Event → Download
  | [] => st
  | e :: es => (st.on e).run es

/-- A condition on every event and the state it meets. -/
def Always (P : Download → Event → Prop) : Download → List Event → Prop
  | _, [] => True
  | st, e :: es => P st e ∧ Always P (st.on e) es

instance (P : Download → Event → Prop) [∀ st e, Decidable (P st e)] : ∀ st es, Decidable (Always P st es)
  | _, [] => .isTrue trivial
  | st, e :: es => @instDecidableAnd (P st e) (Always P (st.on e) es) _ (instDecidableAlways P (st.on e) es)

/-- A piece fits the receive buffer of the HTTP client. -/
def Event.Small : Event → Prop
  | .recv buf _ => buf.length ≤ 2048
  | _ => True

/-- The sizes of the statics between two events. -/
structure Sized (st : Download) : Prop where
  buf : ∀ b, st.temp4KBuf = some b → b.length = sectorSize4KB
  offset : st.temp4kOffset ≤ sectorSize4KB
  sectors : st.flashOtaOffset % sectorSize4KB = 0
  started : st.isPersistentStarted = true → st.temp4KBuf ≠ none

theorem sized_init (f : Flash) : Sized (.init f) := by
  refine ⟨fun b hb => ?_, Nat.zero_le _, rfl, fun h => ?_⟩
  · exact nomatch hb
  · exact nomatch h

theorem length_splice {b d : Bytes} {off : ℕ} (h : off + d.length ≤ b.length) : (splice b off d).length = b.length := by
  simp only [splice, List.length_append, List.length_take, List.length_drop]
  omega

/-- The head of a piece ends inside the buffer, and so does its tail. -/
theorem Sized.head_le (h : Sized st) (buf : Bytes) : st.temp4kOffset + (st.head buf).length ≤ sectorSize4KB := by
  have hoff := h.offset
  rw [st.head_length, Download.partLen]
  omega

theorem Sized.tail_le (h : Sized st) (buf : Bytes) (hbuf : buf.length ≤ 2048) : (st.tail buf).length ≤ sectorSize4KB := by
  have hoff := h.offset
  rw [Download.tail, List.length_drop, Download.partLen]
  simp only [sectorSize4KB] at hoff ⊢
  omega

theorem Sized.filled_length (h : Sized st) {tempBuf : Bytes} (htemp : st.temp4KBuf = some tempBuf) (buf : Bytes) :
    (splice tempBuf st.temp4kOffset (st.head buf)).length = sectorSize4KB := by
  have hlen := h.buf _ htemp
  have hhead := h.head_le buf
  rw [length_splice (by omega), hlen]

theorem Sized.written (h : Sized st) {buf : Bytes} {mallocOk ok : Bool} (hw : Written st buf mallocOk (ok, st'))
    (hbuf : buf.length ≤ 2048) : Sized st' := by
  cases hw with
  | idle => exact h
  | @kept tempBuf _ htemp hs =>
    refine ⟨fun b hb => ?_, ?_, h.sectors, fun _ => Option.some_ne_none _⟩
    · obtain rfl := Option.some.inj hb
      have hlen := h.buf _ htemp
      rw [length_splice (by omega), hlen]
    · rw [stage_temp4kOffset]
      omega
  | refused _ htemp =>
    refine ⟨fun b hb => ?_, h.head_le buf, h.sectors, fun _ => Option.some_ne_none _⟩
    obtain rfl := Option.some.inj hb
    exact h.filled_length htemp buf
  | saved _ _ _ _ hsaved =>
    have htail := h.tail_le _ hbuf
    refine ⟨fun b hb => ?_, ?_, ?_, fun _ => ?_⟩
    · rw [hsaved.temp4KBuf] at hb
      obtain rfl := Option.some.inj hb
      rw [List.length_append, List.length_replicate]
      omega
    · rw [hsaved.temp4kOffset]
      exact htail
    · rw [hsaved.flashOtaOffset, Nat.add_mod_right]
      exact h.sectors
    · rw [hsaved.temp4KBuf]
      exact Option.some_ne_none _

/-- `ota_persistent_start` keeps all but the buffer and the offsets. -/
inductive Started (st : Download) : Download → Prop
  | refused : st.temp4KBuf = none → Started st st
  | begun {b : Bytes} : (st.temp4KBuf = none ∧ b = zeroSector ∨ st.temp4KBuf = some b) →
      Started st { st with temp4KBuf := some b, temp4kOffset := 0, flashOtaOffset := 0, isPersistentStarted := true }

theorem otaPersistentStart_started (st : Download) (mallocOk : Bool) : Started st (otaPersistentStart st mallocOk).2 := by
  unfold otaPersistentStart
  cases hbuf : st.temp4KBuf with
  | none =>
    dsimp only
    split_ifs
    · exact .refused hbuf
    · exact .begun (.inl ⟨hbuf, rfl⟩)
  | some b => exact .begun (.inr hbuf)

theorem Sized.begun (h : Sized st) (hs : Started st st') : Sized st' := by
  cases hs with
  | refused => exact h
  | begun hb =>
    refine ⟨fun b' hb' => ?_, Nat.zero_le _, rfl, fun _ => Option.some_ne_none _⟩
    obtain rfl := Option.some.inj hb'
    rcases hb with ⟨-, rfl⟩ | hb
    · exact List.length_replicate
    · exact h.buf _ hb

/-- `ota_persistent_finish` saves the buffer, if there is one. -/
inductive Finished (st : Download) : Download → Prop
  | idle : st.isPersistentStarted = false ∨ st.temp4KBuf = none → Finished st st
  | saved {b : Bytes} : st.isPersistentStarted = true → st.temp4KBuf = some b →
      Finished st { st with
        dev := st.save b
        temp4KBuf := none
        temp4kOffset := 0
        flashOtaOffset := 0
        isPersistentStarted := false }

theorem otaPersistentFinish_finished (st : Download) : Finished st (otaPersistentFinish st).2 := by
  unfold otaPersistentFinish
  cases hstart : st.isPersistentStarted with
  | false => exact .idle (.inl hstart)
  | true =>
    cases hbuf : st.temp4KBuf with
    | none => exact .idle (.inr hbuf)
    | some b =>
      have h := Finished.saved (b := b) hstart hbuf
      exact h

theorem Sized.finished (h : Sized st) (hf : Finished st st') : Sized st' := by
  cases hf with
  | idle => exact h
  | saved =>
    refine ⟨fun b hb => ?_, Nat.zero_le _, rfl, fun hs => ?_⟩
    · exact nomatch hb
    · exact nomatch hs

theorem Sized.on (h : Sized st) {e : Event} (he : e.Small) : Sized (st.on e) := by
  cases e with
  | start mallocOk => exact h.begun (otaPersistentStart_started st mallocOk)
  | recv buf mallocOk => exact h.written (otaPersistentWrite_written st buf mallocOk) he
  | finished =>
    have hfin := h.finished (otaPersistentFinish_finished st)
    exact ⟨hfin.buf, hfin.offset, hfin.sectors, hfin.started⟩

/-! ### Where the driver writes -/

/-- The call stays inside the OTA partition. -/
def InsideOta (o : Op) : Prop := otaSpaceOffset ≤ o.addr ∧ o.addr + o.len ≤ otaSpaceOffset + otaSpaceSize

/-- A buffer is saved only below the end of the partition. -/
def Room (st : Download) : Event → Prop
  | .start _ => True
  | .recv buf _ => st.isPersistentStarted = true → sectorSize4KB - 1 ≤ st.temp4kOffset + buf.length →
      st.flashOtaOffset < otaSpaceSize
  | .finished => st.isPersistentStarted = true → st.flashOtaOffset < otaSpaceSize

theorem save_ops (st : Download) (b : Bytes) : (st.save b).ops = st.dev.ops ++
    [.erase (otaSpaceOffset + st.flashOtaOffset) sectorSize4KB, .program (otaSpaceOffset + st.flashOtaOffset) b] := by
  simp [Download.save, Dev.exec]

/-- A saved sector lies inside the partition if it starts there. -/
theorem Sized.inside_iff (h : Sized st) {b : Bytes} (hb : b.length = sectorSize4KB) :
    (∀ o ∈ [Op.erase (otaSpaceOffset + st.flashOtaOffset) sectorSize4KB, .program (otaSpaceOffset + st.flashOtaOffset) b],
      InsideOta o) ↔ st.flashOtaOffset < otaSpaceSize := by
  have hsec := h.sectors
  have hsize : otaSpaceSize = 200 * sectorSize4KB := rfl
  simp only [List.mem_cons, List.not_mem_nil, or_false, forall_eq_or_imp, forall_eq, InsideOta, Op.addr, Op.len, hb]
  simp only [sectorSize4KB] at hsec hsize ⊢
  omega

/-- The calls of one event lie inside the partition if and only if there is room for them. -/
theorem Sized.on_ops (h : Sized st) (e : Event) :
    ∃ l, (st.on e).dev.ops = st.dev.ops ++ l ∧ ((∀ o ∈ l, InsideOta o) ↔ Room st e) := by
  have hnone : ∀ {P : Prop}, P → ((∀ o ∈ ([] : List Op), InsideOta o) ↔ P) := fun hp => by simp [hp]
  cases e with
  | start mallocOk =>
    refine ⟨[], ?_, hnone trivial⟩
    have hs := otaPersistentStart_started st mallocOk
    simp only [Download.on, List.append_nil]
    generalize (otaPersistentStart st mallocOk).2 = r at hs
    cases hs <;> rfl
  | recv buf mallocOk =>
    have hw := otaPersistentWrite_written st buf mallocOk
    simp only [Download.on]
    generalize otaPersistentWrite st buf mallocOk = r at hw
    cases hw with
    | idle hidle =>
      refine ⟨[], (List.append_nil _).symm, hnone fun hs => ?_⟩
      rcases hidle with hno | hno
      · rw [hno] at hs
        contradiction
      · exact absurd hno (h.started hs)
    | kept _ _ hs => exact ⟨[], (List.append_nil _).symm, hnone fun _ hge => absurd hs (by omega)⟩
    | refused _ _ _ h0 =>
      refine ⟨[], (List.append_nil _).symm, hnone fun _ _ => ?_⟩
      rw [h0]
      decide
    | saved hstart htemp hs _ hsaved =>
      rw [hsaved.dev]
      refine ⟨_, save_ops st _, ?_⟩
      rw [h.inside_iff (h.filled_length htemp buf)]
      exact ⟨fun hlt _ _ => hlt, fun hroom => hroom hstart hs⟩
  | finished =>
    have hf := otaPersistentFinish_finished st
    simp only [Download.on]
    generalize (otaPersistentFinish st).2 = r at hf
    cases hf with
    | idle hidle =>
      refine ⟨[], (List.append_nil _).symm, hnone fun hs => ?_⟩
      rcases hidle with hno | hno
      · rw [hno] at hs
        contradiction
      · exact absurd hno (h.started hs)
    | saved hstart htemp =>
      refine ⟨_, save_ops st _, ?_⟩
      rw [h.inside_iff (h.buf _ htemp)]
      exact ⟨fun hlt _ => hlt, fun hroom => hroom hstart⟩

/-- Every copy into the buffer stays inside it. -/
def CopiesInside (st : Download) : Prop := ∀ p ∈ st.copies, p.1 + p.2 ≤ sectorSize4KB

theorem Sized.on_copies (h : Sized st) {e : Event} (he : e.Small) (hc : CopiesInside st) : CopiesInside (st.on e) := by
  have hadd : ∀ (s : Download) (l : List (ℕ × ℕ)), s.copies = st.copies ++ l → (∀ p ∈ l, p.1 + p.2 ≤ sectorSize4KB) →
      CopiesInside s := by
    intro s l hs hl p hp
    rw [hs, List.mem_append] at hp
    rcases hp with hp | hp
    · exact hc p hp
    · exact hl p hp
  cases e with
  | start mallocOk =>
    have hs := otaPersistentStart_started st mallocOk
    simp only [Download.on]
    generalize (otaPersistentStart st mallocOk).2 = r at hs
    cases hs <;> exact hc
  | recv buf mallocOk =>
    have hw := otaPersistentWrite_written st buf mallocOk
    simp only [Download.on]
    generalize otaPersistentWrite st buf mallocOk = r at hw
    cases hw with
    | idle => exact hc
    | kept _ _ hs =>
      apply hadd _ _ rfl
      simp only [List.mem_singleton, forall_eq]
      omega
    | refused =>
      apply hadd _ _ rfl
      simp only [List.mem_singleton, forall_eq]
      exact h.head_le buf
    | saved _ _ _ _ hsaved =>
      obtain ⟨l, hl, hmem⟩ := hsaved.copies
      apply hadd _ l hl
      intro p hp
      have hhead := h.head_le buf
      have htail := h.tail_le buf he
      rcases hmem p hp with hp | hp
      · rw [hp]
        dsimp only
        exact hhead
      · rw [hp]
        dsimp only
        omega
  | finished =>
    have hf := otaPersistentFinish_finished st
    simp only [Download.on]
    generalize (otaPersistentFinish st).2 = r at hf
    cases hf <;> exact hc

theorem Sized.run (h : Sized st) {events : List Event} (hsmall : ∀ e ∈ events, e.Small) : Sized (st.run events) := by
  induction events generalizing st with
  | nil => exact h
  | cons e events ih => exact ih (h.on (hsmall e (by simp))) fun x hx => hsmall x (by simp [hx])

theorem Sized.run_ops (h : Sized st) {events : List Event} (hsmall : ∀ e ∈ events, e.Small) :
    st.dev.ops <+: (st.run events).dev.ops := by
  induction events generalizing st with
  | nil => exact List.prefix_rfl
  | cons e events ih =>
    obtain ⟨l, hl, -⟩ := h.on_ops e
    refine List.IsPrefix.trans ?_ (ih (h.on (hsmall e (by simp))) fun x hx => hsmall x (by simp [hx]))
    rw [hl]
    exact List.prefix_append _ _

theorem Sized.run_inside (h : Sized st) {events : List Event} (hsmall : ∀ e ∈ events, e.Small)
    (hops : ∀ o ∈ st.dev.ops, InsideOta o) (hc : CopiesInside st) :
    ((∀ o ∈ (st.run events).dev.ops, InsideOta o) ∧ CopiesInside (st.run events)) ↔ Always Room st events := by
  induction events generalizing st with
  | nil => exact ⟨fun _ => trivial, fun _ => ⟨hops, hc⟩⟩
  | cons e events ih =>
    have he := hsmall e (by simp)
    have hrest : ∀ x ∈ events, x.Small := fun x hx => hsmall x (by simp [hx])
    obtain ⟨l, hl, hroom⟩ := h.on_ops e
    by_cases hr : Room st e
    · have hops' : ∀ o ∈ (st.on e).dev.ops, InsideOta o := by
        intro o ho
        rw [hl, List.mem_append] at ho
        rcases ho with ho | ho
        · exact hops o ho
        · exact hroom.mpr hr o ho
      have hih := ih (h.on he) hrest hops' (h.on_copies he hc)
      exact ⟨fun hall => ⟨hr, hih.mp hall⟩, fun hall => hih.mpr hall.2⟩
    · refine ⟨fun hall => ?_, fun hall => absurd hall.1 hr⟩
      refine absurd (hroom.mp fun o ho => ?_) hr
      apply hall.1
      apply ((h.on he).run_ops hrest).subset
      rw [hl]
      exact List.mem_append_right _ ho

theorem run_append (st : Download) (xs ys : List Event) : st.run (xs ++ ys) = (st.run xs).run ys := by
  induction xs generalizing st with
  | nil => rfl
  | cons e xs ih => exact ih _

theorem run_recv (st : Download) (cs : List Bytes) :
    st.run (cs.map fun c => .recv c true) = otaPersistentWrites st cs := by
  induction cs generalizing st with
  | nil => rfl
  | cons c cs ih => exact ih _

/-- Pieces of half a sector leave no gap. -/
theorem laid_length_half (img : Bytes) (cs : List Bytes) (hcs : ∀ c ∈ cs, c.length = 2048) (himg : img.length % 2048 = 0) :
    (laid img cs).length = img.length + 2048 * cs.length := by
  induction cs generalizing img with
  | nil => rfl
  | cons c cs ih =>
    have hc := hcs c (by simp)
    have hplain : lay img c = img ++ c := by
      apply lay_plain
      rw [List.length_append]
      simp only [sectorSize4KB]
      omega
    have hlen : (img ++ c).length = img.length + 2048 := by rw [List.length_append, hc]
    rw [laid, hplain, ih (img ++ c) (fun x hx => hcs x (by simp [hx])) (by omega), hlen, List.length_cons]
    omega

/-- A body as long as the partition, in pieces of half a sector. -/
def longBody : List Bytes := (sampleHeader ++ List.replicate 1792 0) :: List.replicate 399 (List.replicate 2048 0)

end Ln882x.Ota
