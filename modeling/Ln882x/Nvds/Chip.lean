import Ln882x.Nvds.Atomic
import Ln882x.Hal.Driver

/-! The store on the chip. A write of some bytes is thousands of transactions: erases of
sectors, programs of pages, their write enables. Wherever among them the power is cut,
the store reads as before the write or as after it. A part of a call on the spare mirror
does not show; the two calls on the flag are one operation of the chip each. -/

namespace Ln882x.Nvds

open Nor Hal

variable {base : ℕ} {f g : Flash}

/-! ### The calls of a write -/

/-- A call in the mirror at `t`. -/
def InMirror (t : ℕ) (o : Op) : Prop := t ≤ o.addr ∧ o.addr + o.len ≤ t + size4KB

/-- The program has made the calls and left what they are for. -/
structure Made (d : Dev) (ops : List Op) (d' : Dev) : Prop where
  calls : d'.ops = d.ops ++ ops
  content : d'.flash = applyAll ops d.flash

theorem Made.nil (d : Dev) : Made d [] d := ⟨by simp, rfl⟩

theorem Made.exec (d : Dev) (o : Op) : Made d [o] (d.exec o) := ⟨rfl, rfl⟩

theorem Made.append {d d₁ d₂ : Dev} {xs ys : List Op} (h : Made d xs d₁) (h' : Made d₁ ys d₂) : Made d (xs ++ ys) d₂ :=
  ⟨by rw [h'.calls, h.calls, List.append_assoc], by rw [h'.content, h.content, applyAll_append]⟩

/-- The byte loop programs single bytes of its range. -/
theorem nvdsCopy_made (src dst n i : ℕ) (d : Dev) : ∃ ops, Made d ops (nvdsCopy src dst i n d).2 ∧
    ∀ o ∈ ops, ∃ x b, o = .program x [b] ∧ dst + i ≤ x ∧ x < dst + i + n := by
  induction n generalizing i d with
  | zero => exact ⟨[], .nil d, by simp⟩
  | succ n ih =>
    have hread : nvdsReadFlash (src + i) 1 d = ([d.flash (src + i)], d) := by
      rw [nvdsReadFlash, readBytes_succ, readBytes_zero]
    rw [nvdsCopy, run_bind_eq hread]
    by_cases hff : [d.flash (src + i)] ≠ [0xFF]
    · obtain ⟨ops, hm, hr⟩ := ih (i + 1) (d.exec (.program (dst + i) [d.flash (src + i)]))
      refine ⟨[.program (dst + i) [d.flash (src + i)]] ++ ops, ?_, ?_⟩
      · rw [if_pos hff]
        exact (Made.exec d _).append hm
      · rintro o ho
        rcases List.mem_cons.mp ho with rfl | ho
        · exact ⟨_, _, rfl, le_rfl, by omega⟩
        · obtain ⟨x, b, rfl, hlo, hhi⟩ := hr o ho
          exact ⟨x, b, rfl, by omega, by omega⟩
    · obtain ⟨ops, hm, hr⟩ := ih (i + 1) d
      refine ⟨ops, ?_, fun o ho => ?_⟩
      · rw [if_neg hff]
        exact hm
      · obtain ⟨x, b, rfl, hlo, hhi⟩ := hr o ho
        exact ⟨x, b, rfl, by omega, by omega⟩

/-- The flag calls of a write. -/
def flagCalls (base flag : ℕ) : List Op :=
  [.erase (usrNvdsFlagOffset base) size4KB, .program (usrNvdsFlagOffset base) (leBytes 2 flag)]

/-- A write fills one mirror, then erases the flag and programs it. -/
theorem nvdsRewrite_made {src t offset : ℕ} {data : Bytes} (h4 : 4 ≤ offset) (hl : offset + data.length ≤ size4KB)
    (ht : falshSize4K ∣ t) (hin : t + size4KB < falshSizeMax) (flag : ℕ) (d : Dev) :
    ∃ fill, Made d (fill ++ flagCalls base flag) (nvdsRewrite base src t flag offset data d).2 ∧
      ∀ o ∈ fill, InMirror t o ∧ InDevice o := by
  have hi : (offset + data.length) % 2 ^ 32 = offset + data.length :=
    Nat.mod_eq_of_lt (by simp only [size4KB] at hl; omega)
  obtain ⟨xs, hx, hxr⟩ := nvdsCopy_made src t (offset - 4) 4
    ((d.exec (.erase t size4KB)).exec (.program t (leBytes 4 sectMagicCode)))
  generalize hd₁ : (nvdsCopy src t 4 (offset - 4) ((d.exec (.erase t size4KB)).exec (.program t (leBytes 4 sectMagicCode)))).2 = d₁ at hx
  obtain ⟨ys, hy, hyr⟩ := nvdsCopy_made src t (size4KB - (offset + data.length)) (offset + data.length)
    (d₁.exec (.program (t + offset) data))
  generalize hd₂ : (nvdsCopy src t (offset + data.length) (size4KB - (offset + data.length))
    (d₁.exec (.program (t + offset) data))).2 = d₂ at hy
  refine ⟨[.erase t size4KB] ++ [.program t (leBytes 4 sectMagicCode)] ++ xs ++ [.program (t + offset) data] ++ ys, ?_, ?_⟩
  · have hrun : (nvdsRewrite base src t flag offset data d).2 =
        (d₂.exec (.erase (usrNvdsFlagOffset base) size4KB)).exec (.program (usrNvdsFlagOffset base) (leBytes 2 flag)) := by
      rw [← hd₂, ← hd₁, ← hi]
      rfl
    rw [hrun]
    exact (((((Made.exec d _).append (.exec _ _)).append hx).append (.exec _ _)).append hy).append
      ((Made.exec d₂ _).append (.exec _ _))
  · simp only [size4KB, falshSize4K, falshSizeMax] at *
    intro o ho
    simp only [List.append_assoc, List.cons_append, List.nil_append, List.mem_cons, List.mem_append] at ho
    rcases ho with rfl | rfl | ho | rfl | ho
    · exact ⟨⟨le_rfl, le_rfl⟩, ht, by decide, hin.le⟩
    · refine ⟨⟨le_rfl, ?_⟩, ?_, ?_⟩
      · simp [Op.addr, Op.len, size4KB]
      · simp only [falshSizeMax]
        omega
      · simp [falshSizeMax]
        omega
    · obtain ⟨x, b, rfl, hlo, hhi⟩ := hxr o ho
      simp only [InMirror, InDevice, Op.addr, Op.len, List.length_singleton, size4KB, falshSizeMax]
      omega
    · simp only [InMirror, InDevice, Op.addr, Op.len, size4KB, falshSizeMax]
      omega
    · obtain ⟨x, b, rfl, hlo, hhi⟩ := hyr o ho
      simp only [InMirror, InDevice, Op.addr, Op.len, List.length_singleton, size4KB, falshSizeMax]
      omega

/-- The three sectors of the store are sectors of the chip. -/
structure OnChip (base : ℕ) : Prop where
  aligned : falshSize4K ∣ base
  inside : base + size4KB * 3 ≤ falshSizeMax

theorem OnChip.sect (h : OnChip base) (f : Flash) :
    falshSize4K ∣ spareSect base f ∧ spareSect base f + size4KB < falshSizeMax ∧ falshSize4K ∣ usrNvdsFlagOffset base ∧
      usrNvdsFlagOffset base + falshSize4K ≤ falshSizeMax := by
  obtain ⟨ha, hin⟩ := h
  simp only [spareSect, usrNvdsFlagOffset, usrNvdsSect2Offset, usrNvdsSect1Offset, size4KB, falshSize4K, falshSizeMax] at *
  split_ifs <;> omega

theorem lnNvdsWrite_made (h : OnChip base) {offset : ℕ} {data : Bytes} (h4 : 4 ≤ offset) (hl : offset + data.length ≤ size4KB) (d : Dev) :
    ∃ fill flag, Made d (fill ++ flagCalls base flag) (lnNvdsWrite base offset data d).2 ∧
      ∀ o ∈ fill, InMirror (spareSect base d.flash) o ∧ InDevice o := by
  have hm : ¬ (offset + data.length) % 2 ^ 32 > size4KB := by simp only [size4KB] at *; omega
  obtain ⟨flag, -, -, hrun⟩ := @lnNvdsWrite_rewrite base offset data hm d
  obtain ⟨ht, hin, -, -⟩ := h.sect d.flash
  obtain ⟨fill, hmade, hfill⟩ := @nvdsRewrite_made base (validSect base d.flash) _ offset data h4 hl ht hin flag d
  exact ⟨fill, flag, hrun ▸ hmade, hfill⟩

/-- Each call on the flag is one operation of the chip. -/
theorem flagCalls_carriedOut (h : OnChip base) (flag : ℕ) {o : Op} (ho : o ∈ flagCalls base flag) :
    InDevice o ∧ ∃ c, carriedOut o = [c] := by
  obtain ⟨-, -, ha, hin⟩ := h.sect (fun _ => 0)
  have hpage : pageSize ∣ usrNvdsFlagOffset base := Nat.dvd_trans (by decide) ha
  have hlt : usrNvdsFlagOffset base + 2 ≤ falshSizeMax := by simp only [falshSize4K] at hin; omega
  simp only [flagCalls, List.mem_cons, List.not_mem_nil, or_false] at ho
  rcases ho with rfl | rfl
  · exact ⟨⟨ha, by decide, hin⟩, _, carriedOut_sector ha hin⟩
  · refine ⟨⟨by omega, ?_⟩, _, carriedOut_short hpage (by omega) ?_ ?_⟩
    · rw [length_leBytes]
      exact hlt
    · rw [← List.length_pos_iff, length_leBytes]
      decide
    · rw [length_leBytes]
      decide

theorem lnNvdsWrite_inDevice (h : OnChip base) {offset : ℕ} {data : Bytes} (h4 : 4 ≤ offset) (hl : offset + data.length ≤ size4KB)
    (f : Flash) : (∀ o ∈ (lnNvdsWrite base offset data (.on f)).2.ops, InDevice o) ∧
      (lnNvdsWrite base offset data (.on f)).2.flash = applyAll (lnNvdsWrite base offset data (.on f)).2.ops f := by
  obtain ⟨fill, flag, ⟨hcalls, hcontent⟩, hfill⟩ := lnNvdsWrite_made h h4 hl (.on f)
  rw [hcalls]
  refine ⟨fun o ho => ?_, hcontent⟩
  simp only [Dev.on, List.nil_append, List.mem_append] at ho
  exact ho.elim (fun ho => (hfill o ho).2) fun ho => (flagCalls_carriedOut h flag ho).1

/-! ### A cut -/

/-- Wherever the power is cut among the transactions of a write, the store holds the old content
or the new one. -/
theorem lnNvdsWrite_contentAfter (h : OnChip base) (hs : Sound base f) {offset : ℕ} {data : Bytes} (h4 : 4 ≤ offset)
    (hl : offset + data.length ≤ size4KB) (k : ℕ) :
    ∃ g, contentAfter (lnNvdsWrite base offset data (.on f)).2.ops k f = some g ∧ BeforeOrAfter base offset data f g := by
  obtain ⟨d', hw, hsteps, -⟩ := lnNvdsWrite_spec hs h4 hl (.on f) rfl
  obtain ⟨fill, flag, ⟨hcalls, -⟩, hfill⟩ := lnNvdsWrite_made h h4 hl (.on f)
  obtain ⟨hin, -⟩ := lnNvdsWrite_inDevice h h4 hl f
  rw [hw] at hcalls hin ⊢
  have hops : d'.ops = fill ++ flagCalls base flag := hcalls
  have hcut : ∀ j, BeforeOrAfter base offset data f (applyAll (d'.ops.take j) f) := fun j => hsteps.cut j
  obtain ⟨g, hg, hcases⟩ := contentAfter_cases hin k f
  refine ⟨g, hg, ?_⟩
  rcases hcases with rfl | ⟨front, o, rear, part, hsplit, hpart, rfl⟩
  · simpa using hcut d'.ops.length
  have hfront : applyAll front f = applyAll (d'.ops.take front.length) f := by rw [hsplit, List.take_left]
  by_cases hlt : front.length < fill.length
  · -- a call on the spare mirror
    have hpre : front ++ [o] <+: fill := by
      refine List.prefix_of_prefix_length_le (show front ++ [o] <+: d'.ops from ⟨rear, by rw [hsplit]; simp⟩)
        ⟨flagCalls base flag, hops.symm⟩ ?_
      simp
      omega
    have hmem : ∀ o' ∈ front ++ [o], InMirror (spareSect base f) o' ∧ InDevice o' := fun o' ho' => hfill o' (hpre.subset ho')
    obtain ⟨hmirror, hdev⟩ := hmem o (by simp)
    obtain ⟨-, -, -, -, hrange⟩ := carriedOut_spec hdev
    have hframe : Frame (spareSect base f) f (applyOps part (applyAll front f)) := by
      intro x hx
      rw [applyOps_outside (fun c hc f' => ?_), applyAll_outside f fun o' ho' => ?_]
      · have := (hmem o' (by simp [ho'])).1
        simp only [InMirror] at this
        omega
      · refine hrange c (hpart.subset hc) f' x ?_
        simp only [InMirror] at hmirror
        omega
    exact ⟨hframe.unchanged.2.2 hs, .inl hframe.unchanged.2.1⟩
  · -- a call on the flag
    have hflag : o ∈ flagCalls base flag := by
      have hdrop : (front.drop fill.length) ++ o :: rear = flagCalls base flag := by
        have := congrArg (List.drop fill.length) (hops.symm.trans hsplit)
        rw [List.drop_left, List.drop_append_of_le_length (by omega)] at this
        exact this.symm
      rw [← hdrop]
      simp
    obtain ⟨hdev, c, hc⟩ := flagCalls_carriedOut h flag hflag
    obtain ⟨-, -, -, hwhole, -⟩ := carriedOut_spec hdev
    rcases List.prefix_cons_iff.mp (hc ▸ hpart) with rfl | ⟨t, rfl, ht⟩
    · rw [show applyOps [] (applyAll front f) = applyAll front f from rfl, hfront]
      exact hcut _
    · rw [List.prefix_nil] at ht
      subst ht
      have htake : d'.ops.take (front.length + 1) = front ++ [o] := by
        have hle : front.take (front.length + 1) = front := List.take_of_length_le (by omega)
        rw [show d'.ops = front ++ o :: rear from hsplit, List.take_append, hle]
        simp
      have hone : applyOps [c] (applyAll front f) = applyAll (d'.ops.take (front.length + 1)) f := by
        rw [← hc, hwhole, htake, applyAll_append]
        rfl
      rw [hone]
      exact hcut _

/-! ### Runs -/

/-- A write that completes, or one cut behind its first `k` transactions, and a reboot. -/
inductive ChipEvent where
  | write (offset : ℕ) (data : Bytes)
  | cut (offset : ℕ) (data : Bytes) (k : ℕ)

namespace ChipEvent

def Valid : ChipEvent → Prop
  | .write offset data | .cut offset data _ => sectMagicCodeLen ≤ offset ∧ offset + data.length ≤ size4KB

def run (base : ℕ) (f : Flash) : ChipEvent → Option Flash
  | .write offset data => contentOf (lnNvdsWrite base offset data (.on f)).2.ops f
  | .cut offset data k => do
    let g ← contentAfter (lnNvdsWrite base offset data (.on f)).2.ops k f
    contentOf (lnNvdsInit base (.on g)).2.ops g

def Outcome (c c' : Bytes) : ChipEvent → Prop
  | .write offset data => c' = splice c offset data
  | .cut offset data _ => c' = c ∨ c' = splice c offset data

end ChipEvent

/-- The chip after a first `ln_nvds_init` and the given events. -/
def chipRunAll (base : ℕ) (f : Flash) (evs : List ChipEvent) : Option Flash := do
  let g ← contentOf (lnNvdsInit base (.on f)).2.ops f
  evs.foldlM (ChipEvent.run base) g

theorem ChipEvent.run_spec (h : OnChip base) (hs : Sound base f) {e : ChipEvent} (he : e.Valid) :
    ∃ g, e.run base f = some g ∧ Sound base g ∧ e.Outcome (content base f) (content base g) := by
  cases e with
  | write offset data =>
    obtain ⟨hin, hflash⟩ := lnNvdsWrite_inDevice h he.1 he.2 f
    obtain ⟨d', hw, hsteps, hc⟩ := lnNvdsWrite_spec hs he.1 he.2 (.on f) rfl
    rw [hw] at hin hflash
    refine ⟨d'.flash, ?_, hsteps.end.1, hc⟩
    rw [ChipEvent.run, hw, contentOf_eq hin, ← hflash]
  | cut offset data k =>
    obtain ⟨g, hg, hS, hc⟩ := lnNvdsWrite_contentAfter h hs he.1 he.2 k
    refine ⟨g, ?_, hS, hc⟩
    have hinit := lnNvdsInit_sound hS (.on g) rfl
    have hnone : contentOf [] g = some g := contentOf_eq (by simp) g
    rw [ChipEvent.run, hg, Option.bind_eq_bind, Option.bind_some, hinit]
    exact hnone

/-- The first `ln_nvds_init` formats an erased chip. -/
theorem lnNvdsInit_chip (h : OnChip base) (hf : Erased f base (size4KB * 3)) :
    ∃ g, contentOf (lnNvdsInit base (.on f)).2.ops f = some g ∧ Sound base g := by
  have hrun : lnNvdsInit base (.on f) = lnNvdsWrite base nv0NvdsVersionOffst (nv0NvdsVersionStr.take nv0NvdsVersionLen)
      ((Dev.on f).exec (.erase base (size4KB * 3))) := by
    rw [lnNvdsInit, run_bind_eq (lnNvdsRead_fails (not_readable_erased hf))]
    rfl
  obtain ⟨fill, flag, hmade, hfill⟩ := lnNvdsWrite_made h (show 4 ≤ nv0NvdsVersionOffst by decide)
    (show nv0NvdsVersionOffst + (nv0NvdsVersionStr.take nv0NvdsVersionLen).length ≤ size4KB by decide)
    ((Dev.on f).exec (.erase base (size4KB * 3)))
  have hall := (Made.exec (.on f) (.erase base (size4KB * 3))).append hmade
  rw [← hrun] at hall
  have hsound := lnNvdsInit_erased hf
  generalize (lnNvdsInit base (.on f)).2 = d' at hall hsound
  have hops : d'.ops = [.erase base (size4KB * 3)] ++ (fill ++ flagCalls base flag) := hall.calls
  refine ⟨d'.flash, ?_, hsound⟩
  rw [hall.content, hops]
  refine contentOf_eq (fun o ho => ?_) f
  simp only [List.cons_append, List.nil_append, List.mem_cons, List.mem_append] at ho
  rcases ho with rfl | ho | ho
  · exact ⟨h.aligned, by decide, h.inside⟩
  · exact (hfill o ho).2
  · exact (flagCalls_carriedOut h flag ho).1

theorem chipRunAll_sound (h : OnChip base) (hf : Erased f base (size4KB * 3)) {evs : List ChipEvent} (hv : ∀ e ∈ evs, e.Valid) :
    ∃ g, chipRunAll base f evs = some g ∧ Sound base g := by
  induction evs using List.reverseRecOn with
  | nil =>
    obtain ⟨g, hg, hs⟩ := lnNvdsInit_chip h hf
    exact ⟨g, by simp [chipRunAll, hg], hs⟩
  | append_singleton evs e ih =>
    obtain ⟨g, hg, hs⟩ := ih fun x hx => hv x (by simp [hx])
    obtain ⟨g', hg', hs', -⟩ := ChipEvent.run_spec h hs (hv e (by simp))
    refine ⟨g', ?_, hs'⟩
    simp only [chipRunAll, Option.bind_eq_bind] at hg ⊢
    obtain ⟨g₀, hg₀, hrest⟩ := Option.bind_eq_some_iff.mp hg
    simp [hg₀, List.foldlM_append, hrest, hg']

/-- From an erased chip, after any completed writes and writes cut anywhere in their stream of
transactions, the area reads successfully; one more write takes what is read to what it
splices in, and a cut one does so or changes nothing. -/
theorem lnNvdsWrite_chip_atomic (base : ℕ) (f : Flash) (h : OnChip base) (hf : Erased f base (size4KB * 3))
    (evs : List ChipEvent) (hv : ∀ e ∈ evs, e.Valid) (e : ChipEvent) (he : e.Valid) :
    ∃ g g' c c', chipRunAll base f evs = some g ∧ chipRunAll base f (evs ++ [e]) = some g' ∧
      (lnNvdsRead base 0 size4KB (.on g)).1 = (.ok, c) ∧ (lnNvdsRead base 0 size4KB (.on g')).1 = (.ok, c') ∧ e.Outcome c c' := by
  obtain ⟨g, hg, hs⟩ := chipRunAll_sound h hf hv
  obtain ⟨g', hg', hs', hout⟩ := ChipEvent.run_spec h hs he
  refine ⟨g, g', _, _, hg, ?_, lnNvdsRead_whole hs, lnNvdsRead_whole hs', hout⟩
  simp only [chipRunAll, Option.bind_eq_bind] at hg ⊢
  obtain ⟨g₀, hg₀, hrest⟩ := Option.bind_eq_some_iff.mp hg
  simp [hg₀, List.foldlM_append, hrest, hg']

/-- The upgrade state is written, and then written again and cut behind its fifth transaction. -/
theorem lnNvdsWrite_chip_atomic_upg_state :
    ∃ g g' c c', chipRunAll 0xA000 (fun _ => 0xFF) [.write 20 [1, 0, 0, 0]] = some g ∧
      chipRunAll 0xA000 (fun _ => 0xFF) ([.write 20 [1, 0, 0, 0]] ++ [.cut 20 [3, 0, 0, 0] 5]) = some g' ∧
      (lnNvdsRead 0xA000 0 size4KB (.on g)).1 = (.ok, c) ∧ (lnNvdsRead 0xA000 0 size4KB (.on g')).1 = (.ok, c') ∧
      (ChipEvent.cut 20 [3, 0, 0, 0] 5).Outcome c c' :=
  lnNvdsWrite_chip_atomic 0xA000 (fun _ => 0xFF) ⟨by decide, by decide⟩ (fun _ _ _ => rfl) [.write 20 [1, 0, 0, 0]]
    (by simp [ChipEvent.Valid, sectMagicCodeLen, size4KB]) (.cut 20 [3, 0, 0, 0] 5)
    (by simp [ChipEvent.Valid, sectMagicCodeLen, size4KB])

end Ln882x.Nvds
