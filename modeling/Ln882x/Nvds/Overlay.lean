import Ln882x.Nvds.Fields

/-! A write to the data store as an overlay: which writes replace exactly the
bytes they name. The guard of `ln_nvds_write` compares a 32-bit sum with the
size of the area and looks at no lower bound, so it lets writes over the magic
code pass, and writes whose end wraps around. -/

namespace Ln882x.Nvds

open Nor

variable {base offset : ℕ} {data : Bytes} {f : Flash}

/-! ### An empty write in front of the data -/

theorem nvdsCopy_add (src t : ℕ) (m n : ℕ) : ∀ (i : ℕ) (d : Dev),
    nvdsCopy src t i (m + n) d = nvdsCopy src t (i + m) n (nvdsCopy src t i m d).2 := by
  induction m with
  | zero =>
    intro i d
    rw [Nat.zero_add]
    rfl
  | succ m ih =>
    intro i d
    have hi : i + 1 + m = i + (m + 1) := by omega
    rw [Nat.succ_add, nvdsCopy, nvdsCopy, run_bind, run_bind, run_ite, run_ite]
    split_ifs
    · rw [run_bind, run_bind]
      dsimp only
      rw [ih, hi]
    · dsimp only
      rw [ih, hi]

/-- Copying bytes onto equal bytes changes nothing. -/
theorem nvdsCopy_same {src t : ℕ} (n : ℕ) : ∀ (i : ℕ) (d : Dev),
    readBytes d.flash (t + i) n = readBytes d.flash (src + i) n →
      (nvdsCopy src t i n d).2.flash = d.flash := by
  induction n with
  | zero =>
    intro i d _
    rfl
  | succ n ih =>
    intro i d hd
    rw [readBytes_succ, readBytes_succ, List.cons.injEq] at hd
    rw [nvdsCopy, run_bind_eq (show nvdsReadFlash (src + i) 1 d = ([d.flash (src + i)], d) from rfl)]
    by_cases hff : d.flash (src + i) = 0xFF
    · rw [if_neg (by simp [hff])]
      exact ih (i + 1) d hd.2
    · have hs : (d.exec (.program (t + i) [d.flash (src + i)])).flash = d.flash :=
        program_same (by rw [List.length_singleton, readBytes_succ, readBytes_zero, hd.1])
      rw [if_pos (by simpa using hff)]
      exact (ih (i + 1) _ (by rw [hs]; exact hd.2)).trans hs

/-- A write of no bytes at an offset inside the magic code programs the magic code a second
time over itself. -/
theorem nvdsRewrite_empty {src t : ℕ} (hst : src + size4KB ≤ t ∨ t + size4KB ≤ src) (h4 : offset < 4)
    (flag : ℕ) (d : Dev) (hs : readBytes d.flash src 4 = leBytes 4 sectMagicCode) :
    ∃ d' : Dev, nvdsRewrite base src t flag offset [] d = (.ok,
        (d'.exec (.erase (usrNvdsFlagOffset base) size4KB)).exec
          (.program (usrNvdsFlagOffset base) (leBytes 2 flag))) ∧
      readBytes d'.flash t size4KB = readBytes d.flash src size4KB := by
  let d₁ := d.exec (.erase t size4KB)
  have hf₁ : Frame t d.flash d₁.flash :=
    Frame.exec (Frame.refl t d.flash) (.erase t size4KB) le_rfl le_rfl
  have hr₁ : readBytes d₁.flash t size4KB =
      blank (leBytes 4 sectMagicCode).length ++ blank (size4KB - 4) := by
    rw [Dev.exec_flash, readBytes_erase, ← blank_add]
    rfl
  let d₂ := d₁.exec (.program t (leBytes 4 sectMagicCode))
  have hf₂ : Frame t d.flash d₂.flash :=
    hf₁.exec (.program t (leBytes 4 sectMagicCode)) le_rfl (by simp [Op.addr, Op.len, size4KB])
  have hr₂ : readBytes d₂.flash t size4KB = leBytes 4 sectMagicCode ++ blank (size4KB - 4) :=
    readBytes_program_head hr₁
  let d₃ := d₂.exec (.program (t + offset) [])
  have hd₃ : d₃.flash = d₂.flash := program_same rfl
  -- the first bytes copied are those of the magic code, which are there already
  have hmagic : readBytes d₃.flash (t + offset) (4 - offset) =
      readBytes d₃.flash (src + offset) (4 - offset) := by
    have hread : readBytes d₂.flash (src + offset) (4 - offset) =
        readBytes d.flash (src + offset) (4 - offset) := hf₂.read (by simp only [size4KB] at *; omega)
    rw [hd₃, hread,
      readBytes_slice d₂.flash t 4 offset (4 - offset) (by omega),
      readBytes_slice d.flash src 4 offset (4 - offset) (by omega), hs,
      readBytes_head hr₂ (length_leBytes 4 _)]
  set d₄ := (nvdsCopy src t offset (4 - offset) d₃).2 with hd₄
  have hf₄ : d₄.flash = d₂.flash := (nvdsCopy_same (4 - offset) offset d₃ hmagic).trans hd₃
  have hr₄ : readBytes d₄.flash t size4KB =
      leBytes 4 sectMagicCode ++ blank (size4KB - 4) ++ [] := by rw [hf₄, hr₂, List.append_nil]
  obtain ⟨d₅, he₅, -, hr₅⟩ := nvdsCopy_spec hst (size4KB - 4) 4 _ _ d₄ (by rw [hf₄]; exact hf₂) (by simp) hr₄
  refine ⟨d₅, ?_, ?_⟩
  · have h0 : offset - sectMagicCodeLen = 0 := by simp only [sectMagicCodeLen]; omega
    have hi : (offset + ([] : Bytes).length) % 2 ^ 32 = offset :=
      Nat.mod_eq_of_lt (by simp only [List.length_nil]; omega)
    have hn : size4KB - offset = (4 - offset) + (size4KB - 4) := by simp only [size4KB]; omega
    have ho : offset + (4 - offset) = 4 := by omega
    have hcopy : nvdsCopy src t offset (size4KB - offset) d₃ = ((), d₅) := by
      rw [hn, nvdsCopy_add, ho, ← hd₄, he₅]
    rw [nvdsRewrite, run_bind_eq (show nvdsEraseFlash t size4KB d = ((), d₁) from rfl),
      run_bind_eq (show nvdsSetMagicCode t d₁ = ((), d₂) from rfl), h0,
      run_bind_eq (show nvdsCopy src t sectMagicCodeLen 0 d₂ = ((), d₂) from rfl),
      run_bind_eq (show nvdsWriteFlash (t + offset) [] d₂ = ((), d₃) from rfl), hi, run_bind_eq hcopy]
    rfl
  · rw [hr₅, List.append_nil, ← hs, ← readBytes_add]
    rfl

/-! ### One write -/

theorem splice_nil {c : Bytes} : splice c offset [] = c := by
  simp [splice]

/-- The guard of `ln_nvds_write` refuses. -/
def Refused (offset : ℕ) (data : Bytes) : Prop := (offset + data.length) % 2 ^ 32 > size4KB

instance : Decidable (Refused offset data) := inferInstanceAs (Decidable (_ > _))

/-- Nothing is written, or everything behind the magic code and inside the area. -/
def InArea (offset : ℕ) (data : Bytes) : Prop :=
  data = [] ∨ sectMagicCodeLen ≤ offset ∧ offset + data.length ≤ size4KB

theorem lnNvdsWrite_refused (h : Refused offset data) (d : Dev) :
    lnNvdsWrite base offset data d = (.fail, d) := by
  have hg : (offset + data.length) % 2 ^ 32 > size4KB := h
  rw [lnNvdsWrite, run_ite, if_pos hg]
  rfl

theorem lnNvdsWrite_inArea {d : Dev} (ho : offset < 2 ^ 32) (hs : Sound base d.flash)
    (hr : ¬ Refused offset data) (h : InArea offset data) :
    ∃ d', lnNvdsWrite base offset data d = (.ok, d') ∧ Sound base d'.flash ∧
      content base d'.flash = splice (content base d.flash) offset data := by
  by_cases h4 : 4 ≤ offset ∧ offset + data.length ≤ size4KB
  · obtain ⟨d', he, hs', hc⟩ := @lnNvdsWrite_stamped base _ _ h4.1 h4.2 d
    rw [stamped_eq hs] at hc
    exact ⟨d', he, hs', hc⟩
  · obtain rfl : data = [] := h.resolve_right h4
    have h0 : offset < 4 := by
      simp only [Refused, List.length_nil, Nat.add_zero, Nat.mod_eq_of_lt ho] at hr h4
      omega
    obtain ⟨flag, hflag, hspare, hrun⟩ := @lnNvdsWrite_rewrite base _ _ hr d
    obtain ⟨d₁, he, hc₁⟩ := @nvdsRewrite_empty base _ _ _ (@sects_disjoint base d.flash) h0 flag d hs
    have hc := content_flagged hflag hspare d₁
    rw [hc₁, ← content] at hc
    refine ⟨_, hrun.trans he, ?_, by rw [hc, splice_nil]⟩
    rw [sound_iff_content, hc, ← sound_iff_content]
    exact hs

/-- The write is an overlay: when it reports success its range lies behind the magic code and
inside the area, later reads return the bytes read before with that range replaced, and the
magic code is there; when it reports failure the flash is as it was. -/
def Overlays (base offset : ℕ) (data : Bytes) (d : Dev) : Prop :=
  ((lnNvdsWrite base offset data d).1 = .ok →
    (∀ i, offset ≤ i → i < offset + data.length → sectMagicCodeLen ≤ i ∧ i < size4KB) ∧
    (∃ c, (lnNvdsRead base 0 size4KB d).1 = (.ok, c) ∧ ∀ o n, o + n ≤ size4KB →
      (lnNvdsRead base o n (lnNvdsWrite base offset data d).2).1 =
        (.ok, ((splice c offset data).drop o).take n)) ∧
    Sound base (lnNvdsWrite base offset data d).2.flash) ∧
  ((lnNvdsWrite base offset data d).1 = .fail →
    (lnNvdsWrite base offset data d).2.flash = d.flash)

theorem overlays_of_inArea {d : Dev} (ho : offset < 2 ^ 32) (hs : Sound base d.flash)
    (hr : ¬ Refused offset data) (h : InArea offset data) : Overlays base offset data d := by
  obtain ⟨d', he, hs', hc⟩ := lnNvdsWrite_inArea ho hs hr h
  rw [Overlays, he]
  refine ⟨fun _ => ⟨?_, ⟨content base d.flash, ?_, ?_⟩, hs'⟩, fun hf => by cases hf⟩
  · intro i h0 h1
    rcases h with rfl | h
    · simp only [List.length_nil] at h1
      omega
    · omega
  · rw [lnNvdsRead_sound hs (by simp) d rfl]
    rfl
  · intro o n hon
    have ho := @stored_eq base d'.flash o n hon
    rw [hc] at ho
    rw [lnNvdsRead_sound hs' hon d' rfl, ← ho]
    rfl

theorem inside_inArea (h : ∀ i, offset ≤ i → i < offset + data.length → sectMagicCodeLen ≤ i ∧ i < size4KB) :
    InArea offset data := by
  by_cases hd : data = []
  · exact .inl hd
  · have hp := List.length_pos_iff.mpr hd
    have h0 := h offset le_rfl (by omega)
    have h1 := h (offset + data.length - 1) (by omega) (by omega)
    exact .inr ⟨h0.1, by omega⟩

theorem overlays_of_refused (hr : Refused offset data) (d : Dev) : Overlays base offset data d := by
  rw [Overlays, lnNvdsWrite_refused hr]
  exact ⟨fun h => (by cases h), fun _ => rfl⟩

theorem lnNvdsWrite_ok (hr : ¬ Refused offset data) (d : Dev) :
    (lnNvdsWrite base offset data d).1 = .ok := by
  obtain ⟨flag, -, -, hrun⟩ := @lnNvdsWrite_rewrite base _ _ hr d
  rw [hrun]
  rfl

/-- The bytes read after an overlay start with the magic code, and they are those read before
it: the magic code was there. -/
theorem sound_of_overlays {d : Dev} (h : Overlays base offset data d) (hr : ¬ Refused offset data)
    (hread : Readable base d.flash) : InArea offset data ∧ Sound base d.flash := by
  obtain ⟨hin, ⟨c, hc, hlater⟩, hs⟩ := h.1 (lnNvdsWrite_ok hr d)
  have ha := inside_inArea hin
  rw [lnNvdsRead_readable hread (by simp) d rfl] at hc
  obtain rfl : content base d.flash = c := (Prod.mk.inj hc).2
  have h4 := hlater 0 4 (by decide)
  rw [lnNvdsRead_sound hs (by decide) _ rfl] at h4
  have hm : ((splice (content base d.flash) offset data).drop 0).take 4 = leBytes 4 sectMagicCode :=
    (Prod.mk.inj h4).2.symm.trans hs
  refine ⟨ha, sound_iff_content.mpr ?_⟩
  rcases ha with rfl | ha
  · rwa [splice_nil] at hm
  · rw [List.drop_zero, splice_magic ha.1 (by simp [content]; omega)] at hm
    exact hm

/-- One write from a state in which reads succeed. -/
theorem overlays_iff (ho : offset < 2 ^ 32) {d : Dev} (hread : Readable base d.flash) :
    Overlays base offset data d ↔ Refused offset data ∨ Sound base d.flash ∧ InArea offset data := by
  by_cases hr : Refused offset data
  · exact ⟨fun _ => .inl hr, fun _ => overlays_of_refused hr d⟩
  · constructor
    · intro h
      exact .inr (sound_of_overlays h hr hread).symm
    · rintro (h | ⟨hs, ha⟩)
      · exact absurd h hr
      · exact overlays_of_inArea ho hs hr ha

/-! ### Runs -/

/-- The public calls. -/
inductive Call where
  | init
  | write (offset : UInt32) (data : Bytes)
  | read (offset : UInt32) (len : UInt16)
  | set (s : Setter)
  | get (g : Getter)

namespace Call

def run (base : ℕ) (d : Dev) : Call → Dev
  | .init => (lnNvdsInit base d).2
  | .write offset data => (lnNvdsWrite base offset.toNat data d).2
  | .read offset len => (lnNvdsRead base offset.toNat len.toNat d).2
  | .set s => (s.run base d).2
  | .get g => (g.run base d).2

/-- The write is refused, empty or inside the area. -/
def Meets : Call → Prop
  | .write offset data => Refused offset.toNat data ∨ InArea offset.toNat data
  | _ => True

end Call

/-- The device after `ln_nvds_init` on any content and the given calls. -/
def afterCalls (base : ℕ) (f : Flash) (cs : List Call) : Dev :=
  cs.foldl (Call.run base) (lnNvdsInit base (.on f)).2

theorem afterCalls_append (cs : List Call) (c : Call) :
    afterCalls base f (cs ++ [c]) = c.run base (afterCalls base f cs) := by simp [afterCalls]

/-- Whatever a write did to the mirrors, it ends with a flag that names one. -/
theorem lnNvdsWrite_readable {d : Dev} (h : Readable base d.flash) :
    Readable base (lnNvdsWrite base offset data d).2.flash := by
  by_cases hr : Refused offset data
  · rw [lnNvdsWrite_refused hr]
    exact h
  · obtain ⟨flag, hflag, -, hrun⟩ := @lnNvdsWrite_rewrite base _ _ hr d
    obtain ⟨d', he⟩ : ∃ d' : Dev, nvdsRewrite base (validSect base d.flash) (spareSect base d.flash) flag offset data d =
        (.ok, (d'.exec (.erase (usrNvdsFlagOffset base) size4KB)).exec
          (.program (usrNvdsFlagOffset base) (leBytes 2 flag))) := ⟨_, rfl⟩
    rw [hrun, he, Readable, validFlag_set (flag_lt hflag), ← or_assoc]
    exact .inl hflag

theorem lnNvdsRead_device (o n : ℕ) (d : Dev) : (lnNvdsRead base o n d).2 = d := by
  rw [lnNvdsRead, run_ite]
  split_ifs with h0
  · rfl
  · rw [run_bind_eq (nvdsGetValidFlag_run base d), run_ite]
    split_ifs with h1
    · rfl
    · rw [run_bind_eq (nvdsGetValidFlag_run base d), run_ite]
      split_ifs with h2
      · rfl
      · rw [run_bind_eq (show nvdsGetMagicCode (usrNvdsSect2Offset base) d =
          (le (readBytes d.flash (usrNvdsSect2Offset base) 4), d) from rfl), run_ite]
        split_ifs <;> rfl

theorem Call.run_readable (c : Call) {d : Dev} (h : Readable base d.flash) :
    Readable base (c.run base d).flash := by
  cases c with
  | init => exact (lnNvdsInit_spec d).2
  | write offset data => exact lnNvdsWrite_readable h
  | read offset len =>
    rw [Call.run, lnNvdsRead_device]
    exact h
  | set s =>
    obtain ⟨d', he, hr, -⟩ := s.run_stores h
    rw [Call.run, he]
    exact hr
  | get g =>
    rw [Call.run, g.run_readable h]
    exact h

theorem afterCalls_readable (f : Flash) (cs : List Call) : Readable base (afterCalls base f cs).flash := by
  induction cs using List.reverseRecOn with
  | nil => exact (lnNvdsInit_spec (.on f)).2
  | append_singleton cs c ih =>
    rw [afterCalls_append]
    exact c.run_readable ih

theorem Call.run_sound {c : Call} (hc : c.Meets) {d : Dev} (h : Sound base d.flash) :
    Sound base (c.run base d).flash := by
  cases c with
  | init => exact lnNvdsInit_stamps fun _ => h
  | write offset data =>
    by_cases hr : Refused offset.toNat data
    · rw [Call.run, lnNvdsWrite_refused hr]
      exact h
    · obtain ⟨d', he, hs, -⟩ := lnNvdsWrite_inArea offset.toNat_lt h hr (hc.resolve_left hr)
      rw [Call.run, he]
      exact hs
  | read offset len =>
    rw [Call.run, lnNvdsRead_device]
    exact h
  | set s =>
    obtain ⟨d', he, -, hs, -⟩ := s.run_stores h.readable
    rw [Call.run, he]
    exact hs h
  | get g =>
    rw [Call.run, g.run_readable h.readable]
    exact h

theorem afterCalls_sound (hf : Readable base f → Sound base f) {cs : List Call}
    (hcs : ∀ c ∈ cs, c.Meets) : Sound base (afterCalls base f cs).flash := by
  induction cs using List.reverseRecOn with
  | nil => exact lnNvdsInit_stamps hf
  | append_singleton cs c ih =>
    rw [afterCalls_append]
    exact Call.run_sound (hcs c (by simp)) (ih fun x hx => hcs x (by simp [hx]))

end Ln882x.Nvds
