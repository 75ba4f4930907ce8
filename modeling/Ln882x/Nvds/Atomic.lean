import Mathlib.Data.List.Induction
import Ln882x.Nvds.Store

/-! A write to the data store is atomic under power cuts. Every intermediate
content of the flash still names one sound mirror, read, write and init agree on
which one it is, and its bytes are those before the write or those after it. -/

namespace Ln882x.Nvds

open Nor

/-! ### The valid mirror -/

def validFlag (base : ℕ) (f : Flash) : ℕ := le (readBytes f (usrNvdsFlagOffset base) 2)

/-- The mirror that reads and writes take as the current one. -/
def validSect (base : ℕ) (f : Flash) : ℕ :=
  if validFlag base f = sect1Valid then usrNvdsSect1Offset base else usrNvdsSect2Offset base

/-- The mirror a write prepares. -/
def spareSect (base : ℕ) (f : Flash) : ℕ :=
  if validFlag base f = sect1Valid then usrNvdsSect2Offset base else usrNvdsSect1Offset base

def content (base : ℕ) (f : Flash) : Bytes := readBytes f (validSect base f) size4KB

def Sound (base : ℕ) (f : Flash) : Prop :=
  readBytes f (validSect base f) 4 = leBytes 4 sectMagicCode

/-- The content after the bytes at `offset` are replaced. -/
def splice (c : Bytes) (offset : ℕ) (data : Bytes) : Bytes :=
  c.take offset ++ data ++ c.drop (offset + data.length)

variable {base : ℕ} {f g : Flash}

theorem sects_disjoint : validSect base f + size4KB ≤ spareSect base f ∨
    spareSect base f + size4KB ≤ validSect base f := by
  simp only [validSect, spareSect, usrNvdsSect2Offset]
  split_ifs <;> simp

theorem sects_below_flag : validSect base f + size4KB ≤ usrNvdsFlagOffset base ∧
    spareSect base f + size4KB ≤ usrNvdsFlagOffset base := by
  simp only [validSect, spareSect, usrNvdsSect2Offset, usrNvdsFlagOffset]
  split_ifs <;> simp

/-- Nothing outside `[t, t + 4 KB)` differs. -/
def Frame (t : ℕ) (f g : Flash) : Prop := ∀ x, x < t ∨ t + size4KB ≤ x → g x = f x

theorem Frame.refl (t : ℕ) (f : Flash) : Frame t f f := fun _ _ => rfl

theorem Frame.read {t : ℕ} (h : Frame t f g) {a n : ℕ} (hd : a + n ≤ t ∨ t + size4KB ≤ a) :
    readBytes g a n = readBytes f a n :=
  readBytes_congr fun x h0 h1 => h x (by omega)

theorem Frame.apply {t : ℕ} (h : Frame t f g) (o : Op) (h0 : t ≤ o.addr)
    (h1 : o.addr + o.len ≤ t + size4KB) : Frame t f (o.apply g) := by
  intro x hx
  rw [apply_outside o (by omega)]
  exact h x hx

theorem Frame.exec {t : ℕ} {d : Dev} (h : Frame t f d.flash) (o : Op) (h0 : t ≤ o.addr)
    (h1 : o.addr + o.len ≤ t + size4KB) : Frame t f (d.exec o).flash := h.apply o h0 h1

/-- Changes to the spare mirror are invisible. -/
theorem Frame.unchanged (h : Frame (spareSect base f) f g) :
    validSect base g = validSect base f ∧ content base g = content base f ∧
      (Sound base f → Sound base g) := by
  have hb := @sects_below_flag base f
  have hf : validFlag base g = validFlag base f := by
    simp only [validFlag]
    rw [h.read (by omega)]
  have hv : validSect base g = validSect base f := by simp only [validSect, hf]
  have hd := @sects_disjoint base f
  refine ⟨hv, ?_, fun hs => ?_⟩
  · simp only [content, hv]
    exact h.read (by omega)
  · simp only [Sound, hv] at hs ⊢
    rw [h.read (by simp only [size4KB] at *; omega), hs]

/-! ### Reads and init -/

theorem le_magic : le (leBytes 4 sectMagicCode) = sectMagicCode := by decide

theorem nvdsGetValidFlag_run (base : ℕ) (d : Dev) :
    nvdsGetValidFlag base d = (validFlag base d.flash, d) := rfl

/-- The states in which reads succeed: the flag names a mirror, or the second one carries the
magic code. -/
def Readable (base : ℕ) (f : Flash) : Prop :=
  validFlag base f = sect1Valid ∨ validFlag base f = sect2Valid ∨ Sound base f

theorem Sound.readable (h : Sound base f) : Readable base f := .inr (.inr h)

/-- There every test of `ln_nvds_read` leads to the valid mirror. -/
theorem lnNvdsRead_readable (h : Readable base f) {offset len : ℕ} (hl : offset + len ≤ size4KB)
    (d : Dev) (hd : d.flash = f) :
    lnNvdsRead base offset len d = ((.ok, readBytes f (validSect base f + offset) len), d) := by
  subst hd
  have hm : ¬ (offset + len) % 2 ^ 32 > size4KB := by simp only [size4KB] at *; omega
  rw [lnNvdsRead, run_ite, if_neg hm, run_bind_eq (nvdsGetValidFlag_run base d), run_ite]
  by_cases h1 : validFlag base d.flash = sect1Valid
  · rw [if_pos h1, validSect, if_pos h1]
    rfl
  · have hv : validSect base d.flash = usrNvdsSect2Offset base := if_neg h1
    rw [if_neg h1, run_bind_eq (nvdsGetValidFlag_run base d), run_ite, hv]
    by_cases h2 : validFlag base d.flash = sect2Valid
    · rw [if_pos h2]
      rfl
    · have hs : Sound base d.flash := (h.resolve_left h1).resolve_left h2
      have hm2 : nvdsGetMagicCode (usrNvdsSect2Offset base) d = (sectMagicCode, d) := by
        rw [Sound, hv] at hs
        rw [nvdsGetMagicCode, run_bind, nvdsReadFlash, hs, le_magic]
        rfl
      rw [if_neg h2, run_bind_eq hm2, run_ite, if_pos rfl]
      rfl

theorem lnNvdsRead_sound (h : Sound base f) {offset len : ℕ} (hl : offset + len ≤ size4KB)
    (d : Dev) (hd : d.flash = f) :
    lnNvdsRead base offset len d = ((.ok, readBytes f (validSect base f + offset) len), d) :=
  lnNvdsRead_readable h.readable hl d hd

theorem lnNvdsRead_whole (h : Sound base f) :
    (lnNvdsRead base 0 size4KB (.on f)).1 = (.ok, content base f) := by
  rw [lnNvdsRead_sound h (by simp) (.on f) rfl]
  rfl

theorem lnNvdsInit_readable (h : Readable base f) (d : Dev) (hd : d.flash = f) :
    lnNvdsInit base d = (.ok, d) := by
  have hr := lnNvdsRead_readable h (show nv0NvdsVersionOffst + nv0NvdsVersionLen ≤ size4KB by decide) d hd
  rw [lnNvdsInit, run_bind_eq hr]
  rfl

theorem lnNvdsInit_sound (h : Sound base f) (d : Dev) (hd : d.flash = f) :
    lnNvdsInit base d = (.ok, d) := lnNvdsInit_readable h.readable d hd

/-! ### The spare mirror during a write -/

/-- The copy loop stores the source bytes into a blank stretch of the spare mirror. -/
theorem nvdsCopy_spec {src t : ℕ} (hst : src + size4KB ≤ t ∨ t + size4KB ≤ src) (n : ℕ) :
    ∀ (i : ℕ) (A C : Bytes) (d : Dev), Frame t f d.flash → A.length = i →
      readBytes d.flash t size4KB = A ++ blank n ++ C →
      ∃ d', nvdsCopy src t i n d = ((), d') ∧ Dev.Steps (Frame t f) d d' ∧
        readBytes d'.flash t size4KB = A ++ readBytes f (src + i) n ++ C := by
  induction n with
  | zero =>
    intro i A C d hf _ hr
    exact ⟨d, rfl, .refl hf, by simpa using hr⟩
  | succ n ih =>
    intro i A C d hf hi hr
    have hl := congrArg List.length hr
    simp only [length_readBytes, List.length_append, length_blank] at hl
    have hb : readBytes d.flash (src + i) 1 = [f (src + i)] := by
      rw [hf.read (by simp only [size4KB] at *; omega), readBytes_succ, readBytes_zero]
    have hone : blank 1 = [0xFF] := rfl
    have hr' : readBytes d.flash t size4KB = A ++ blank 1 ++ (blank n ++ C) := by
      rw [hr, Nat.add_comm n 1, blank_add]
      simp
    have htail : readBytes f (src + i) (n + 1) = [f (src + i)] ++ readBytes f (src + (i + 1)) n := by
      rw [readBytes_succ]
      rfl
    rw [nvdsCopy, run_bind_eq (show nvdsReadFlash (src + i) 1 d = ([f (src + i)], d) by rw [nvdsReadFlash, hb])]
    by_cases hff : f (src + i) = 0xFF
    · obtain ⟨d', he, hs, hd'⟩ := ih (i + 1) (A ++ [0xFF]) C d hf (by simp [hi])
        (by rw [hr', hone]; simp)
      refine ⟨d', by simpa only [hff, ne_eq, not_true, if_false] using he, hs, ?_⟩
      rw [hd', htail, hff]
      simp
    · let o := Op.program (t + i) [f (src + i)]
      have hf₁ : Frame t f (o.apply d.flash) :=
        hf.apply o (by simp [o, Op.addr]) (by simp [o, Op.addr, Op.len]; omega)
      have hr₁ : readBytes (o.apply d.flash) t size4KB = (A ++ [f (src + i)]) ++ blank n ++ C := by
        have hb₁ : blank [f (src + i)].length = blank 1 := rfl
        rw [readBytes_program_blank (by rw [hr', hb₁]) hi]
        simp
      obtain ⟨d', he, hs, hd'⟩ := ih (i + 1) (A ++ [f (src + i)]) C (d.exec o) hf₁ (by simp [hi]) hr₁
      refine ⟨d', ?_, (Dev.Steps.exec o hf hf₁).trans hs, ?_⟩
      · rw [if_pos (by simpa using hff)]
        exact he
      · rw [hd', htail]
        simp

/-- The bytes of a mirror with the magic code in front. -/
def stamped (f : Flash) (src : ℕ) : Bytes :=
  leBytes 4 sectMagicCode ++ readBytes f (src + 4) (size4KB - 4)

theorem stamped_eq {src : ℕ} (h : readBytes f src 4 = leBytes 4 sectMagicCode) :
    stamped f src = readBytes f src size4KB := by
  rw [stamped, ← h, ← readBytes_add]
  rfl

/-- The spare mirror is filled completely before the flag is touched, and nothing outside
it changes until then. -/
theorem nvdsRewrite_fill {src t offset : ℕ} {data : Bytes}
    (hst : src + size4KB ≤ t ∨ t + size4KB ≤ src) (h4 : 4 ≤ offset)
    (hl : offset + data.length ≤ size4KB) (flag : ℕ) (d : Dev) (hd : d.flash = f) :
    ∃ d', nvdsRewrite base src t flag offset data d = (.ok,
        (d'.exec (.erase (usrNvdsFlagOffset base) size4KB)).exec
          (.program (usrNvdsFlagOffset base) (leBytes 2 flag))) ∧
      Dev.Steps (Frame t f) d d' ∧
      readBytes d'.flash t size4KB = splice (stamped f src) offset data := by
  subst hd
  have hi : (offset + data.length) % 2 ^ 32 = offset + data.length :=
    Nat.mod_eq_of_lt (by simp only [size4KB] at hl; omega)
  set f := d.flash with hfd
  let d₁ := d.exec (.erase t size4KB)
  have hf₁ : Frame t f d₁.flash := 
    Frame.exec (Frame.refl t f) (.erase t size4KB) le_rfl le_rfl
  have hr₁ : readBytes d₁.flash t size4KB = blank (leBytes 4 sectMagicCode).length ++
      (blank (offset - 4) ++ (blank data.length ++ blank (size4KB - (offset + data.length)))) := by
    rw [Dev.exec_flash, readBytes_erase, ← blank_add, ← blank_add, ← blank_add, length_leBytes]
    congr 1
    omega
  let d₂ := d₁.exec (.program t (leBytes 4 sectMagicCode))
  have hf₂ : Frame t f d₂.flash := 
    hf₁.exec (.program t (leBytes 4 sectMagicCode)) le_rfl (by simp [Op.addr, Op.len, size4KB])
  have hr₂ := readBytes_program_head hr₁
  rw [← List.append_assoc] at hr₂
  obtain ⟨d₃, he₃, hs₃, hr₃⟩ := nvdsCopy_spec hst (offset - 4) 4 _ _ d₂ hf₂ (by simp) hr₂
  rw [← List.append_assoc] at hr₃
  let d₄ := d₃.exec (.program (t + offset) data)
  have hf₄ : Frame t f d₄.flash := 
    hs₃.end.exec (.program (t + offset) data) (by simp [Op.addr]) (by simp [Op.addr, Op.len]; omega)
  have hr₄ : readBytes d₄.flash t size4KB =
      (leBytes 4 sectMagicCode ++ readBytes f (src + 4) (offset - 4) ++ data) ++
        blank (size4KB - (offset + data.length)) ++ [] := by
    rw [List.append_nil]
    exact readBytes_program_blank hr₃ (by simp; omega)
  obtain ⟨d₅, he₅, hs₅, hr₅⟩ :=
    nvdsCopy_spec hst (size4KB - (offset + data.length)) (offset + data.length) _ _ d₄ hf₄
      (by simp; omega) hr₄
  refine ⟨d₅, ?_, ?_, ?_⟩
  · rw [nvdsRewrite, run_bind_eq (show nvdsEraseFlash t size4KB d = ((), d₁) from rfl),
      run_bind_eq (show nvdsSetMagicCode t d₁ = ((), d₂) from rfl), sectMagicCodeLen, run_bind_eq he₃,
      run_bind_eq (show nvdsWriteFlash (t + offset) data d₃ = ((), d₄) from rfl), hi, run_bind_eq he₅]
    rfl
  · have hs₁ : Dev.Steps (Frame t f) d d₁ := .exec _ (Frame.refl t f) hf₁
    have hs₂ : Dev.Steps (Frame t f) d₁ d₂ := .exec _ hf₁ hf₂
    have hs₄ : Dev.Steps (Frame t f) d₃ d₄ := .exec _ hs₃.end hf₄
    exact hs₁.trans (hs₂.trans (hs₃.trans (hs₄.trans hs₅)))
  · obtain ⟨r, hr⟩ : ∃ r, size4KB - 4 = (offset - 4) + (data.length + r) :=
      ⟨size4KB - (offset + data.length), by simp only [size4KB] at *; omega⟩
    have hrest : size4KB - (offset + data.length) = r := by simp only [size4KB] at *; omega
    have hsrc : src + 4 + (offset - 4) + data.length = src + (offset + data.length) := by omega
    have hpre : (leBytes 4 sectMagicCode ++ readBytes f (src + 4) (offset - 4)).length = offset := by
      simp; omega
    rw [hr₅, List.append_nil, splice, stamped, hrest, hr, readBytes_add, readBytes_add, hsrc]
    rw [← List.append_assoc, List.take_left' hpre, ← List.append_assoc]
    rw [List.drop_left' (by simp at hpre ⊢; omega)]

/-! ### Atomicity of one write -/

theorem validFlag_set {flag : ℕ} (hflag : flag < 256 ^ 2) (d : Dev) :
    validFlag base ((d.exec (.erase (usrNvdsFlagOffset base) size4KB)).exec
      (.program (usrNvdsFlagOffset base) (leBytes 2 flag))).flash = flag := by
  have hr : readBytes (d.exec (.erase (usrNvdsFlagOffset base) size4KB)).flash
      (usrNvdsFlagOffset base) size4KB = blank (leBytes 2 flag).length ++ blank (size4KB - 2) := by
    rw [Dev.exec_flash, readBytes_erase, ← blank_add]
    rfl
  rw [validFlag, Dev.exec_flash, readBytes_head (readBytes_program_head hr) (length_leBytes 2 flag),
    le_leBytes 2 flag hflag]

theorem validFlag_erased (d : Dev) :
    validFlag base (d.exec (.erase (usrNvdsFlagOffset base) size4KB)).flash = 0xFFFF := by
  have hr : readBytes (d.exec (.erase (usrNvdsFlagOffset base) size4KB)).flash
      (usrNvdsFlagOffset base) size4KB = blank 2 ++ blank (size4KB - 2) := by
    rw [Dev.exec_flash, readBytes_erase, ← blank_add]
    rfl
  rw [validFlag, readBytes_head hr (length_blank 2)]
  decide

/-- What a cut during a write of `data` at `offset` may leave. -/
def BeforeOrAfter (base offset : ℕ) (data : Bytes) (f g : Flash) : Prop :=
  Sound base g ∧ (content base g = content base f ∨ content base g = splice (content base f) offset data)

theorem splice_magic {c : Bytes} {offset : ℕ} {data : Bytes} (h4 : 4 ≤ offset) (hc : offset ≤ c.length) :
    (splice c offset data).take 4 = c.take 4 := by
  rw [splice, List.append_assoc, List.take_append_of_le_length (by simp; omega), List.take_take,
    Nat.min_eq_left h4]

theorem take_content (f : Flash) (a : ℕ) : (readBytes f a size4KB).take 4 = readBytes f a 4 := by
  have := readBytes_slice f a size4KB 0 4 (by decide)
  simpa using this.symm

/-- A write that passes the guard rewrites the spare mirror and programs the flag that names
it. -/
theorem lnNvdsWrite_rewrite {offset : ℕ} {data : Bytes}
    (hm : ¬ (offset + data.length) % 2 ^ 32 > size4KB) (d : Dev) :
    ∃ flag, (flag = sect1Valid ∨ flag = sect2Valid) ∧
      spareSect base d.flash = (if flag = sect1Valid then usrNvdsSect1Offset base
        else usrNvdsSect2Offset base) ∧
      lnNvdsWrite base offset data d =
        nvdsRewrite base (validSect base d.flash) (spareSect base d.flash) flag offset data d := by
  by_cases h1 : validFlag base d.flash = sect1Valid
  · refine ⟨sect2Valid, .inr rfl, by simp only [spareSect, if_pos h1]; rfl, ?_⟩
    rw [lnNvdsWrite, run_ite, if_neg hm, run_bind_eq (nvdsGetValidFlag_run base d), run_ite, if_pos h1,
      validSect, if_pos h1, spareSect, if_pos h1]
  · refine ⟨sect1Valid, .inl rfl, by simp only [spareSect, if_neg h1]; rfl, ?_⟩
    rw [lnNvdsWrite, run_ite, if_neg hm, run_bind_eq (nvdsGetValidFlag_run base d), run_ite, if_neg h1,
      validSect, if_neg h1, spareSect, if_neg h1]

theorem flag_lt {flag : ℕ} (h : flag = sect1Valid ∨ flag = sect2Valid) : flag < 256 ^ 2 := by
  rcases h with rfl | rfl <;> decide

theorem lnNvdsWrite_spec (h : Sound base f) {offset : ℕ} {data : Bytes} (h4 : 4 ≤ offset)
    (hl : offset + data.length ≤ size4KB) (d : Dev) (hd : d.flash = f) :
    ∃ d', lnNvdsWrite base offset data d = (.ok, d') ∧
      Dev.Steps (BeforeOrAfter base offset data f) d d' ∧
      content base d'.flash = splice (content base f) offset data := by
  subst hd
  set f := d.flash with hfd
  have hm : ¬ (offset + data.length) % 2 ^ 32 > size4KB := by simp only [size4KB] at *; omega
  have hold : ∀ g, Frame (spareSect base f) f g → BeforeOrAfter base offset data f g := fun g hg =>
    ⟨hg.unchanged.2.2 h, .inl hg.unchanged.2.1⟩
  have hb := @sects_below_flag base f
  obtain ⟨flag, hflag', hspare, hrun⟩ := lnNvdsWrite_rewrite hm d
  have hflag := flag_lt hflag'
  obtain ⟨d₁, he, hs, hr⟩ :=
    @nvdsRewrite_fill base _ _ _ _ _ (@sects_disjoint base f) h4 hl flag d rfl
  rw [stamped_eq h] at hr
  have hc₁ := hs.end
  set d₂ := d₁.exec (.erase (usrNvdsFlagOffset base) size4KB) with hd₂
  set d₃ := d₂.exec (.program (usrNvdsFlagOffset base) (leBytes 2 flag)) with hd₃
  have hkeep : ∀ a n, a + n ≤ usrNvdsFlagOffset base → readBytes d₂.flash a n = readBytes d₁.flash a n ∧
      readBytes d₃.flash a n = readBytes d₁.flash a n := by
    intro a n han
    have h2 : readBytes d₂.flash a n = readBytes d₁.flash a n := d₁.readBytes_exec_disjoint _ (.inl han)
    exact ⟨h2, (d₂.readBytes_exec_disjoint _ (.inl han)).trans h2⟩
  -- with the flag erased the second mirror is the valid one, whichever that is
  have hnew : ∀ g, validSect base g = spareSect base f →
      readBytes g (spareSect base f) size4KB = readBytes d₁.flash (spareSect base f) size4KB →
      Sound base g ∧ content base g = splice (content base f) offset data := by
    intro g hv hg
    have hcg : content base g = splice (content base f) offset data := by
      rw [content, hv, hg, hr]
      rfl
    refine ⟨?_, hcg⟩
    rw [Sound, ← take_content, ← content, hcg, splice_magic h4 (by simp [content]; omega), content,
      take_content]
    exact h
  have hsame : ∀ g, validSect base g = validSect base f →
      readBytes g (validSect base f) size4KB = readBytes d₁.flash (validSect base f) size4KB →
      Sound base g ∧ content base g = content base f := by
    intro g hv hg
    have hcg : content base g = content base f := by
      rw [content, hv, hg, ← hc₁.unchanged.2.1, content, hc₁.unchanged.1]
    refine ⟨?_, hcg⟩
    rw [Sound, ← take_content, ← content, hcg, content, take_content]
    exact h
  have hv₂ : validSect base d₂.flash = usrNvdsSect2Offset base := by
    rw [validSect, validFlag_erased]
    rfl
  have hv₃ : validSect base d₃.flash = spareSect base f := by
    rw [validSect, hd₃, hd₂, validFlag_set hflag, ← hspare]
  have hB₂ : BeforeOrAfter base offset data f d₂.flash := by
    by_cases h1 : validFlag base f = sect1Valid
    · have hs2 : spareSect base f = usrNvdsSect2Offset base := by rw [spareSect, if_pos h1]
      obtain ⟨ha, hb'⟩ := hnew d₂.flash (by rw [hv₂, hs2]) (hkeep _ _ hb.2).1
      exact ⟨ha, .inr hb'⟩
    · have hs2 : validSect base f = usrNvdsSect2Offset base := by rw [validSect, if_neg h1]
      obtain ⟨ha, hb'⟩ := hsame d₂.flash (by rw [hv₂, hs2]) (hkeep _ _ hb.1).1
      exact ⟨ha, .inl hb'⟩
  obtain ⟨hS₃, hC₃⟩ := hnew d₃.flash hv₃ (hkeep _ _ hb.2).2
  refine ⟨d₃, by rw [hrun, he], ?_, hC₃⟩
  have hs₂ : Dev.Steps (BeforeOrAfter base offset data f) d₁ d₂ := .exec _ (hold _ hc₁) hB₂
  have hs₃ : Dev.Steps (BeforeOrAfter base offset data f) d₂ d₃ := .exec _ hB₂ ⟨hS₃, .inr hC₃⟩
  exact (hs.mono hold).trans (hs₂.trans hs₃)

/-! ### The state a write or an init leaves -/

/-- The last two steps of a write: the flag is erased and names the spare mirror. -/
theorem content_flagged {flag : ℕ} (hflag : flag = sect1Valid ∨ flag = sect2Valid)
    (hspare : spareSect base f = if flag = sect1Valid then usrNvdsSect1Offset base
      else usrNvdsSect2Offset base) (d : Dev) :
    content base ((d.exec (.erase (usrNvdsFlagOffset base) size4KB)).exec
      (.program (usrNvdsFlagOffset base) (leBytes 2 flag))).flash =
        readBytes d.flash (spareSect base f) size4KB := by
  have hb := @sects_below_flag base f
  rw [content, validSect, validFlag_set (flag_lt hflag), ← hspare,
    Dev.readBytes_exec_disjoint _ _ (.inl hb.2), Dev.readBytes_exec_disjoint _ _ (.inl hb.2)]

theorem sound_iff_content : Sound base f ↔ (content base f).take 4 = leBytes 4 sectMagicCode := by
  rw [Sound, content, take_content]

/-- A write inside the area succeeds from every state: the new mirror is the old one with the
magic code in front and the data spliced in. -/
theorem lnNvdsWrite_stamped {offset : ℕ} {data : Bytes} (h4 : 4 ≤ offset) (hl : offset + data.length ≤ size4KB) (d : Dev) :
    ∃ d', lnNvdsWrite base offset data d = (.ok, d') ∧ Sound base d'.flash ∧
      content base d'.flash = splice (stamped d.flash (validSect base d.flash)) offset data := by
  have hm : ¬ (offset + data.length) % 2 ^ 32 > size4KB := by simp only [size4KB] at *; omega
  have hlen : offset ≤ (stamped d.flash (validSect base d.flash)).length := by
    simp [stamped]
    simp only [size4KB] at *
    omega
  obtain ⟨flag, hflag, hspare, hrun⟩ := @lnNvdsWrite_rewrite base _ _ hm d
  obtain ⟨d₁, he, -, hr⟩ :=
    @nvdsRewrite_fill base _ _ _ _ _ (@sects_disjoint base d.flash) h4 hl flag d rfl
  have hc := content_flagged hflag hspare d₁
  rw [hr] at hc
  refine ⟨_, hrun.trans he, ?_, hc⟩
  rw [sound_iff_content, hc, splice_magic h4 hlen, stamped, List.take_left' (by simp)]

theorem lnNvdsRead_fails {d : Dev} (h : ¬ Readable base d.flash) :
    lnNvdsRead base nv0NvdsVersionOffst nv0NvdsVersionLen d = ((.fail, []), d) := by
  have h1 : validFlag base d.flash ≠ sect1Valid := fun h1 => h (.inl h1)
  have h2 : validFlag base d.flash ≠ sect2Valid := fun h2 => h (.inr (.inl h2))
  have hv : validSect base d.flash = usrNvdsSect2Offset base := if_neg h1
  have hm : le (readBytes d.flash (usrNvdsSect2Offset base) 4) ≠ sectMagicCode := by
    intro hm
    have hl := leBytes_le (readBytes d.flash (usrNvdsSect2Offset base) 4)
    rw [length_readBytes, hm] at hl
    exact h (.inr (.inr (by rw [Sound, hv, hl])))
  have hg : nvdsGetMagicCode (usrNvdsSect2Offset base) d =
      (le (readBytes d.flash (usrNvdsSect2Offset base) 4), d) := rfl
  rw [lnNvdsRead, run_ite, if_neg (by decide), run_bind_eq (nvdsGetValidFlag_run base d), run_ite, if_neg h1,
    run_bind_eq (nvdsGetValidFlag_run base d), run_ite, if_neg h2, run_bind_eq hg, run_ite, if_neg hm]
  rfl

/-- `ln_nvds_init` formats an area it cannot read. -/
theorem lnNvdsInit_formats {d : Dev} (h : ¬ Readable base d.flash) :
    ∃ d', lnNvdsInit base d = (.ok, d') ∧ Sound base d'.flash := by
  have hrun : lnNvdsInit base d = lnNvdsWrite base nv0NvdsVersionOffst
      (nv0NvdsVersionStr.take nv0NvdsVersionLen) (d.exec (.erase base (size4KB * 3))) := by
    rw [lnNvdsInit, run_bind_eq (lnNvdsRead_fails h)]
    rfl
  obtain ⟨d', he, hs, -⟩ := @lnNvdsWrite_stamped base _ _ (show 4 ≤ nv0NvdsVersionOffst by decide)
    (show nv0NvdsVersionOffst + (nv0NvdsVersionStr.take nv0NvdsVersionLen).length ≤ size4KB by decide)
    (d.exec (.erase base (size4KB * 3)))
  exact ⟨d', hrun.trans he, hs⟩

theorem lnNvdsInit_spec (d : Dev) :
    (lnNvdsInit base d).1 = .ok ∧ Readable base (lnNvdsInit base d).2.flash := by
  by_cases h : Readable base d.flash
  · rw [lnNvdsInit_readable h d rfl]
    exact ⟨rfl, h⟩
  · obtain ⟨d', he, hs⟩ := lnNvdsInit_formats h
    rw [he]
    exact ⟨rfl, hs.readable⟩

theorem lnNvdsInit_stamps {d : Dev} (h : Readable base d.flash → Sound base d.flash) :
    Sound base (lnNvdsInit base d).2.flash := by
  by_cases hr : Readable base d.flash
  · rw [lnNvdsInit_readable hr d rfl]
    exact h hr
  · obtain ⟨d', he, hs⟩ := lnNvdsInit_formats hr
    rw [he]
    exact hs

/-! ### Runs -/

/-- A write that completes, or one cut after `j` driver calls and followed by a reboot. -/
inductive Event where
  | write (offset : ℕ) (data : Bytes)
  | cut (offset : ℕ) (data : Bytes) (j : ℕ)

namespace Event

def Valid : Event → Prop
  | .write offset data | .cut offset data _ => sectMagicCodeLen ≤ offset ∧ offset + data.length ≤ size4KB

def run (base : ℕ) (f : Flash) : Event → Flash
  | .write offset data => (lnNvdsWrite base offset data (.on f)).2.flash
  | .cut offset data j =>
    (lnNvdsInit base (.on ((lnNvdsWrite base offset data (.on f)).2.cut f j))).2.flash

/-- The contents an event may leave, given the content before it. -/
def Outcome (c c' : Bytes) : Event → Prop
  | .write offset data => c' = splice c offset data
  | .cut offset data _ => c' = c ∨ c' = splice c offset data

end Event

/-- The flash after a first `ln_nvds_init` and the given events. -/
def runAll (base : ℕ) (f : Flash) (evs : List Event) : Flash :=
  evs.foldl (Event.run base) (lnNvdsInit base (.on f)).2.flash

theorem Event.run_spec (h : Sound base f) {e : Event} (he : e.Valid) :
    Sound base (e.run base f) ∧ e.Outcome (content base f) (content base (e.run base f)) := by
  cases e with
  | write offset data =>
    obtain ⟨d', hw, hs, hc⟩ := lnNvdsWrite_spec h he.1 he.2 (.on f) rfl
    simp only [Event.run, Event.Outcome, hw]
    exact ⟨hs.end.1, hc⟩
  | cut offset data j =>
    obtain ⟨d', hw, hs, -⟩ := lnNvdsWrite_spec h he.1 he.2 (.on f) rfl
    obtain ⟨hS, hc⟩ := hs.cut j
    have hi := lnNvdsInit_sound hS (.on (d'.cut f j)) rfl
    simp only [Event.run, Event.Outcome, hw]
    rw [hi]
    exact ⟨hS, hc⟩

theorem not_readable_erased (hf : Erased f base (size4KB * 3)) : ¬ Readable base f := by
  have hread : ∀ a n, base ≤ a → a + n ≤ base + size4KB * 3 → readBytes f a n = blank n := fun a n h0 h1 =>
    erased_iff_read.mp fun x hx0 hx1 => hf x (by omega) (by omega)
  have hflag : validFlag base f = 0xFFFF := by
    rw [validFlag, hread _ _ (by simp [usrNvdsFlagOffset, usrNvdsSect2Offset, usrNvdsSect1Offset, Nat.add_assoc])
      (by simp [usrNvdsFlagOffset, usrNvdsSect2Offset, usrNvdsSect1Offset, size4KB])]
    decide
  rintro (h | h | h)
  · exact absurd (hflag.symm.trans h) (by decide)
  · exact absurd (hflag.symm.trans h) (by decide)
  · have hv : validSect base f = usrNvdsSect2Offset base := if_neg (by rw [hflag]; decide)
    rw [Sound, hv, hread _ _ (by simp [usrNvdsSect2Offset, usrNvdsSect1Offset])
      (by simp [usrNvdsSect2Offset, usrNvdsSect1Offset, size4KB])] at h
    exact absurd h (by decide)

/-- The first `ln_nvds_init` on an erased area formats it. -/
theorem lnNvdsInit_erased (hf : Erased f base (size4KB * 3)) :
    Sound base (lnNvdsInit base (.on f)).2.flash :=
  lnNvdsInit_stamps fun h => absurd h (not_readable_erased hf)

theorem runAll_sound (hf : Erased f base (size4KB * 3)) {evs : List Event} (hv : ∀ e ∈ evs, e.Valid) :
    Sound base (runAll base f evs) := by
  induction evs using List.reverseRecOn with
  | nil => exact lnNvdsInit_erased hf
  | append_singleton evs e ih =>
    have := ih fun x hx => hv x (by simp [hx])
    simp only [runAll, List.foldl_append, List.foldl_cons, List.foldl_nil]
    exact (Event.run_spec this (hv e (by simp))).1

/-- Starting from an erased area and after any sequence of completed and cut writes, the whole
area reads successfully, and one more event takes the bytes read to those of an allowed
outcome: a completed write splices its data into exactly the bytes that were read, a cut one
leaves them all as they were or splices its data in completely. -/
theorem lnNvdsWrite_crash_atomic (base : ℕ) (f : Flash) (hf : Erased f base (size4KB * 3))
    (evs : List Event) (hv : ∀ e ∈ evs, e.Valid) (e : Event) (he : e.Valid) :
    ∃ c c', (lnNvdsRead base 0 size4KB (.on (runAll base f evs))).1 = (.ok, c) ∧
      (lnNvdsRead base 0 size4KB (.on (runAll base f (evs ++ [e])))).1 = (.ok, c') ∧
      e.Outcome c c' := by
  have hs := runAll_sound hf hv
  have hr := Event.run_spec hs he
  have hstep : runAll base f (evs ++ [e]) = e.run base (runAll base f evs) := by simp [runAll]
  rw [hstep]
  exact ⟨_, _, lnNvdsRead_whole hs, lnNvdsRead_whole hr.1, hr.2⟩

/-- A write of the upgrade state cut after its third driver call, following a completed one. -/
theorem lnNvdsWrite_crash_atomic_upg_state :
    ∃ c c', (lnNvdsRead 0xA000 0 size4KB
        (.on (runAll 0xA000 (fun _ => 0xFF) [.write 20 [1, 0, 0, 0]]))).1 = (.ok, c) ∧
      (lnNvdsRead 0xA000 0 size4KB
        (.on (runAll 0xA000 (fun _ => 0xFF) ([.write 20 [1, 0, 0, 0]] ++ [.cut 20 [3, 0, 0, 0] 3])))).1 =
          (.ok, c') ∧
      (Event.cut 20 [3, 0, 0, 0] 3).Outcome c c' :=
  lnNvdsWrite_crash_atomic 0xA000 (fun _ => 0xFF) (fun _ _ _ => rfl) [.write 20 [1, 0, 0, 0]]
    (by simp [Event.Valid, sectMagicCodeLen, size4KB]) (.cut 20 [3, 0, 0, 0] 3)
    (by simp [Event.Valid, sectMagicCodeLen, size4KB])

end Ln882x.Nvds
