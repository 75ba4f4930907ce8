import Ln882x.Ota.Agent
import Ln882x.Ota.Callbacks

/-! What a run of the agent does. It either leaves the flash alone, or erases the
APP partition and restores the image of the OTA partition over it: one call for
the header, then one piece of the body after the other. The pieces of a
compressed image are the blocks of its decoder. -/

namespace Ln882x.Ota

open Nor

variable {f g : Flash} {p : UpgPort} {a : Agent}

/-! ### Verification -/

/-- The entry of the table that a verification uses. -/
def partitionInfo (f : Flash) (type : ℕ) : PartitionInfo := (lnFetchPartitionInfo f type .zero).2

/-- The header of the image in a partition. -/
def partitionHdr (f : Flash) (type : ℕ) : ImageHdr := imageHeaderFastRead f (partitionInfo f type).startAddr

/-- `verify_total_img_partition` succeeds. -/
def Verifies (f : Flash) (type : ℕ) : Prop := (verifyTotalImgPartition f type .zero []).1 = none

instance (f : Flash) (type : ℕ) : Decidable (Verifies f type) := inferInstanceAs (Decidable (_ = _))

/-- What the caller's structure held before plays no role: the table has an entry to read. -/
theorem lnFetchPartitionInfo_info (f : Flash) (type : ℕ) (info : PartitionInfo) :
    lnFetchPartitionInfo f type info = lnFetchPartitionInfo f type .zero := by
  have hstep (n : ℕ) : fetchPartitionLoop f type (n + 1) 0 info = fetchPartitionLoop f type (n + 1) 0 .zero := rfl
  exact hstep 255

-- no proof below walks the table or decodes
attribute [local irreducible] lnFetchPartitionInfo verifyTotalImgPartition xzDecompressBufToBuf

theorem verifyTotalImgPartition_info (f : Flash) (type : ℕ) (info : PartitionInfo) (h : ImageHdr) :
    (verifyTotalImgPartition f type info h).2.1 = partitionInfo f type := by
  unfold verifyTotalImgPartition
  rw [lnFetchPartitionInfo_info]
  dsimp only
  split
  · rfl
  · cases (imageHeaderRead f type h).1 with
    | some e => rfl
    | none =>
      dsimp only
      split
      · rfl
      · rfl

section Known
variable {type : ℕ} (ht : type = partitionTypeApp ∨ type = partitionTypeOta)

include ht

theorem imageHeaderRead_eq (h : ImageHdr) (hok : (lnFetchPartitionInfo f type .zero).1 = true) :
    imageHeaderRead f type h = (none, partitionHdr f type) := by
  unfold imageHeaderRead
  rw [if_neg (by omega)]
  dsimp only
  rw [if_pos hok]
  rfl

theorem verifyTotalImgPartition_eq (info : PartitionInfo) (h : ImageHdr) (hok : (lnFetchPartitionInfo f type .zero).1 = true) :
    verifyTotalImgPartition f type info h =
      (if imageHeaderVerify (partitionHdr f type) then imageBodyVerify f (partitionInfo f type).startAddr (partitionHdr f type)
        else some .imgHeaderVerify, partitionInfo f type, partitionHdr f type) := by
  unfold verifyTotalImgPartition
  rw [lnFetchPartitionInfo_info]
  dsimp only
  rw [hok, imageHeaderRead_eq ht h hok]
  rw [if_neg (by decide)]
  cases imageHeaderVerify (partitionHdr f type) with
  | false => rfl
  | true => rfl

/-- The verdict does not depend on what the caller's structures held. -/
theorem verifyTotalImgPartition_none (info : PartitionInfo) (h : ImageHdr) :
    (verifyTotalImgPartition f type info h).1 = none ↔ Verifies f type := by
  unfold Verifies
  cases hok : (lnFetchPartitionInfo f type .zero).1 with
  | true => rw [verifyTotalImgPartition_eq ht info h hok, verifyTotalImgPartition_eq ht .zero [] hok]
  | false =>
    unfold verifyTotalImgPartition
    rw [lnFetchPartitionInfo_info]
    dsimp only
    rw [hok]
    simp

/-- A partition that verifies has an entry in the table, and an image whose checksums are right. -/
theorem verifies_iff :
    Verifies f type ↔ (lnFetchPartitionInfo f type .zero).1 = true ∧ imageHeaderVerify (partitionHdr f type) = true ∧
      imageBodyVerify f (partitionInfo f type).startAddr (partitionHdr f type) = none := by
  unfold Verifies
  cases hok : (lnFetchPartitionInfo f type .zero).1 with
  | true =>
    rw [verifyTotalImgPartition_eq ht .zero [] hok]
    dsimp only
    split_ifs with hv
    · simp [hv]
    · simp [hv]
  | false =>
    unfold verifyTotalImgPartition
    dsimp only
    rw [hok]
    simp

theorem Verifies.hdr (hv : Verifies f type) (info : PartitionInfo) (h : ImageHdr) :
    (verifyTotalImgPartition f type info h).2.2 = partitionHdr f type := by
  rw [verifyTotalImgPartition_eq ht info h ((verifies_iff ht).mp hv).1]

end Known

theorem verifyApp_none (a : Agent) : a.verifyApp.1 = none ↔ Verifies a.flash partitionTypeApp :=
  verifyTotalImgPartition_none (.inl rfl) a.partitionInfoApp a.appHeader

theorem verifyOta_none (a : Agent) : a.verifyOta.1 = none ↔ Verifies a.flash partitionTypeOta :=
  verifyTotalImgPartition_none (.inr rfl) a.partitionInfoOta a.otaHeader

@[simp] theorem verifyApp_flash (a : Agent) : a.verifyApp.2.flash = a.flash := by
  dsimp only [Agent.verifyApp]

@[simp] theorem verifyApp_acts (a : Agent) : a.verifyApp.2.acts = a.acts := by
  dsimp only [Agent.verifyApp]

@[simp] theorem verifyApp_xz (a : Agent) : a.verifyApp.2.xz = a.xz := by
  dsimp only [Agent.verifyApp]

@[simp] theorem verifyOta_flash (a : Agent) : a.verifyOta.2.flash = a.flash := by
  dsimp only [Agent.verifyOta]

@[simp] theorem verifyOta_acts (a : Agent) : a.verifyOta.2.acts = a.acts := by
  dsimp only [Agent.verifyOta]

@[simp] theorem verifyOta_xz (a : Agent) : a.verifyOta.2.xz = a.xz := by
  dsimp only [Agent.verifyOta]

@[simp] theorem verifyOta_infoApp (a : Agent) : a.verifyOta.2.partitionInfoApp = a.partitionInfoApp := by
  dsimp only [Agent.verifyOta]

@[simp] theorem verifyApp_info (a : Agent) : a.verifyApp.2.partitionInfoApp = partitionInfo a.flash partitionTypeApp :=
  verifyTotalImgPartition_info a.flash partitionTypeApp a.partitionInfoApp a.appHeader

@[simp] theorem verifyOta_info (a : Agent) : a.verifyOta.2.partitionInfoOta = partitionInfo a.flash partitionTypeOta :=
  verifyTotalImgPartition_info a.flash partitionTypeOta a.partitionInfoOta a.otaHeader

/-! ### The two kinds of runs -/

/-- The first byte of the image's body. -/
def PartitionInfo.bodyOffset (info : PartitionInfo) : ℕ := (info.startAddr + imageHdrSize) % 2 ^ 32

/-- The agent is going to restore the OTA image: it is downloaded and verifies, and the
application, if that verifies, is older. -/
def Restores (p : UpgPort) (f : Flash) : Prop :=
  p.get = some upgStateDownloadOk ∧ Verifies f partitionTypeOta ∧
    (Verifies f partitionTypeApp → (partitionHdr f partitionTypeApp).ver < (partitionHdr f partitionTypeOta).ver)

instance (p : UpgPort) (f : Flash) : Decidable (Restores p f) := inferInstanceAs (Decidable (_ ∧ _ ∧ (_ → _)))

/-- The agent when it has verified both partitions, with `h` as its copy of the header of APP. -/
def Agent.restoring (f : Flash) (h : ImageHdr) : Agent :=
  ⟨f, [], h, partitionHdr f partitionTypeOta, partitionInfo f partitionTypeApp, partitionInfo f partitionTypeOta, ⟨0, []⟩, 0⟩

/-- A run that leaves the flash alone. It may start an application that verifies, and it may
record that this application is the restored one. -/
inductive Kept (f : Flash) : Exit × Agent → Prop
  | failed (e : OtaErr) {a : Agent} (hf : a.flash = f) (ha : a.acts = []) (hx : a.xz = ⟨0, []⟩) :
      Kept f (.returned (some e), a)
  | started (ret : Option OtaErr) {a : Agent} (hv : Verifies f partitionTypeApp) (hf : a.flash = f) (ha : a.acts = [])
      (hx : a.xz = ⟨0, []⟩) : Kept f (.jumped (partitionInfo f partitionTypeApp).bodyOffset ret, a)
  | marked {a : Agent} (hv : Verifies f partitionTypeApp) (hf : a.flash = f) (ha : a.acts = [.upgState upgStateRestoreOk])
      (hx : a.xz = ⟨0, []⟩) : Kept f (.jumped (partitionInfo f partitionTypeApp).bodyOffset none, a)

theorem bootApp_kept (f : Flash) : Kept f (bootApp (.boot f)) := by
  have hnone : (Agent.boot f).verifyApp.1 = none ↔ Verifies f partitionTypeApp := verifyApp_none (.boot f)
  have haddr : (Agent.boot f).verifyApp.2.appBodyOffset = (partitionInfo f partitionTypeApp).bodyOffset := by
    rw [Agent.appBodyOffset, verifyApp_info]
    rfl
  have hf : (Agent.boot f).verifyApp.2.flash = f := verifyApp_flash _
  have ha : (Agent.boot f).verifyApp.2.acts = [] := verifyApp_acts _
  have hx : (Agent.boot f).verifyApp.2.xz = ⟨0, []⟩ := verifyApp_xz _
  unfold bootApp
  generalize (Agent.boot f).verifyApp = v at hnone haddr hf ha hx
  dsimp only
  cases he : v.1 with
  | some e => exact .failed e hf ha hx
  | none =>
    dsimp only
    rw [haddr]
    exact .started none (hnone.mp he) hf ha hx

/-- The agent after the verification of APP. -/
def Agent.checked (f : Flash) : Agent := (Agent.boot f).verifyApp.2

theorem checked_flash (f : Flash) : (Agent.checked f).flash = f := verifyApp_flash _

theorem checked_info (f : Flash) : (Agent.checked f).partitionInfoApp = partitionInfo f partitionTypeApp := verifyApp_info _

theorem checked_appHeader (h : Verifies f partitionTypeApp) : (Agent.checked f).appHeader = partitionHdr f partitionTypeApp :=
  h.hdr (.inl rfl) _ _

theorem checked_verifyOta (h : Verifies f partitionTypeOta) :
    (Agent.checked f).verifyOta.2 = .restoring f (Agent.checked f).appHeader := by
  have hflash := checked_flash f
  have hinfo := checked_info f
  have hacts : (Agent.checked f).acts = [] := verifyApp_acts _
  have hxz : (Agent.checked f).xz = ⟨0, []⟩ := verifyApp_xz _
  have hwrite : (Agent.checked f).xzAlreadyWrite = 0 := rfl
  generalize Agent.checked f = a at *
  apply Agent.ext
  · exact hflash
  · exact hacts
  · rfl
  · exact hflash ▸ (hflash.symm ▸ h : Verifies a.flash partitionTypeOta).hdr (.inr rfl) _ _
  · exact hinfo
  · rw [verifyOta_info, hflash]
    rfl
  · exact hxz
  · exact hwrite

theorem agentRun_other (h : p.get ≠ some upgStateDownloadOk) : agentRun p f = bootApp (.boot f) := by
  unfold agentRun otaBootUpgradeAgent
  cases hg : p.get with
  | none => rfl
  | some w =>
    dsimp only
    have hne : w ≠ upgStateDownloadOk := by
      rintro rfl
      exact h hg
    rw [if_pos hne, ite_self]

theorem agentRun_downloadOk (h : p.get = some upgStateDownloadOk) :
    agentRun p f = if Verifies f partitionTypeApp then upgradeApp p (.checked f) else recoverApp p (.checked f) := by
  have hnone : (Agent.boot f).verifyApp.1 = none ↔ Verifies f partitionTypeApp := verifyApp_none (.boot f)
  unfold agentRun otaBootUpgradeAgent
  rw [h]
  dsimp only
  rw [if_neg (by decide), if_neg (by decide)]
  cases he : (Agent.boot f).verifyApp.1 with
  | some e =>
    rw [if_neg (by rw [← hnone, he]; exact Option.some_ne_none e)]
    rfl
  | none =>
    rw [if_pos (hnone.mp he)]
    rfl

/-- A run that restores. -/
theorem agentRun_restores (h : Restores p f) :
    ∃ hdr, agentRun p f = restoreImage p (Agent.restoring f hdr).eraseApp := by
  obtain ⟨hget, hota, hver⟩ := h
  have hnone : (Agent.checked f).verifyOta.1 = none := (verifyOta_none (.checked f)).mpr hota
  use (Agent.checked f).appHeader
  rw [agentRun_downloadOk hget]
  split_ifs with happ
  · unfold upgradeApp
    dsimp only
    rw [hnone, checked_verifyOta hota]
    dsimp only
    rw [if_pos]
    have hlt := hver happ
    rw [← checked_appHeader happ] at hlt
    exact hlt
  · unfold recoverApp
    dsimp only
    rw [hnone, checked_verifyOta hota]

theorem upgradeApp_kept (happ : Verifies f partitionTypeApp)
    (h : Verifies f partitionTypeOta → ¬(partitionHdr f partitionTypeApp).ver < (partitionHdr f partitionTypeOta).ver) :
    Kept f (upgradeApp p (.checked f)) := by
  have hnone : (Agent.checked f).verifyOta.1 = none ↔ Verifies f partitionTypeOta := verifyOta_none (.checked f)
  have haddr : (Agent.checked f).verifyOta.2.appBodyOffset = (partitionInfo f partitionTypeApp).bodyOffset := by
    rw [Agent.appBodyOffset, verifyOta_infoApp, checked_info]
    rfl
  have hf : (Agent.checked f).verifyOta.2.flash = f := verifyOta_flash _
  have ha : (Agent.checked f).verifyOta.2.acts = [] := verifyOta_acts _
  have hx : (Agent.checked f).verifyOta.2.xz = ⟨0, []⟩ := verifyOta_xz _
  have hver : (Agent.checked f).verifyOta.1 = none →
      ¬(Agent.checked f).verifyOta.2.appHeader.ver < (Agent.checked f).verifyOta.2.otaHeader.ver := by
    intro he
    rw [checked_verifyOta (hnone.mp he), Agent.restoring, checked_appHeader happ]
    exact h (hnone.mp he)
  unfold upgradeApp
  generalize (Agent.checked f).verifyOta = o at haddr hf ha hx hver
  dsimp only
  rw [haddr]
  cases he : o.1 with
  | some e => exact .started (some e) happ hf ha hx
  | none =>
    dsimp only
    rw [if_neg (hver he)]
    split_ifs
    · apply Kept.marked happ
      · exact hf
      · dsimp only
        rw [ha, List.nil_append]
      · exact hx
    · exact .failed _ hf ha hx
    · exact .started none happ hf ha hx
    · exact .started none happ hf ha hx

theorem recoverApp_kept (h : ¬Verifies f partitionTypeOta) : Kept f (recoverApp p (.checked f)) := by
  have hnone : (Agent.checked f).verifyOta.1 = none ↔ Verifies f partitionTypeOta := verifyOta_none (.checked f)
  have hf : (Agent.checked f).verifyOta.2.flash = f := verifyOta_flash _
  have ha : (Agent.checked f).verifyOta.2.acts = [] := verifyOta_acts _
  have hx : (Agent.checked f).verifyOta.2.xz = ⟨0, []⟩ := verifyOta_xz _
  unfold recoverApp
  generalize (Agent.checked f).verifyOta = o at hnone hf ha hx
  dsimp only
  cases he : o.1 with
  | some e => exact .failed e hf ha hx
  | none => exact absurd (hnone.mp he) h

/-- Any other run leaves the flash alone. -/
theorem agentRun_kept (h : ¬Restores p f) : Kept f (agentRun p f) := by
  by_cases hget : p.get = some upgStateDownloadOk
  · rw [agentRun_downloadOk hget]
    split_ifs with happ
    · apply upgradeApp_kept happ
      intro hota hlt
      exact h ⟨hget, hota, fun _ => hlt⟩
    · apply recoverApp_kept
      intro hota
      exact h ⟨hget, hota, fun hv => absurd hv happ⟩
  · rw [agentRun_other hget]
    exact bootApp_kept f

/-! ### Pieces -/

def Agent.execAll (a : Agent) (ops : List Op) : Agent := ops.foldl Agent.exec a

theorem execAll_append (a : Agent) (xs ys : List Op) : a.execAll (xs ++ ys) = (a.execAll xs).execAll ys := List.foldl_append

theorem execAll_eq (a : Agent) (ops : List Op) :
    a.execAll ops = { a with flash := applyAll ops a.flash, acts := a.acts ++ ops.map .flash } := by
  induction ops generalizing a with
  | nil => simp [Agent.execAll]
  | cons o ops ih =>
    have hcons : a.execAll (o :: ops) = (a.exec o).execAll ops := rfl
    rw [hcons, ih]
    simp [Agent.exec]

/-- Program calls for one piece of data after the other. -/
def pieces : ℕ → List Bytes → List Op
  | _, [] => []
  | addr, d :: ds => .program addr d :: pieces ((addr + d.length) % 2 ^ 32) ds

theorem execAll_pieces_cons (a : Agent) (addr : ℕ) (d : Bytes) (ds : List Bytes) :
    a.execAll (pieces addr (d :: ds)) = (a.exec (.program addr d)).execAll (pieces ((addr + d.length) % 2 ^ 32) ds) := rfl

theorem pieces_snoc {addr : ℕ} (ds : List Bytes) (d : Bytes) (h : addr < 2 ^ 32) :
    pieces addr (ds ++ [d]) = pieces addr ds ++ [.program ((addr + ds.flatten.length) % 2 ^ 32) d] := by
  induction ds generalizing addr with
  | nil =>
    rw [List.flatten_nil, List.length_nil, Nat.add_zero, Nat.mod_eq_of_lt h]
    rfl
  | cons d' ds ih =>
    rw [List.cons_append, pieces, ih (Nat.mod_lt _ (by decide)), pieces, List.flatten_cons, List.length_append,
      Nat.mod_add_mod, Nat.add_assoc]
    rfl

/-- Every call of the pieces lies at its place. -/
theorem mem_pieces {addr : ℕ} {ds : List Bytes} {o : Op} (h : addr < 2 ^ 32) (ho : o ∈ pieces addr ds) :
    ∃ off d, o = .program ((addr + off) % 2 ^ 32) d ∧ off + d.length ≤ ds.flatten.length ∧ d ∈ ds := by
  induction ds generalizing addr with
  | nil => simp [pieces] at ho
  | cons d ds ih =>
    rw [pieces, List.mem_cons] at ho
    rcases ho with rfl | ho
    · use 0, d
      rw [Nat.add_zero, Nat.mod_eq_of_lt h]
      simp
    · obtain ⟨off, d', rfl, hle, hmem⟩ := ih (Nat.mod_lt _ (by decide)) ho
      use d.length + off, d'
      rw [Nat.mod_add_mod, Nat.add_assoc, List.flatten_cons, List.length_append]
      exact ⟨rfl, by omega, List.mem_cons_of_mem _ hmem⟩

/-- Without a wrap the pieces touch the bytes of their region only. -/
theorem mem_pieces_within {addr : ℕ} {ds : List Bytes} {o : Op} (hne : ∀ d ∈ ds, d ≠ [])
    (hend : addr + ds.flatten.length ≤ 2 ^ 32) (ho : o ∈ pieces addr ds) :
    addr ≤ o.addr ∧ o.addr + o.len ≤ addr + ds.flatten.length := by
  have hlt : addr < 2 ^ 32 := by
    cases ds with
    | nil => simp [pieces] at ho
    | cons d ds =>
      have hd : 0 < d.length := List.length_pos_iff.mpr (hne d List.mem_cons_self)
      rw [List.flatten_cons, List.length_append] at hend
      omega
  obtain ⟨off, d, rfl, hle, hmem⟩ := mem_pieces hlt ho
  have hd : 0 < d.length := List.length_pos_iff.mpr (hne d hmem)
  simp only [Op.addr, Op.len]
  rw [Nat.mod_eq_of_lt (by omega)]
  omega

/-- The pieces fill an erased region from its start. -/
theorem readBytes_pieces {addr n : ℕ} {ds : List Bytes} (hne : ∀ d ∈ ds, d ≠ []) (hfree : readBytes f addr n = blank n)
    (hlen : ds.flatten.length ≤ n) (hend : addr + n ≤ 2 ^ 32) :
    readBytes (applyAll (pieces addr ds) f) addr n = ds.flatten ++ blank (n - ds.flatten.length) := by
  induction ds generalizing f addr n with
  | nil => simpa [pieces] using hfree
  | cons d ds ih =>
    rw [List.flatten_cons, List.length_append] at hlen ⊢
    rw [pieces, applyAll_cons]
    obtain ⟨m, rfl⟩ : ∃ m, n = d.length + m := ⟨n - d.length, by omega⟩
    rw [blank_add] at hfree
    have hfirst := readBytes_program_head hfree
    rw [readBytes_add] at hfirst
    obtain ⟨hhead, hrest⟩ := List.append_inj hfirst (length_readBytes _ _ _)
    cases ds with
    | nil =>
      rw [pieces, applyAll_nil, readBytes_add, hhead, hrest]
      simp
    | cons d' ds =>
      have hd' : 0 < d'.length := List.length_pos_iff.mpr (hne d' (by simp))
      have hnext : (addr + d.length) % 2 ^ 32 = addr + d.length := by
        rw [List.flatten_cons, List.length_append] at hlen
        rw [Nat.mod_eq_of_lt (by omega)]
      rw [hnext, readBytes_add, ih (fun x hx => hne x (List.mem_cons_of_mem d hx)) hrest (by omega) (by omega)]
      have hkeep : readBytes (applyAll (pieces (addr + d.length) (d' :: ds)) ((Op.program addr d).apply f)) addr d.length = d := by
        apply Eq.trans _ hhead
        apply readBytes_congr
        intro x _ hx
        apply applyAll_outside
        intro o ho
        have hin := mem_pieces_within (fun x hx => hne x (List.mem_cons_of_mem d hx)) (by omega) ho
        omega
      rw [hkeep, List.append_assoc]
      congr 3
      omega

/-! ### The body of the image -/

/-- The bytes of a read lie outside a region. -/
def ReadsOutside (offset len addr n : ℕ) : Prop := ∀ i < len, (offset + i) % 2 ^ 32 < addr ∨ addr + n ≤ (offset + i) % 2 ^ 32

/-- An original image is copied in pieces. They are the body of the OTA image if the copy does
not write over it. -/
theorem origCopyLoop_pieces (remainder n : ℕ) (a : Agent) {appOffset : ℕ} (otaOffset : ℕ) (h : appOffset < 2 ^ 32) :
    ∃ ds, (∀ d ∈ ds, d ≠ []) ∧ ds.flatten.length = n * len4KB + remainder ∧
      origCopyLoop remainder n a appOffset otaOffset = a.execAll (pieces appOffset ds) ∧
      (appOffset + (n * len4KB + remainder) ≤ 2 ^ 32 →
        ReadsOutside otaOffset (n * len4KB + remainder) appOffset (n * len4KB + remainder) →
        ds.flatten = flashRead a.flash otaOffset (n * len4KB + remainder)) := by
  induction n generalizing a appOffset otaOffset with
  | zero =>
    rw [origCopyLoop, Nat.zero_mul, Nat.zero_add]
    split_ifs with hr
    · use [flashRead a.flash otaOffset remainder]
      constructor
      · intro d hd
        rw [List.mem_singleton.mp hd, ← List.length_pos_iff, length_flashRead]
        omega
      · simp [pieces, Agent.execAll]
    · rw [not_not] at hr
      use []
      simp [hr, pieces, Agent.execAll, flashRead]
  | succ n ih =>
    have hlen : (n + 1) * len4KB + remainder = len4KB + (n * len4KB + remainder) := by rw [Nat.succ_mul]; omega
    have hpos : 0 < len4KB := by decide
    obtain ⟨ds, hne, hsize, heq, hbody⟩ := ih (a.exec (.program appOffset (flashRead a.flash otaOffset len4KB)))
      ((otaOffset + len4KB) % 2 ^ 32) (Nat.mod_lt (appOffset + len4KB) (by decide))
    use flashRead a.flash otaOffset len4KB :: ds
    rw [hlen]
    refine ⟨?_, ?_, ?_, ?_⟩
    · intro d hd
      rcases List.mem_cons.mp hd with heq | hd
      · rw [heq, ← List.length_pos_iff, length_flashRead]
        exact hpos
      · exact hne d hd
    · rw [List.flatten_cons, List.length_append, length_flashRead, hsize]
    · rw [execAll_pieces_cons, length_flashRead, origCopyLoop, heq]
    · intro hend hout
      -- the piece just written is not read again
      have hkeep : flashRead (a.exec (.program appOffset (flashRead a.flash otaOffset len4KB))).flash
          ((otaOffset + len4KB) % 2 ^ 32) (n * len4KB + remainder) =
          flashRead a.flash (otaOffset + len4KB) (n * len4KB + remainder) := by
        rw [flashRead_mod]
        apply flashRead_congr
        intro i hi
        have houti := hout (len4KB + i) (by omega)
        apply program_outside
        rw [length_flashRead, Nat.add_assoc]
        omega
      rw [List.flatten_cons, flashRead_add, ← hkeep]
      congr 1
      rcases Nat.eq_zero_or_pos (n * len4KB + remainder) with h0 | hpos'
      · rw [h0] at hsize ⊢
        rw [List.length_eq_zero_iff.mp hsize]
        rfl
      · have hnext : (appOffset + len4KB) % 2 ^ 32 = appOffset + len4KB := Nat.mod_eq_of_lt (by omega)
        apply hbody
        · rw [hnext]
          omega
        · intro i hi
          have houti := hout (len4KB + i) (by omega)
          rw [Nat.mod_add_mod, hnext, Nat.add_assoc]
          omega

/-- A compressed body, decoded from a flash into which it is written while it is decoded: the
result, the input, the flash and the bytes decoded. -/
def xzRestored (f : Flash) (appOffset otaOffset xzSize : ℕ) : Option XzErr × XzInput × Flash × Bytes :=
  xzDecompressBufToBuf (fun t : Flash × Bytes => decompressReadCb t.1 otaOffset xzSize)
    (fun block t => ((Op.program ((appOffset + t.2.length) % 2 ^ 32) block).apply t.1, t.2 ++ block))
    (flashRead f otaOffset xzHeaderSize) ⟨xzHeaderSize, []⟩ (f, [])

/-- A compressed body, decoded from a flash at rest. -/
def xzPayload (f : Flash) (otaOffset xzSize : ℕ) : Option XzErr × XzInput × Bytes :=
  xzDecompressBufToBuf (fun _ : Bytes => decompressReadCb f otaOffset xzSize) (fun block out => out ++ block)
    (flashRead f otaOffset xzHeaderSize) ⟨xzHeaderSize, []⟩ []

/-- The agent with the pieces `ds` of a decoded body written. -/
def Agent.written (a : Agent) (ds : List Bytes) : Agent :=
  { a.execAll (pieces a.appBodyOffset ds) with xzAlreadyWrite := ds.flatten.length % 2 ^ 32 }

theorem written_flash (a : Agent) (ds : List Bytes) :
    (a.written ds).flash = applyAll (pieces a.appBodyOffset ds) a.flash := by
  rw [Agent.written, execAll_eq]

theorem written_appBodyOffset (a : Agent) (ds : List Bytes) : (a.written ds).appBodyOffset = a.appBodyOffset := by
  rw [Agent.written, execAll_eq]
  rfl

theorem written_otaBodyOffset (a : Agent) (ds : List Bytes) : (a.written ds).otaBodyOffset = a.otaBodyOffset := by
  rw [Agent.written, execAll_eq]
  rfl

theorem decompressWriteCb_written (a : Agent) (ds : List Bytes) (block : Bytes) :
    decompressWriteCb block (a.written ds) = a.written (ds ++ [block]) := by
  have hlt : a.appBodyOffset < 2 ^ 32 := Nat.mod_lt _ (by decide)
  have hcount : (a.written ds).xzAlreadyWrite = ds.flatten.length % 2 ^ 32 := rfl
  have hflat : (ds ++ [block]).flatten.length = ds.flatten.length + block.length := by simp
  unfold decompressWriteCb
  rw [written_appBodyOffset, hcount, Nat.add_mod_mod, Nat.mod_add_mod, Agent.written, Agent.written, pieces_snoc ds block hlt,
    execAll_append, hflat]
  rfl

theorem written_nil (hw : a.xzAlreadyWrite = 0) : a.written [] = a := by
  apply Agent.ext
  all_goals try rfl
  exact hw.symm

/-- The agent that wrote the decoded bytes `t.2` piece by piece has the flash `t.1`. -/
def WrittenAs (a b : Agent) (t : Flash × Bytes) : Prop :=
  ∃ ds, (∀ d ∈ ds, d ≠ []) ∧ ds.flatten = t.2 ∧ b = a.written ds ∧ t.1 = b.flash

theorem WrittenAs.write {b : Agent} {t : Flash × Bytes} {block : Bytes} (h : WrittenAs a b t) (hblock : block ≠ []) :
    WrittenAs a (decompressWriteCb block b)
      ((Op.program ((a.appBodyOffset + t.2.length) % 2 ^ 32) block).apply t.1, t.2 ++ block) := by
  obtain ⟨ds, hne, hflat, rfl, hflash⟩ := h
  have hlt : a.appBodyOffset < 2 ^ 32 := Nat.mod_lt _ (by decide)
  refine ⟨ds ++ [block], ?_, ?_, decompressWriteCb_written a ds block, ?_⟩
  · intro d hd
    rcases List.mem_append.mp hd with hd | hd
    · exact hne d hd
    · rw [List.mem_singleton.mp hd]
      exact hblock
  · rw [← hflat]
    simp
  · rw [decompressWriteCb_written, written_flash, pieces_snoc ds block hlt, applyAll_append, hflash, written_flash, ← hflat]
    rfl

/-- The agent decodes and writes a compressed body in pieces. -/
theorem xzImageDoRestore_pieces (a : Agent) (hx : a.xz = ⟨0, []⟩) (hw : a.xzAlreadyWrite = 0) :
    ∃ ds b, (∀ d ∈ ds, d ≠ []) ∧
      ds.flatten = (xzRestored a.flash a.appBodyOffset a.otaBodyOffset a.otaHeader.imgSizeOrigXz).2.2.2 ∧
      b.flash = applyAll (pieces a.appBodyOffset ds) a.flash ∧ b.acts = a.acts ++ (pieces a.appBodyOffset ds).map .flash ∧
      b.xz = (xzRestored a.flash a.appBodyOffset a.otaBodyOffset a.otaHeader.imgSizeOrigXz).2.1 ∧
      xzImageDoRestore a =
        ((xzRestored a.flash a.appBodyOffset a.otaBodyOffset a.otaHeader.imgSizeOrigXz).1.map fun _ => .decompress, b) := by
  have hread : ∀ b t, WrittenAs a b t → True →
      Agree (fun _ => True) (decompressReadCb b.flash b.otaBodyOffset a.otaHeader.imgSizeOrigXz)
        (decompressReadCb t.1 a.otaBodyOffset a.otaHeader.imgSizeOrigXz) := by
    rintro b t ⟨ds, -, -, rfl, hflash⟩ -
    rw [written_otaBodyOffset, hflash]
    exact ⟨fun _ _ => rfl, fun _ _ => trivial⟩
  have hstart : WrittenAs a a (a.flash, []) := by
    refine ⟨[], ?_, rfl, (written_nil hw).symm, rfl⟩
    intro d hd
    exact absurd hd List.not_mem_nil
  have hinput : { a.xz with alreadyRead := a.xz.alreadyRead + xzHeaderSize } = (⟨xzHeaderSize, []⟩ : XzInput) := by
    rw [hx, Nat.zero_add]
  have hwrite : ∀ block b t, block ≠ [] → WrittenAs a b t → True → WrittenAs a (decompressWriteCb block b)
      ((Op.program ((a.appBodyOffset + t.2.length) % 2 ^ 32) block).apply t.1, t.2 ++ block) := by
    intro block b t hblock hb _
    exact hb.write hblock
  obtain ⟨herr, hin, -, hend⟩ := xzDecompressBufToBuf_sim hread hwrite (fun _ _ _ => trivial)
    (flashRead a.flash a.otaBodyOffset xzHeaderSize) (s := ⟨xzHeaderSize, []⟩) trivial hstart trivial
  obtain ⟨ds, hne, hflat, hb, -⟩ := hend
  unfold xzRestored xzImageDoRestore
  dsimp only
  rw [hinput, herr, hin, hb]
  refine ⟨ds, _, hne, hflat, ?_, ?_, ?_, rfl⟩
  · exact written_flash a ds
  · dsimp only
    rw [Agent.written, execAll_eq]
  · rfl

/-! ### Reading the compressed body -/

/-- The callback while it is inside the body. -/
theorem decompressReadCb_inside {otaOffset xzSize : ℕ} {s : XzInput} (hle : s.alreadyRead ≤ xzSize)
    (hlt : xzSize - s.alreadyRead < 2 ^ 31) (hsize : xzSize < 2 ^ 32) :
    decompressReadCb f otaOffset xzSize s =
      ⟨true, flashRead f (otaOffset + s.alreadyRead) (min (xzSize - s.alreadyRead) len4KB),
        ⟨s.alreadyRead + min (xzSize - s.alreadyRead) len4KB,
          s.reads ++ [(s.alreadyRead, ((min (xzSize - s.alreadyRead) len4KB : ℕ) : ℤ))]⟩⟩ := by
  have hd : (xzSize + 2 ^ 32 - s.alreadyRead) % 2 ^ 32 = xzSize - s.alreadyRead := by omega
  have hlen : decompressLen xzSize s.alreadyRead = ((min (xzSize - s.alreadyRead) len4KB : ℕ) : ℤ) := by
    unfold decompressLen
    dsimp only
    rw [hd, if_pos hlt]
    simp only [len4KB]
    split_ifs
    · omega
    · omega
  have htoNat : (((min (xzSize - s.alreadyRead) len4KB : ℕ) : ℤ) % 2 ^ 32).toNat = min (xzSize - s.alreadyRead) len4KB := by
    omega
  unfold decompressReadCb
  dsimp only
  rw [hlen, htoNat, flashRead_mod, Nat.mod_eq_of_lt (by omega)]

/-- The callback does not notice a flash that differs outside the body. -/
theorem decompressReadCb_agree {otaOffset xzSize : ℕ} (hsize : xzSize - xzHeaderSize < 2 ^ 31)
    (h : ∀ i < xzSize, f ((otaOffset + i) % 2 ^ 32) = g ((otaOffset + i) % 2 ^ 32)) :
    Agree (fun s => xzHeaderSize ≤ s.alreadyRead ∧ s.alreadyRead ≤ xzSize) (decompressReadCb f otaOffset xzSize)
      (decompressReadCb g otaOffset xzSize) := by
  have hhdr : xzHeaderSize = 13 := rfl
  constructor
  · rintro s ⟨hge, hle⟩
    rw [decompressReadCb_inside hle (by omega) (by omega), decompressReadCb_inside hle (by omega) (by omega)]
    congr 1
    apply flashRead_congr
    intro i hi
    rw [Nat.add_assoc]
    exact h _ (by omega)
  · rintro s ⟨hge, hle⟩
    rw [decompressReadCb_inside hle (by omega) (by omega)]
    dsimp only
    omega

/-- The bytes decoded so far, with the body unchanged in flash. -/
def Intact (f : Flash) (otaOffset xzSize : ℕ) (t : Flash × Bytes) (out : Bytes) : Prop :=
  t.2 = out ∧ ∀ i < xzSize, t.1 ((otaOffset + i) % 2 ^ 32) = f ((otaOffset + i) % 2 ^ 32)

/-- A body that the decoder does not write over is decoded as from a flash at rest. -/
theorem xzRestored_eq {appOffset otaOffset xzSize : ℕ} (hge : xzHeaderSize ≤ xzSize) (hsize : xzSize - xzHeaderSize < 2 ^ 31)
    (hend : appOffset + (xzPayload f otaOffset xzSize).2.2.length ≤ 2 ^ 32)
    (hout : ReadsOutside otaOffset xzSize appOffset (xzPayload f otaOffset xzSize).2.2.length) :
    (xzRestored f appOffset otaOffset xzSize).1 = (xzPayload f otaOffset xzSize).1 ∧
      (xzRestored f appOffset otaOffset xzSize).2.2.2 = (xzPayload f otaOffset xzSize).2.2 := by
  generalize hn : (xzPayload f otaOffset xzSize).2.2.length = n at hend hout
  have hread : ∀ (t : Flash × Bytes) (out : Bytes), Intact f otaOffset xzSize t out → out.length ≤ n →
      Agree (fun s => xzHeaderSize ≤ s.alreadyRead ∧ s.alreadyRead ≤ xzSize) (decompressReadCb t.1 otaOffset xzSize)
        (decompressReadCb f otaOffset xzSize) := by
    rintro t out ⟨-, hsame⟩ -
    exact decompressReadCb_agree hsize hsame
  have hwrite : ∀ (block : Bytes) (t : Flash × Bytes) (out : Bytes), block ≠ [] → Intact f otaOffset xzSize t out →
      (out ++ block).length ≤ n → Intact f otaOffset xzSize
        ((Op.program ((appOffset + t.2.length) % 2 ^ 32) block).apply t.1, t.2 ++ block) (out ++ block) := by
    rintro block t out hblock ⟨rfl, hsame⟩ hlen
    refine ⟨rfl, fun i hi => ?_⟩
    have hpos : 0 < block.length := List.length_pos_iff.mpr hblock
    have houti := hout i hi
    rw [List.length_append] at hlen
    have hmod : (appOffset + t.2.length) % 2 ^ 32 = appOffset + t.2.length := Nat.mod_eq_of_lt (by omega)
    rw [← hsame i hi, hmod]
    exact program_outside (by omega)
  have hdown : ∀ block out : Bytes, (out ++ block).length ≤ n → out.length ≤ n := by
    intro block out hlen
    rw [List.length_append] at hlen
    omega
  have hstart : Intact f otaOffset xzSize (f, []) [] := ⟨rfl, fun _ _ => rfl⟩
  obtain ⟨herr, -, -, hend⟩ := xzDecompressBufToBuf_sim hread hwrite hdown (flashRead f otaOffset xzHeaderSize)
    (s := ⟨xzHeaderSize, []⟩) ⟨Nat.le_refl _, hge⟩ hstart hn.le
  exact ⟨herr, hend.1⟩

/-! ### A run that restores -/

theorem finishRestore_flash (p : UpgPort) (a : Agent) : (finishRestore p a).2.flash = a.flash := by
  unfold finishRestore
  dsimp only
  cases a.verifyApp.1 with
  | some e => exact verifyApp_flash a
  | none =>
    dsimp only
    split
    · exact verifyApp_flash a
    · exact verifyApp_flash a

theorem finishRestore_xz (p : UpgPort) (a : Agent) : (finishRestore p a).2.xz = a.xz := by
  unfold finishRestore
  dsimp only
  cases a.verifyApp.1 with
  | some e => exact verifyApp_xz a
  | none =>
    dsimp only
    split
    · exact verifyApp_xz a
    · exact verifyApp_xz a

/-- The restored application verifies: it is recorded and started. -/
theorem finishRestore_started (hv : Verifies a.flash partitionTypeApp) (hset : p.setOk = true) :
    (finishRestore p a).1 = .jumped (partitionInfo a.flash partitionTypeApp).bodyOffset none ∧
      (finishRestore p a).2.acts = a.acts ++ [.upgState upgStateRestoreOk] := by
  have hnone := (verifyApp_none a).mpr hv
  unfold finishRestore
  dsimp only
  rw [hnone]
  dsimp only
  rw [if_pos hset, Agent.appBodyOffset, verifyApp_info, verifyApp_acts]
  exact ⟨rfl, rfl⟩

theorem finishRestore_failed (h : ¬(Verifies a.flash partitionTypeApp ∧ p.setOk = true)) :
    (∃ e, (finishRestore p a).1 = .returned (some e)) ∧ (finishRestore p a).2.acts = a.acts := by
  unfold finishRestore
  dsimp only
  cases he : a.verifyApp.1 with
  | some e => exact ⟨⟨e, rfl⟩, verifyApp_acts a⟩
  | none =>
    have hset : ¬p.setOk = true := fun hs => h ⟨(verifyApp_none a).mp he, hs⟩
    dsimp only
    rw [if_neg hset]
    exact ⟨⟨_, rfl⟩, verifyApp_acts a⟩

theorem finishRestore_acts (p : UpgPort) (a : Agent) :
    (finishRestore p a).2.acts = a.acts ∨ (finishRestore p a).2.acts = a.acts ++ [.upgState upgStateRestoreOk] := by
  by_cases h : Verifies a.flash partitionTypeApp ∧ p.setOk = true
  · right
    exact (finishRestore_started h.1 h.2).2
  · left
    exact (finishRestore_failed h).2

/-- The erased APP partition, with a header. -/
def preparedFlash (f : Flash) (hdr : ImageHdr) : Flash :=
  (Op.program (partitionInfo f partitionTypeApp).startAddr hdr).apply
    ((Op.erase (partitionInfo f partitionTypeApp).startAddr (partitionInfo f partitionTypeApp).size).apply f)

/-- The driver calls that restore an image. -/
def restoreOps (f : Flash) (hdr : ImageHdr) (ds : List Bytes) : List Op :=
  .erase (partitionInfo f partitionTypeApp).startAddr (partitionInfo f partitionTypeApp).size ::
    .program (partitionInfo f partitionTypeApp).startAddr hdr :: pieces (partitionInfo f partitionTypeApp).bodyOffset ds

/-- The agent has restored the header `hdr` and the pieces `ds` of a body. -/
structure Rewritten (f : Flash) (hdr : ImageHdr) (ds : List Bytes) (a : Agent) : Prop where
  nonempty : ∀ d ∈ ds, d ≠ []
  flash : a.flash = applyAll (restoreOps f hdr ds) f
  acts : a.acts = (restoreOps f hdr ds).map .flash

/-- The compressed OTA image, decoded over the prepared APP partition. -/
def xzRestoredOta (f : Flash) : Option XzErr × XzInput × Flash × Bytes :=
  xzRestored (preparedFlash f (partitionHdr f partitionTypeOta).asOriginal) (partitionInfo f partitionTypeApp).bodyOffset
    (partitionInfo f partitionTypeOta).bodyOffset (partitionHdr f partitionTypeOta).imgSizeOrigXz

/-- What a run that restores does, by the type of the image. -/
inductive Restored (p : UpgPort) (f : Flash) : Exit × Agent → Prop
  | unsupported (e : OtaErr) {a : Agent} (ht : (partitionHdr f partitionTypeOta).imageType ≠ some .original)
      (htx : (partitionHdr f partitionTypeOta).imageType ≠ some .originalXz)
      (hf : a.flash = (Op.erase (partitionInfo f partitionTypeApp).startAddr (partitionInfo f partitionTypeApp).size).apply f)
      (ha : a.acts = [.flash (.erase (partitionInfo f partitionTypeApp).startAddr (partitionInfo f partitionTypeApp).size)])
      (hx : a.xz = ⟨0, []⟩) : Restored p f (.returned (some e), a)
  | original {ds : List Bytes} {a : Agent} (ht : (partitionHdr f partitionTypeOta).imageType = some .original)
      (hr : Rewritten f (partitionHdr f partitionTypeOta) ds a)
      (hlen : ds.flatten.length = (partitionHdr f partitionTypeOta).imgSizeOrig)
      (hbody : (partitionInfo f partitionTypeApp).bodyOffset + (partitionHdr f partitionTypeOta).imgSizeOrig ≤ 2 ^ 32 →
        ReadsOutside (partitionInfo f partitionTypeOta).bodyOffset (partitionHdr f partitionTypeOta).imgSizeOrig
          (partitionInfo f partitionTypeApp).bodyOffset (partitionHdr f partitionTypeOta).imgSizeOrig →
        ds.flatten = flashRead (preparedFlash f (partitionHdr f partitionTypeOta))
          (partitionInfo f partitionTypeOta).bodyOffset (partitionHdr f partitionTypeOta).imgSizeOrig)
      (hx : a.xz = ⟨0, []⟩) : Restored p f (finishRestore p a)
  | broken {e : XzErr} {ds : List Bytes} {a : Agent} (ht : (partitionHdr f partitionTypeOta).imageType = some .originalXz)
      (he : (xzRestoredOta f).1 = some e) (hr : Rewritten f (partitionHdr f partitionTypeOta).asOriginal ds a)
      (hbody : ds.flatten = (xzRestoredOta f).2.2.2) (hx : a.xz = (xzRestoredOta f).2.1) :
      Restored p f (.returned (some .decompress), a)
  | decoded {ds : List Bytes} {a : Agent} (ht : (partitionHdr f partitionTypeOta).imageType = some .originalXz)
      (he : (xzRestoredOta f).1 = none) (hr : Rewritten f (partitionHdr f partitionTypeOta).asOriginal ds a)
      (hbody : ds.flatten = (xzRestoredOta f).2.2.2) (hx : a.xz = (xzRestoredOta f).2.1) :
      Restored p f (finishRestore p a)

theorem rewritten_execAll (hdr : ImageHdr) {ds : List Bytes} (h : ImageHdr) (hne : ∀ d ∈ ds, d ≠ []) :
    Rewritten f hdr ds
      (((Agent.restoring f h).eraseApp.exec (.program (partitionInfo f partitionTypeApp).startAddr hdr)).execAll
        (pieces (partitionInfo f partitionTypeApp).bodyOffset ds)) := by
  rw [execAll_eq]
  exact ⟨hne, rfl, rfl⟩

theorem restoreImage_restored (p : UpgPort) (f : Flash) (h : ImageHdr) :
    Restored p f (restoreImage p (Agent.restoring f h).eraseApp) := by
  have hlt : (partitionInfo f partitionTypeApp).bodyOffset < 2 ^ 32 := Nat.mod_lt _ (by decide)
  have hhdr : (Agent.restoring f h).eraseApp.otaHeader = partitionHdr f partitionTypeOta := rfl
  unfold restoreImage
  rw [hhdr]
  cases ht : (partitionHdr f partitionTypeOta).imageType with
  | none => exact .unsupported _ (by rw [ht]; simp) (by rw [ht]; simp) rfl rfl rfl
  | some t =>
    cases t with
    | diff => exact .unsupported _ (by rw [ht]; simp) (by rw [ht]; simp) rfl rfl rfl
    | diffXz => exact .unsupported _ (by rw [ht]; simp) (by rw [ht]; simp) rfl rfl rfl
    | original =>
      have hsize := Nat.div_add_mod' (partitionHdr f partitionTypeOta).imgSizeOrig len4KB
      obtain ⟨ds, hne, hlen, heq, hbody⟩ := origCopyLoop_pieces ((partitionHdr f partitionTypeOta).imgSizeOrig % len4KB)
        ((partitionHdr f partitionTypeOta).imgSizeOrig / len4KB)
        ((Agent.restoring f h).eraseApp.exec
          (.program (partitionInfo f partitionTypeApp).startAddr (partitionHdr f partitionTypeOta)))
        (partitionInfo f partitionTypeOta).bodyOffset hlt
      have hx := congrArg Agent.xz (execAll_eq ((Agent.restoring f h).eraseApp.exec
        (.program (partitionInfo f partitionTypeApp).startAddr (partitionHdr f partitionTypeOta)))
        (pieces (partitionInfo f partitionTypeApp).bodyOffset ds))
      rw [hsize] at hlen hbody
      have hr := Restored.original (p := p) ht (rewritten_execAll _ h hne) hlen hbody hx
      rw [← heq] at hr
      exact hr
    | originalXz =>
      obtain ⟨ds, b, hne, hflat, hflash, hacts, hxz, heq⟩ := xzImageDoRestore_pieces
        ((Agent.restoring f h).eraseApp.exec
          (.program (partitionInfo f partitionTypeApp).startAddr (partitionHdr f partitionTypeOta).asOriginal)) rfl rfl
      have hr : Rewritten f (partitionHdr f partitionTypeOta).asOriginal ds b := ⟨hne, hflash, hacts⟩
      have hrun : xzImageDoRestore ((Agent.restoring f h).eraseApp.exec (.program
          (Agent.restoring f h).eraseApp.partitionInfoApp.startAddr (partitionHdr f partitionTypeOta).asOriginal)) =
          ((xzRestoredOta f).1.map fun _ => .decompress, b) := heq
      dsimp only
      rw [hrun]
      cases he : (xzRestoredOta f).1 with
      | some e => exact .broken ht he hr hflat hxz
      | none => exact .decoded ht he hr hflat hxz

/-- A run of the agent restores or leaves the flash alone. -/
theorem agentRun_restored (h : Restores p f) : Restored p f (agentRun p f) := by
  obtain ⟨hdr, heq⟩ := agentRun_restores h
  rw [heq]
  exact restoreImage_restored p f hdr

end Ln882x.Ota
