import Ln882x.Ota.Jump

/-! Runs of the agent that are cut short and started again. A run leaves the flash
as it was, or a prefix of a restore: APP erased, or with the header of the OTA image
in front. So the old application is given up for a newer one only, and once it is
gone every restore is of that same image. -/

namespace Ln882x.Ota

open Nor

variable {f g : Flash} {p : UpgPort} {app ota : PartitionInfo}

-- no proof below walks the table or decodes
attribute [local irreducible] lnFetchPartitionInfo verifyTotalImgPartition xzDecompressBufToBuf

/-! ### Boots -/

/-- The driver call that the action is. -/
def Act.call : Act → Option Op
  | .flash o => some o
  | .upgState _ => none

def driverCalls (acts : List Act) : List Op := acts.filterMap Act.call

/-- A run of the agent. If `cut` is `some k`, the power is lost after `k` actions. -/
structure Boot where
  port : UpgPort
  cut : Option ℕ

namespace Boot

def acts (t : Boot) (f : Flash) : List Act :=
  match t.cut with
  | none => (agentRun t.port f).2.acts
  | some k => (agentRun t.port f).2.acts.take k

def calls (t : Boot) (f : Flash) : List Op := driverCalls (t.acts f)

/-- The flash that the boot leaves. -/
def left (t : Boot) (f : Flash) : Flash := applyAll (t.calls f) f

end Boot

/-- The flash after some boots. -/
def restarts (f : Flash) (ts : List Boot) : Flash := ts.foldl (fun g t => t.left g) f

/-! ### What a boot writes -/

/-- The number of bytes that a restore of the OTA image puts behind the header. -/
def decodedSize (f : Flash) : ℕ :=
  match (partitionHdr f partitionTypeOta).imageType with
  | some .original => (partitionHdr f partitionTypeOta).imgSizeOrig
  | some .originalXz => (xzRestoredOta f).2.2.2.length
  | _ => 0

/-- The header that a restore of the OTA image writes. -/
def restoredHdr (f : Flash) : ImageHdr :=
  match (partitionHdr f partitionTypeOta).imageType with
  | some .originalXz => (partitionHdr f partitionTypeOta).asOriginal
  | _ => partitionHdr f partitionTypeOta

theorem length_restoredHdr (f : Flash) : (restoredHdr f).length = imageHdrSize := by
  have hlen := length_partitionHdr f partitionTypeOta
  unfold restoredHdr
  split
  · exact length_asOriginal hlen
  · exact hlen

theorem ver_restoredHdr (f : Flash) : (restoredHdr f).ver = (partitionHdr f partitionTypeOta).ver := by
  unfold restoredHdr
  split
  · exact ver_asOriginal (length_partitionHdr f partitionTypeOta)
  · rfl

theorem driverCalls_map (ops : List Op) : driverCalls (ops.map .flash) = ops := by
  have hcall : Act.call ∘ Act.flash = some := by
    funext o
    rfl
  rw [driverCalls, List.filterMap_map, hcall, List.filterMap_some]

theorem driverCalls_append (xs ys : List Act) : driverCalls (xs ++ ys) = driverCalls xs ++ driverCalls ys :=
  List.filterMap_append

theorem driverCalls_take {ops : List Op} {acts : List Act} {w : ℕ} (h : acts = ops.map .flash ∨ acts = ops.map .flash ++ [.upgState w])
    (k : ℕ) : driverCalls (acts.take k) = ops.take k := by
  rcases h with rfl | rfl
  · rw [← List.map_take, driverCalls_map]
  · rw [List.take_append, ← List.map_take, driverCalls_append, driverCalls_map]
    cases k - (ops.map Act.flash).length with
    | zero => simp [driverCalls]
    | succ n => simp [driverCalls, Act.call]

/-- The first driver calls of a restore into APP. -/
def RestoreBegun (f : Flash) (app : PartitionInfo) (ops : List Op) : Prop :=
  ∃ ds j, (∀ d ∈ ds, d ≠ []) ∧ imageHdrSize + ds.flatten.length ≤ app.size ∧ ops = (restoreOps f (restoredHdr f) ds).take j

theorem restoreBegun_nil (hsize : imageHdrSize ≤ app.size) (f : Flash) : RestoreBegun f app [] :=
  ⟨[], 0, fun _ hd => absurd hd List.not_mem_nil, hsize, rfl⟩

theorem RestoreBegun.take {ops : List Op} (h : RestoreBegun f app ops) (k : ℕ) : RestoreBegun f app (ops.take k) := by
  obtain ⟨ds, j, hne, hfit, rfl⟩ := h
  exact ⟨ds, min k j, hne, hfit, List.take_take⟩

/-- The actions of a run: driver calls, then perhaps a change of the state. -/
def CallsFirst (acts : List Act) (ops : List Op) : Prop :=
  acts = ops.map .flash ∨ acts = ops.map .flash ++ [.upgState upgStateRestoreOk]

theorem Rewritten.callsFirst {hdr : ImageHdr} {ds : List Bytes} {a : Agent} (hr : Rewritten f hdr ds a) (p : UpgPort) :
    CallsFirst (finishRestore p a).2.acts (restoreOps f hdr ds) := by
  have hacts := finishRestore_acts p a
  rw [hr.acts] at hacts
  exact hacts

theorem Restored.calls {r : Exit × Agent} (h : Restored p f r) (hfit : imageHdrSize + decodedSize f ≤ app.size) :
    ∃ ops, RestoreBegun f app ops ∧ CallsFirst r.2.acts ops ∧ r.2.flash = applyAll ops f := by
  cases h with
  | unsupported e ht htx hf ha hx =>
    refine ⟨_, ⟨[], 1, ?_, ?_, rfl⟩, ?_, ?_⟩
    · exact fun _ hd => absurd hd List.not_mem_nil
    · exact Nat.le_trans (Nat.add_le_add_left (Nat.zero_le _) _) hfit
    · left
      exact ha
    · exact hf
  | original ht hr hlen hbody hx =>
    have hhdr : restoredHdr f = partitionHdr f partitionTypeOta := by rw [restoredHdr, ht]
    have hsize : decodedSize f = (partitionHdr f partitionTypeOta).imgSizeOrig := by rw [decodedSize, ht]
    refine ⟨_, ⟨_, _, hr.nonempty, ?_, List.take_length.symm⟩, ?_, ?_⟩
    · rw [hlen, ← hsize]
      exact hfit
    · rw [hhdr]
      exact hr.callsFirst p
    · rw [hhdr, finishRestore_flash]
      exact hr.flash
  | broken ht he hr hbody hx =>
    have hhdr : restoredHdr f = (partitionHdr f partitionTypeOta).asOriginal := by rw [restoredHdr, ht]
    have hsize : decodedSize f = (xzRestoredOta f).2.2.2.length := by rw [decodedSize, ht]
    refine ⟨_, ⟨_, _, hr.nonempty, ?_, List.take_length.symm⟩, ?_, ?_⟩
    · rw [hbody, ← hsize]
      exact hfit
    · rw [hhdr]
      left
      exact hr.acts
    · rw [hhdr]
      exact hr.flash
  | decoded ht he hr hbody hx =>
    have hhdr : restoredHdr f = (partitionHdr f partitionTypeOta).asOriginal := by rw [restoredHdr, ht]
    have hsize : decodedSize f = (xzRestoredOta f).2.2.2.length := by rw [decodedSize, ht]
    refine ⟨_, ⟨_, _, hr.nonempty, ?_, List.take_length.symm⟩, ?_, ?_⟩
    · rw [hbody, ← hsize]
      exact hfit
    · rw [hhdr]
      exact hr.callsFirst p
    · rw [hhdr, finishRestore_flash]
      exact hr.flash

theorem Kept.calls {r : Exit × Agent} (h : Kept f r) : CallsFirst r.2.acts [] := by
  cases h with
  | failed e hf ha hx => exact .inl ha
  | started ret hv hf ha hx => exact .inl ha
  | marked hv hf ha hx => exact .inr ha

/-- What a run of the agent does to the flash. -/
theorem agentRun_calls (hfit : imageHdrSize + decodedSize f ≤ app.size) (p : UpgPort) :
    ∃ ops, RestoreBegun f app ops ∧ CallsFirst (agentRun p f).2.acts ops ∧ (agentRun p f).2.flash = applyAll ops f ∧
      (Restores p f ∨ ops = []) := by
  by_cases h : Restores p f
  · obtain ⟨ops, hbegun, hfirst, hflash⟩ := (agentRun_restored h).calls hfit
    exact ⟨ops, hbegun, hfirst, hflash, .inl h⟩
  · have hkept := agentRun_kept h
    have hsize : imageHdrSize ≤ app.size := Nat.le_trans (Nat.le_add_right _ _) hfit
    exact ⟨[], restoreBegun_nil hsize f, hkept.calls, hkept.flash_eq, .inr rfl⟩

namespace Boot

theorem calls_begun (hfit : imageHdrSize + decodedSize f ≤ app.size) (t : Boot) :
    RestoreBegun f app (t.calls f) ∧ (Restores t.port f ∨ t.calls f = []) := by
  obtain ⟨ops, hbegun, hfirst, -, hops⟩ := agentRun_calls hfit t.port
  have htake : ∃ k, t.calls f = ops.take k := by
    unfold calls acts
    cases t.cut with
    | none =>
      use (agentRun t.port f).2.acts.length
      rw [← driverCalls_take hfirst, List.take_length]
    | some k => exact ⟨k, driverCalls_take hfirst k⟩
  obtain ⟨k, hk⟩ := htake
  rw [hk]
  refine ⟨hbegun.take k, ?_⟩
  rcases hops with hr | rfl
  · exact .inl hr
  · exact .inr List.take_nil

/-- A boot that is not cut leaves the flash of the run. -/
theorem left_uncut (hfit : imageHdrSize + decodedSize f ≤ app.size) {t : Boot} (h : t.cut = none) :
    t.left f = (agentRun t.port f).2.flash := by
  obtain ⟨ops, -, hfirst, hflash, -⟩ := agentRun_calls hfit t.port
  have hcalls : t.calls f = ops := by
    have htake := driverCalls_take hfirst (max (agentRun t.port f).2.acts.length ops.length)
    rw [List.take_of_length_le (Nat.le_max_left _ _), List.take_of_length_le (Nat.le_max_right _ _)] at htake
    rw [calls, acts, h]
    exact htake
  rw [left, hcalls, hflash]

end Boot

/-! ### The invariant -/

/-- APP while an image with this header is restored: erased, or with the header in front. -/
def Rewriting (app : PartitionInfo) (hdr : ImageHdr) (g : Flash) : Prop :=
  readBytes g app.startAddr app.size = blank app.size ∨ ∃ rest, readBytes g app.startAddr app.size = hdr ++ rest

theorem RestoreBegun.inApp (hl : Layout f app ota) {ops : List Op} (h : RestoreBegun f app ops) : ∀ o ∈ ops, InApp app o := by
  obtain ⟨ds, j, hne, hfit, rfl⟩ := h
  intro o ho
  exact restoreOps_inApp hl (length_restoredHdr f) hne hfit o (List.mem_of_mem_take ho)

/-- A restore that was begun. -/
theorem RestoreBegun.rewriting (hl : Layout f app ota) {ops : List Op} (h : RestoreBegun f app ops) (hops : ops ≠ []) :
    Rewriting app (restoredHdr f) (applyAll ops f) := by
  obtain ⟨ds, j, hne, hfit, rfl⟩ := h
  match j with
  | 0 => exact absurd rfl hops
  | 1 =>
    left
    have herase : (restoreOps f (restoredHdr f) ds).take 1 = [.erase app.startAddr app.size] := by
      rw [restoreOps, hl.partitionInfo_app]
      rfl
    rw [herase]
    exact readBytes_erase f app.startAddr app.size
  | j + 2 =>
    right
    have hne' : ∀ d ∈ ds.take j, d ≠ [] := fun d hd => hne d (List.mem_of_mem_take hd)
    have hlen : (ds.take j).flatten.length ≤ ds.flatten.length := by
      conv_rhs => rw [← List.take_append_drop j ds, List.flatten_append, List.length_append]
      exact Nat.le_add_right _ _
    rw [take_restoreOps, readBytes_restoreOps hl (length_restoredHdr f) hne' (by omega)]
    exact ⟨_, rfl⟩

/-- What a restore is of does not depend on APP. -/
theorem Layout.preparedFlash_congr (hl : Layout f app ota) (h : SameOutside app g f) (hdr : ImageHdr) :
    preparedFlash g hdr = preparedFlash f hdr := by
  have herase : (Op.erase app.startAddr app.size).apply g = (Op.erase app.startAddr app.size).apply f := by
    funext x
    by_cases hx : app.startAddr ≤ x ∧ x < app.startAddr + app.size
    · rw [erase_inside hx.1 hx.2, erase_inside hx.1 hx.2]
    · rw [erase_outside (by omega), erase_outside (by omega)]
      exact h x (by omega)
  rw [preparedFlash, preparedFlash, (hl.congr h).partitionInfo_app, hl.partitionInfo_app, herase]

section Congr
variable (hl : Layout f app ota) (h : SameOutside app g f) (hsize : imageHdrSize ≤ ota.size)

include hl h hsize

theorem restoredHdr_congr : restoredHdr g = restoredHdr f := by
  rw [restoredHdr, restoredHdr, hl.partitionHdr_ota h hsize]

theorem xzRestoredOta_congr : xzRestoredOta g = xzRestoredOta f := by
  have hg := hl.congr h
  rw [xzRestoredOta, xzRestoredOta, hl.partitionHdr_ota h hsize, hl.preparedFlash_congr h, hg.partitionInfo_app,
    hg.partitionInfo_ota, hl.partitionInfo_app, hl.partitionInfo_ota]

theorem decodedSize_congr : decodedSize g = decodedSize f := by
  rw [decodedSize, decodedSize, hl.partitionHdr_ota h hsize, xzRestoredOta_congr hl h hsize]

end Congr

/-- The flash after some boots: as it was, or with a newer image on its way into APP. -/
inductive Progress (f : Flash) (app : PartitionInfo) : Flash → Prop
  | untouched : Progress f app f
  | rewriting {g : Flash} (hota : Verifies f partitionTypeOta)
      (hver : (partitionHdr f partitionTypeApp).ver < (partitionHdr f partitionTypeOta).ver) (hout : SameOutside app g f)
      (happ : Rewriting app (restoredHdr f) g) : Progress f app g

theorem Progress.sameOutside (h : Progress f app g) : SameOutside app g f := by
  cases h with
  | untouched => exact .refl app f
  | rewriting hota hver hout happ => exact hout

section Runs
variable (hl : Layout f app ota) (hsize : imageHdrSize ≤ ota.size) (hfit : imageHdrSize + decodedSize f ≤ app.size)
  (hv : Verifies f partitionTypeApp)

include hl hsize hfit hv

/-- One boot. -/
theorem Progress.step (h : Progress f app g) (t : Boot) : Progress f app (t.left g) := by
  have hout := h.sameOutside
  have hg := hl.congr hout
  have hfit' : imageHdrSize + decodedSize g ≤ app.size := by
    rw [decodedSize_congr hl hout hsize]
    exact hfit
  obtain ⟨hbegun, hcalls⟩ := t.calls_begun hfit'
  by_cases hnil : t.calls g = []
  · rw [Boot.left, hnil]
    exact h
  · have hout' : SameOutside app (t.left g) f := (sameOutside_applyAll (hbegun.inApp hg) g).trans hout
    have happ := hbegun.rewriting hg hnil
    rw [restoredHdr_congr hl hout hsize] at happ
    cases h with
    | untouched =>
      have hr := hcalls.resolve_right hnil
      exact .rewriting hr.2.1 (hr.2.2 hv) hout' happ
    | rewriting hota hver _ _ => exact .rewriting hota hver hout' happ

/-- Any number of boots. -/
theorem Progress.restarts (h : Progress f app g) (ts : List Boot) : Progress f app (restarts g ts) := by
  induction ts generalizing g with
  | nil => exact h
  | cons t ts ih => exact ih (h.step hl hsize hfit hv t)

end Runs

/-! ### No downgrade -/

/-- The boot `t` from the flash `g` keeps to what is promised for a device that held `f`. -/
structure NoDowngrade (f : Flash) (app ota : PartitionInfo) (g : Flash) (t : Boot) : Prop where
  /-- Only a newer image is restored, and only APP is written. -/
  writes : ∀ o ∈ t.calls g, Verifies g partitionTypeOta ∧
    (partitionHdr f partitionTypeApp).ver < (partitionHdr g partitionTypeOta).ver ∧ InApp app o ∧
    (o.addr + o.len ≤ ota.startAddr ∨ ota.startAddr + ota.size ≤ o.addr)
  /-- OTA holds what it held. -/
  ota_eq : readBytes (t.left g) ota.startAddr ota.size = readBytes f ota.startAddr ota.size
  /-- The old application is started, or one of the new version. -/
  jump : t.cut = none → ∀ addr ret, (agentRun t.port g).1 = .jumped addr ret →
    readBytes (t.left g) app.startAddr app.size = readBytes f app.startAddr app.size ∨
      (partitionHdr (t.left g) partitionTypeApp).ver = (partitionHdr f partitionTypeOta).ver

/-- What is started when a newer image is on its way. -/
theorem Rewriting.ver (hl : Layout g app ota) {hdr : ImageHdr} (hlen : hdr.length = imageHdrSize) (hsize : imageHdrSize ≤ app.size)
    (h : Rewriting app hdr g) (hv : Verifies g partitionTypeApp) : (partitionHdr g partitionTypeApp).ver = hdr.ver := by
  rcases h with hblank | ⟨rest, hrest⟩
  · exact absurd hv (hl.not_verifies_blank hblank hsize)
  · rw [hl.partitionHdr_app hrest hlen]

/-- Whatever the agent reads as upgrade state, whether or not it can write it, and however often
its runs are cut: no downgrade. -/
theorem restarts_noDowngrade (hl : Layout f app ota) (hsize : imageHdrSize ≤ ota.size)
    (hfit : imageHdrSize + decodedSize f ≤ app.size) (hv : Verifies f partitionTypeApp) (ts : List Boot) (t : Boot) :
    NoDowngrade f app ota (restarts f ts) t := by
  have hprog : Progress f app (restarts f ts) := .restarts hl hsize hfit hv .untouched ts
  have hnext := hprog.step hl hsize hfit hv t
  generalize restarts f ts = g at hprog hnext
  have hg := hl.congr hprog.sameOutside
  have hfit' : imageHdrSize + decodedSize g ≤ app.size := by
    rw [decodedSize_congr hl hprog.sameOutside hsize]
    exact hfit
  obtain ⟨hbegun, hcalls⟩ := t.calls_begun hfit'
  constructor
  · intro o ho
    have hin := hbegun.inApp hg o ho
    have hr := hcalls.resolve_right (List.ne_nil_of_mem ho)
    have hapart := hl.apart
    refine ⟨hr.2.1, ?_, hin, ?_⟩
    · rw [hl.partitionHdr_ota hprog.sameOutside hsize]
      cases hprog with
      | untouched => exact hr.2.2 hv
      | rewriting hota hver hout happ => exact hver
    · unfold InApp at hin
      omega
  · apply readBytes_congr
    intro x h0 h1
    have hapart := hl.apart
    exact hnext.sameOutside x (by omega)
  · intro huncut addr ret hjump
    have hverified := (agentRun_verified t.port g addr ret hjump).1
    rw [← t.left_uncut hfit' huncut] at hverified
    have hleft := hl.congr hnext.sameOutside
    generalize t.left g = k at hnext hverified hleft
    cases hnext with
    | untouched => exact .inl rfl
    | rewriting hota hver hout happ =>
      right
      rw [happ.ver hleft (length_restoredHdr f) (by omega) hverified, ver_restoredHdr]

/-- An upgrade that is cut after the erasure, and the boot after it. -/
theorem sampleDevice_noDowngrade :
    NoDowngrade (sampleDevice (blankHdr .original 0 0) (blankHdr .original 1 0)) sampleApp sampleOta
      (restarts (sampleDevice (blankHdr .original 0 0) (blankHdr .original 1 0)) [⟨⟨some upgStateDownloadOk, true⟩, some 1⟩])
      ⟨⟨some upgStateDownloadOk, true⟩, none⟩ := by
  have hl := layout_sampleDevice (blankHdr .original 0 0) (blankHdr .original 1 0)
  obtain ⟨-, hhdr⟩ := @verifies_sampleDevice_ota (blankHdr .original 0 0) .original 1 0
    (by rw [length_blankHdr]; decide) (by decide)
  apply restarts_noDowngrade hl
  · decide
  · have hdecoded : decodedSize (sampleDevice (blankHdr .original 0 0) (blankHdr .original 1 0)) = 0 := by
      rw [decodedSize, hhdr, imageType_blankHdr]
      exact bodySize_blankHdr .original 1 (by decide) .original
    rw [hdecoded]
    decide
  · exact (@verifies_sampleDevice_app _ .original 0 0 (by decide)).1

end Ln882x.Ota
