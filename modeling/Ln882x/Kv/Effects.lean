import Mathlib.Data.Set.Basic
import Ln882x.Nor.Wp
import Ln882x.Kv.Store

/-! What the functions of the store do to the block index. They change it only
through the helpers of `IdxCall`, and each may call them on certain blocks only:
a scope lists the blocks whose entry a function may change, those it may flag
dirty or hanging, and what it may make the workspace. Whatever fails, a function
leaves the index that its helper calls make of the one before. -/

namespace Ln882x.Kv

open Nor

/-! ### Scopes -/

/-- What a program may do to the index. -/
structure Scope where
  entry : Set ℕ
  dirty : Set ℕ
  hanging : Set ℕ
  workspace : Set ℕ

/-- The helper call stays in the scope. -/
def IdxCall.In (S : Scope) : IdxCall → Prop
  | .clear => False
  | .setDirty b => b ∈ S.dirty
  | .setHanging b => b ∈ S.hanging
  | .setWorkspace b => b ∈ S.workspace
  | .freeszSet b _ | .freeszReduce b _ | .setFresh b | .setInuse b | .setBad b | .resetFresh b | .resetInuse b
  | .resetHanging b => b ∈ S.entry

def replay (c : Ctl) (is : List IdxCall) : Ctl := is.foldl IdxCall.run c

/-- The second state comes from the first by helper calls of the scope, all of them recorded. -/
structure Made (S : Scope) (s t : St) : Prop where
  tick : s.tick ≤ t.tick
  calls : ∃ is, t.calls = s.calls ++ is ∧ t.ctl = replay s.ctl is ∧ ∀ i ∈ is, i.In S

/-- From every state the program stays in the scope. -/
def Makes {α : Type} (S : Scope) (x : K α) : Prop := ∀ s, wp x (fun _ t => Made S s t) s

section Rules
variable {S : Scope} {α β : Type} {s t u : St}

theorem Made.refl (s : St) : Made S s s := ⟨le_rfl, [], by simp, rfl, by simp⟩

theorem Made.trans (h₁ : Made S s t) (h₂ : Made S t u) : Made S s u := by
  obtain ⟨ht, is, hc, hr, hi⟩ := h₁
  obtain ⟨ht', js, hc', hr', hj⟩ := h₂
  refine ⟨ht.trans ht', is ++ js, by rw [hc', hc, List.append_assoc], ?_, ?_⟩
  · rw [hr', hr, replay, replay, replay, List.foldl_append]
  · intro i hmem
    rcases List.mem_append.mp hmem with h | h
    · exact hi i h
    · exact hj i h

/-- What every helper call of the scope keeps holds after the program. -/
theorem Made.keeps (h : Made S s t) {I : Ctl → Prop} (hI : ∀ (c : Ctl) (i : IdxCall), i.In S → I c → I (i.run c))
    (hs : I s.ctl) : I t.ctl := by
  obtain ⟨-, is, -, hr, hi⟩ := h
  rw [hr]
  clear hr
  generalize s.ctl = c at hs
  induction is generalizing c with
  | nil => exact hs
  | cons i is ih => exact ih (fun j hj => hi j (List.mem_cons_of_mem i hj)) _ (hI c i (hi i List.mem_cons_self) hs)

theorem Makes.pure (a : α) : Makes S (Pure.pure a) := fun s => .refl s

theorem Makes.bind {x : K α} {k : α → K β} (hx : Makes S x) (hk : ∀ a, Makes S (k a)) : Makes S (x >>= k) := by
  intro s
  exact (hx s).bind fun a t ht => (hk a t).mono fun b u hu => ht.trans hu

theorem Makes.idx {i : IdxCall} (hi : i.In S) : Makes S (Kv.idx i) := by
  intro s
  refine ⟨le_rfl, [i], rfl, rfl, ?_⟩
  intro j hj
  rw [List.mem_singleton.mp hj]
  exact hi

theorem Makes.idx_bind {i : IdxCall} {k : Unit → K α} (hi : i.In S) (hk : Makes S (k ())) : Makes S (Kv.idx i >>= k) :=
  (Makes.idx hi).bind fun _ => hk

theorem wp_getCtl {k : Ctl → K α} {R : α → St → Prop} (h : wp (k s.ctl) R s) : wp (getCtl >>= k) R s := h

/-- A helper call goes to one state. -/
theorem wp_idx_bind {i : IdxCall} {k : Unit → K α} {R : α → St → Prop}
    (h : wp (k ()) R { s with ctl := i.run s.ctl, calls := s.calls ++ [i] }) : wp (Kv.idx i >>= k) R s := h

theorem Makes.ite {c : Prop} [Decidable c] {x y : K α} (hx : c → Makes S x) (hy : ¬c → Makes S y) :
    Makes S (if c then x else y) := by
  split_ifs with h
  · exact hx h
  · exact hy h

end Rules

/-! ### Driver calls, blocks and items -/

variable {G : Geo} {E : Env} {S : Scope}

theorem makes_lnKvMalloc (ph : Phase) : Makes S (lnKvMalloc E ph) :=
  fun _ => ⟨Nat.le_succ _, [], by simp [lnKvMalloc], rfl, by simp⟩

theorem makes_getCtl : Makes S getCtl := fun s => .refl s

theorem makes_kvFlashRead (addr len : ℕ) : Makes S (kvFlashRead E addr len) := by
  intro s
  have h : (kvFlashRead E addr len s).2 = { s with tick := s.tick + 1 } := by
    unfold kvFlashRead
    split <;> rfl
  rw [wp_iff, h]
  exact ⟨Nat.le_succ _, [], by simp, rfl, by simp⟩

/-- A driver call leaves the index as it is and counts. -/
theorem kvFlashOp_ctl (o : Op) (s : St) : (kvFlashOp E o s).2.ctl = s.ctl ∧ (kvFlashOp E o s).2.calls = s.calls ∧
    (kvFlashOp E o s).2.tick = s.tick + 1 := by
  unfold kvFlashOp
  split <;> exact ⟨rfl, rfl, rfl⟩

theorem makes_kvFlashOp (o : Op) : Makes S (kvFlashOp E o) := by
  intro s
  obtain ⟨hctl, hcalls, htick⟩ := kvFlashOp_ctl (E := E) o s
  exact ⟨by omega, [], by rw [hcalls, List.append_nil], hctl, by simp⟩

theorem makes_kvFlashWrite (addr : ℕ) (buf : Bytes) : Makes S (kvFlashWrite E addr buf) :=
  (makes_kvFlashOp _).bind fun _ => .ite (fun _ => .pure _) fun _ => .pure _

theorem makes_kvFlashErase (addr len : ℕ) : Makes S (kvFlashErase E addr len) :=
  (makes_kvFlashOp _).bind fun _ => .ite (fun _ => .pure _) fun _ => .pure _

theorem makes_kvBlkHdrRead (blk : ℕ) : Makes S (kvBlkHdrRead E blk) := by
  refine (makes_kvFlashRead _ _).bind fun r => ?_
  cases r <;> exact .pure _

theorem makes_kvBlkFormat {blk : ℕ} (hb : blk ∈ S.entry) : Makes S (kvBlkFormat E blk) := by
  refine (makes_kvFlashErase _ _).bind fun _ => .ite (fun _ => .pure _) fun _ => ?_
  exact (makes_kvFlashWrite _ _).bind fun _ => .ite (fun _ => .pure _) fun _ => .idx_bind hb (.pure _)

theorem makes_kvItemHdrRead (a : ℕ) : Makes S (kvItemHdrRead E a) := by
  refine (makes_kvFlashRead _ _).bind fun r => ?_
  cases r <;> exact .pure _

theorem makes_kvItemWrite (a : ℕ) (hdr : ItemHdr) (body : Bytes) : Makes S (kvItemWrite E a hdr body) := by
  have hh : Makes S (kvItemHdrWrite E a hdr) :=
    (makes_kvFlashWrite _ _).bind fun _ => .ite (fun _ => .pure _) fun _ => makes_kvFlashWrite _ _
  exact hh.bind fun _ => .ite (fun _ => .pure _) fun _ => makes_kvFlashWrite _ _

theorem makes_kvItemBodyRead (ph : Phase) (item : KvItem) : Makes S (kvItemBodyRead E ph item) :=
  (makes_lnKvMalloc _).bind fun _ => .ite (fun _ => makes_kvFlashRead _ _) fun _ => .pure _

theorem makes_kvItemDeleteAux {a : ℕ} (ha : G.itemAddr2Blk a ∈ S.dirty) : Makes S (kvItemDeleteAux G E a) := by
  refine (makes_kvFlashWrite _ _).bind fun _ => .ite (fun _ => .pure _) fun _ => ?_
  exact .idx_bind ha (.pure _)

theorem makes_kvItemTryDelete (item : KvItem) (ha : G.itemAddr2Blk item.hdr.prevPos ∈ S.dirty) :
    Makes S (kvItemTryDelete G E item) := by
  refine (makes_kvItemHdrRead _).bind fun r => ?_
  cases r with
  | error e => exact .pure _
  | ok hdr =>
    refine .ite (fun _ => .pure _) fun _ => .ite (fun _ => .pure _) fun _ => ?_
    refine (makes_lnKvMalloc _).bind fun _ => .ite (fun _ => .pure _) fun _ => ?_
    refine (makes_kvFlashRead _ _).bind fun r => ?_
    cases r with
    | error e => exact .pure _
    | ok key => exact .ite (fun _ => .pure _) fun _ => makes_kvItemDeleteAux ha

theorem makes_kvItemIsMoved (item : KvItem) : Makes S (kvItemIsMoved E item) := by
  refine (makes_kvItemHdrRead _).bind fun r => ?_
  cases r with
  | error e => exact .pure _
  | ok hdr =>
    refine .ite (fun _ => .pure _) fun _ => (makes_kvItemBodyRead _ _).bind fun r => ?_
    cases r <;> exact .pure _

/-! ### Walks and searches -/

theorem makes_kvItemDoGc {blkDst : ℕ} (hb : blkDst ∈ S.entry) (item : KvItem) : Makes S (kvItemDoGc E blkDst item) := by
  refine (makes_kvItemBodyRead _ _).bind fun r => ?_
  cases r with
  | error e => exact .pure _
  | ok body =>
    refine makes_getCtl.bind fun c => (makes_kvItemWrite _ _ _).bind fun _ => .ite (fun _ => .pure _) fun _ => ?_
    exact .idx_bind hb (.pure _)

theorem makes_kvItemDoFetchNewCopy (dstItem item : KvItem) : Makes S (kvItemDoFetchNewCopy E dstItem item) := by
  refine .ite (fun _ => .pure _) fun _ => (makes_kvItemBodyRead _ _).bind fun r => ?_
  cases r with
  | error e => exact .pure _
  | ok body => exact .ite (fun _ => .pure _) fun _ => .pure _

theorem makes_kvItemDoFetch (key : Bytes) (item : KvItem) : Makes S (kvItemDoFetch E key item) := by
  refine .ite (fun _ => .pure _) fun _ => (makes_kvItemBodyRead _ _).bind fun r => ?_
  cases r with
  | error e => exact .pure _
  | ok body => exact .ite (fun _ => .pure _) fun _ => .pure _

theorem makes_kvItemDoRecovery (hd : S.dirty = Set.univ) (item : KvItem) : Makes S (kvItemDoRecovery G E item) := by
  have hin : ∀ a, a ∈ S.dirty := fun a => hd ▸ Set.mem_univ a
  refine (makes_kvItemBodyRead _ _).bind fun r => ?_
  cases r with
  | error e => exact .pure _
  | ok body =>
    have hend : ∀ (i : KvItem) (e : KvErr),
        Makes S (if e ≠ .none then pure (e, i) else pure (.nextLoop, i) : K (KvErr × KvItem)) :=
      fun _ _ => .ite (fun _ => .pure _) fun _ => .pure _
    refine .ite (fun _ => (makes_kvItemDeleteAux (hin _)).bind (hend _)) fun _ => .ite (fun _ => ?_) fun _ =>
      (Makes.pure _).bind (hend _)
    exact (makes_kvItemTryDelete _ (hin _)).bind (hend _)

section Walk
variable {ph : Phase} {blk : ℕ} {walker : Walker}

/-- A round first allocates; what follows stays in the scope. -/
theorem kvItemWalkRound_malloc (hd : blk ∈ S.dirty) (hw : ∀ item, Makes S (walker item)) (cur : ℕ) :
    ∃ rest, kvItemWalkRound G E ph blk walker cur = lnKvMalloc E ph >>= rest ∧ ∀ ok, Makes S (rest ok) := by
  refine ⟨_, rfl, fun ok => .ite (fun _ => .pure _) fun _ => (makes_kvItemHdrRead _).bind fun r => ?_⟩
  cases r with
  | error e => exact .pure _
  | ok hdr =>
    refine .ite (fun _ => .pure _) fun _ => .ite (fun _ => ?_) fun _ =>
      .ite (fun _ => .idx_bind hd (.pure _)) fun _ => ?_
    · exact (makes_kvFlashWrite _ _).bind fun _ => .ite (fun _ => .idx_bind hd (.pure _)) fun _ => .pure _
    · exact (hw _).bind fun _ => .ite (fun _ => .pure _) fun _ => .ite (fun _ => .pure _) fun _ => .pure _

theorem makes_kvItemWalkRound (hd : blk ∈ S.dirty) (hw : ∀ item, Makes S (walker item)) (cur : ℕ) :
    Makes S (kvItemWalkRound G E ph blk walker cur) := by
  obtain ⟨rest, heq, hrest⟩ := @kvItemWalkRound_malloc G E _ ph _ _ hd hw cur
  rw [heq]
  exact (makes_lnKvMalloc ph).bind hrest

theorem makes_kvItemWalkLoop (hd : blk ∈ S.dirty) (hw : ∀ item, Makes S (walker item)) (n cur : ℕ) :
    Makes S (kvItemWalkLoop G E ph blk walker n cur) := by
  induction n generalizing cur with
  | zero => exact .pure _
  | succ n ih =>
    refine (makes_kvItemWalkRound hd hw cur).bind fun r => ?_
    cases r with
    | ret e i => exact .pure _
    | brk => exact .pure _
    | next cur => exact .ite (fun _ => ih cur) fun _ => .pure _

theorem makes_kvItemWalkIndex (hb : blk ∈ S.entry) (cur : ℕ) : Makes S (kvItemWalkIndex blk cur) := by
  unfold kvItemWalkIndex
  refine .ite (fun _ => .idx hb) fun _ => .ite (fun _ => ?_) fun _ => ?_
  · exact .idx_bind hb (.idx hb)
  · exact .idx_bind hb (.idx hb)

theorem makes_kvItemWalkthru (hb : blk ∈ S.entry) (hd : blk ∈ S.dirty) (hw : ∀ item, Makes S (walker item)) :
    Makes S (kvItemWalkthru G E ph blk walker) := by
  refine (makes_kvItemWalkLoop hd hw _ _).bind fun r => ?_
  cases r with
  | inl r => exact .pure _
  | inr cur => exact (makes_kvItemWalkIndex hb cur).bind fun _ => .pure _

end Walk

theorem makes_kvItemSearch {f : ℕ → K (Option KvItem)} {bs : List ℕ} (hf : ∀ b ∈ bs, Makes S (f b)) :
    Makes S (kvItemSearch f bs) := by
  induction bs with
  | nil => exact .pure _
  | cons b bs ih =>
    have hrest := ih fun b' hb' => hf b' (List.mem_cons_of_mem b hb')
    refine makes_getCtl.bind fun c => .ite (fun _ => hrest) fun _ => (hf b List.mem_cons_self).bind fun r => ?_
    cases r with
    | none => exact hrest
    | some item => exact .pure _

/-- A scope that lets every block of the area change and be flagged dirty. -/
structure Scope.Whole (S : Scope) (G : Geo) : Prop where
  entry : ∀ b ∈ G.blks, b ∈ S.entry
  dirty : S.dirty = Set.univ

theorem Scope.Whole.mem_dirty (h : S.Whole G) (b : ℕ) : b ∈ S.dirty := h.dirty ▸ Set.mem_univ b

theorem makes_kvItemFind (hS : S.Whole G) (key : Bytes) : Makes S (kvItemFind G E key) := by
  refine makes_kvItemSearch fun b hb => ?_
  refine (makes_kvItemWalkthru (hS.entry b hb) (hS.mem_dirty b) (makes_kvItemDoFetch key)).bind fun r => ?_
  split <;> exact .pure _

theorem makes_kvItemFix (hS : S.Whole G) (item : KvItem) : Makes S (kvItemFix G E item) := by
  have hfind : Makes S (kvItemFindNewCopy G E item) := by
    refine makes_kvItemSearch fun b hb => ?_
    refine (makes_kvItemWalkthru (hS.entry b hb) (hS.mem_dirty b) (makes_kvItemDoFetchNewCopy item)).bind fun r => ?_
    split <;> exact .pure _
  refine hfind.bind fun r => ?_
  cases r <;> exact .pure _

/-! ### Collection -/

/-- What `kv_do_gc` does after the source is formatted or given up. -/
theorem makes_kvDoGcFinish_rest {dst : ℕ} (ht : dst ∈ S.entry) : Makes S (do
    let err ← kvBlkMarkGcDone E dst
    if err ≠ .none then return err
    idx (.resetFresh dst)
    let c ← getCtl
    if !kvBlkIsFull dst c then idx (.setInuse dst)
    return .none : K KvErr) := by
  refine (makes_kvFlashWrite _ _).bind fun _ => .ite (fun _ => .pure _) fun _ => .idx_bind ht ?_
  exact makes_getCtl.bind fun _ => .ite (fun _ => .idx_bind ht (.pure _)) fun _ => .pure _

theorem makes_kvDoGcFinish {src dst : ℕ} (hs : src ∈ S.entry) (ht : dst ∈ S.entry) : Makes S (kvDoGcFinish E src dst) := by
  unfold kvDoGcFinish
  refine .idx_bind hs <| (makes_kvBlkFormat hs).bind fun _ => .ite (fun _ => .idx_bind hs ?_) fun _ => ?_
  · exact makes_kvDoGcFinish_rest ht
  · exact makes_kvDoGcFinish_rest ht

theorem makes_kvDoGc {src dst : ℕ} (hs : src ∈ S.entry) (hd : src ∈ S.dirty) (ht : dst ∈ S.entry) (h : Bool) :
    Makes S (kvDoGc G E src dst h) := by
  have hcopy : Makes S (kvDoGcCopy G E src dst) :=
    (makes_kvFlashWrite _ _).bind fun _ => .ite (fun _ => .pure _) fun _ =>
      (makes_kvItemWalkthru hs hd (makes_kvItemDoGc ht)).bind fun _ => .ite (fun _ => .pure _) fun _ =>
        makes_kvDoGcFinish hs ht
  exact .ite (fun _ => hcopy) fun _ => (makes_kvFlashWrite _ _).bind fun _ => .ite (fun _ => .pure _) fun _ => hcopy

theorem makes_kvMgrIndexBuild (hS : S.Whole G) {blk : ℕ} (hb : blk ∈ G.blks) : Makes S (kvMgrIndexBuild G E blk) :=
  (makes_kvItemWalkthru (hS.entry blk hb) (hS.mem_dirty blk) (makes_kvItemDoRecovery hS.dirty)).bind fun _ => .pure _

theorem makes_kvMgrBlkIndexRebuild (hS : S.Whole G) : Makes S (kvMgrBlkIndexRebuild G E) := by
  have h : ∀ (bs : List ℕ) (d : Bool), (∀ b ∈ bs, b ∈ G.blks) → Makes S (kvMgrBlkIndexRebuildFrom G E d bs) := by
    intro bs
    induction bs with
    | nil => exact fun _ _ => .pure _
    | cons b bs ih =>
      intro d hbs
      have hb := hbs b List.mem_cons_self
      have hrest := fun d => ih d fun b' hb' => hbs b' (List.mem_cons_of_mem b hb')
      refine makes_getCtl.bind fun c => .ite (fun _ => ?_) fun _ => hrest _
      exact (makes_kvMgrIndexBuild hS hb).bind fun _ =>
        .ite (fun _ => .idx_bind (hS.entry b hb) (hrest _)) fun _ => hrest _
  exact h _ _ fun _ hb => hb

theorem makes_kvGcFirst {dst : ℕ} (ht : dst ∈ S.entry) {bs : List ℕ} (hbs : ∀ b ∈ bs, b ∈ S.entry ∧ b ∈ S.dirty) :
    Makes S (kvGcFirst G E dst bs) := by
  induction bs with
  | nil => exact .pure _
  | cons b bs ih =>
    obtain ⟨hb, hd⟩ := hbs b List.mem_cons_self
    have hrest := ih fun b' hb' => hbs b' (List.mem_cons_of_mem b hb')
    refine makes_getCtl.bind fun c => .ite (fun _ => ?_) fun _ => hrest
    exact (makes_kvDoGc hb hd ht _).bind fun _ => .ite (fun _ => .pure _) fun _ => hrest

theorem Scope.Whole.gcFirst (hS : S.Whole G) {dst : ℕ} (ht : dst ∈ S.entry) : Makes S (kvGcFirst G E dst G.blks) :=
  makes_kvGcFirst ht fun b hb => ⟨hS.entry b hb, hS.mem_dirty b⟩

theorem kvBlkGetAFresh_mem {c : Ctl} (h : kvBlkGetAFresh G c ≠ kvBlkInvalid) : kvBlkGetAFresh G c ∈ G.blks := by
  unfold kvBlkGetAFresh at h ⊢
  cases hf : G.blks.find? (kvBlkIsFresh · c) with
  | none => exact absurd (by rw [hf]; rfl) h
  | some b => exact List.mem_of_find?_eq_some hf

theorem makes_kvTryGc (hS : S.Whole G) : Makes S (kvTryGc G E) :=
  makes_getCtl.bind fun _ => .ite (fun _ => .pure _) fun h =>
    (hS.gcFirst (hS.entry _ (kvBlkGetAFresh_mem h))).bind fun _ => .ite (fun _ => .pure _) fun _ => .pure _

/-! ### Saving -/

theorem makes_kvItemSaveAt {blk : ℕ} (hb : blk ∈ S.entry) (k v : Bytes) (prevPos : ℕ) :
    Makes S (kvItemSaveAt E k v blk prevPos) := by
  have hsave : ∀ a, Makes S (kvItemDoSave E a k v prevPos) := fun a =>
    (makes_lnKvMalloc _).bind fun _ => .ite (fun _ => .pure _) fun _ => makes_kvItemWrite _ _ _
  have hset : ∀ i : IdxCall, i.In S → Makes S (do idx i; return .none : K KvErr) :=
    fun i hi => .idx_bind hi (.pure _)
  refine makes_getCtl.bind fun c => (hsave _).bind fun _ => .ite (fun _ => .pure _) fun _ => .idx_bind hb <|
    makes_getCtl.bind fun _ => .ite (fun _ => .idx_bind hb ?_) fun _ => .ite (fun _ => hset _ hb) fun _ => .pure _
  exact makes_getCtl.bind fun _ => .ite (fun _ => hset _ hb) fun _ => .pure _

/-! ### Start-up -/

/-- The blocks a header scan collects belong to the area. -/
structure BuildScan.In (scan : BuildScan) (G : Geo) : Prop where
  fresh : scan.freshBlk ≠ kvBlkInvalid → scan.freshBlk ∈ G.blks
  src : ∀ b ∈ scan.gcSrc, b ∈ G.blks
  dst : ∀ b ∈ scan.gcDstNotDone, b ∈ G.blks

theorem BuildScan.In.fresh_set {scan : BuildScan} (h : scan.In G) {b : ℕ} (hb : b ∈ G.blks) :
    ({ scan with freshBlk := b } : BuildScan).In G := ⟨fun _ => hb, h.src, h.dst⟩

theorem BuildScan.In.src_add {scan : BuildScan} (h : scan.In G) {b : ℕ} (hb : b ∈ G.blks) :
    ({ scan with gcSrc := scan.gcSrc ++ [b] } : BuildScan).In G := by
  refine ⟨h.fresh, ?_, h.dst⟩
  intro c hc
  rcases List.mem_append.mp hc with hc | hc
  · exact h.src c hc
  · rw [List.mem_singleton.mp hc]
    exact hb

theorem BuildScan.In.dst_add {scan : BuildScan} (h : scan.In G) {b : ℕ} (hb : b ∈ G.blks) :
    ({ scan with gcDstNotDone := scan.gcDstNotDone ++ [b] } : BuildScan).In G := by
  refine ⟨h.fresh, h.src, ?_⟩
  intro c hc
  rcases List.mem_append.mp hc with hc | hc
  · exact h.dst c hc
  · rw [List.mem_singleton.mp hc]
    exact hb

/-- The scan stays in the area, and so do the blocks it collects. -/
theorem made_kvMgrCtlScan (hS : S.Whole G) (hh : ∀ b ∈ G.blks, b ∈ S.hanging) {scan : BuildScan} (hscan : scan.In G)
    {bs : List ℕ} (hbs : ∀ b ∈ bs, b ∈ G.blks) (s : St) :
    wp (kvMgrCtlScan G E scan bs) (fun r t => r.In G ∧ Made S s t) s := by
  induction bs generalizing scan s with
  | nil => exact ⟨hscan, .refl s⟩
  | cons b bs ih =>
    have hb := hbs b List.mem_cons_self
    have hrest : ∀ {scan' : BuildScan}, scan'.In G → ∀ {t : St}, Made S s t →
        wp (kvMgrCtlScan G E scan' bs) (fun r u => r.In G ∧ Made S s u) t := fun hscan' t ht =>
      (ih hscan' (fun b' hb' => hbs b' (List.mem_cons_of_mem b hb')) t).mono fun r u ⟨hr, hu⟩ => ⟨hr, ht.trans hu⟩
    have hset : ∀ i : IdxCall, i.In S → ∀ {t : St}, Made S s t →
        wp (do idx i; kvMgrCtlScan G E scan bs) (fun r u => r.In G ∧ Made S s u) t := fun i hi t ht =>
      (Makes.idx hi t).bind fun _ u hu => hrest hscan (ht.trans hu)
    refine (makes_kvBlkHdrRead (S := S) b s).bind fun r t ht => ?_
    cases r with
    | error e => exact hset (.setBad b) (hS.entry b hb) ht
    | ok hdr =>
      refine wp.ite (fun _ => ?_) fun _ => wp.ite (fun _ => hrest (hscan.src_add hb) ht) fun _ =>
        wp.ite (fun _ => hrest (hscan.dst_add hb) ht) fun _ => ?_
      · refine (makes_kvBlkFormat (hS.entry b hb) t).bind fun r u hu => ?_
        exact wp.ite (fun _ => hset (.setBad b) (hS.entry b hb) (ht.trans hu)) fun _ => hrest (hscan.fresh_set hb) (ht.trans hu)
      · refine (makes_kvMgrIndexBuild hS hb t).bind fun r u hu => ?_
        refine wp.ite (fun _ => hset (.setHanging b) (hh b hb) (ht.trans hu)) fun _ => ?_
        exact wp.ite (fun _ => hrest (hscan.fresh_set hb) (ht.trans hu)) fun _ => hrest hscan (ht.trans hu)

theorem makes_kvHandleIncompleteGc (hS : S.Whole G) {scan : BuildScan} (hscan : scan.In G) :
    Makes S (kvHandleIncompleteGc G E scan) := by
  refine .ite (fun _ => .pure _) fun _ => ?_
  split
  next => exact .pure _
  next src rest hsrc =>
    have hs : src ∈ G.blks := hscan.src src (by rw [hsrc]; exact List.mem_cons_self)
    split
    next =>
      refine .ite (fun _ => .pure _) fun hne => ?_
      exact makes_kvDoGc (hS.entry src hs) (hS.mem_dirty src) (hS.entry _ (hscan.fresh hne)) _
    next dst rest' hdst =>
      have hd : dst ∈ G.blks := hscan.dst dst (by rw [hdst]; exact List.mem_cons_self)
      exact (makes_kvBlkFormat (hS.entry dst hd)).bind fun _ =>
        .ite (fun _ => .idx_bind (hS.entry dst hd) (.pure _)) fun _ =>
          makes_kvDoGc (hS.entry src hs) (hS.mem_dirty src) (hS.entry dst hd) _

theorem makes_kvMgrCtlBuild (hS : S.Whole G) (hh : ∀ b ∈ G.blks, b ∈ S.hanging) : Makes S (kvMgrCtlBuild G E) := by
  intro s
  have hnone : BuildScan.In ⟨kvBlkInvalid, [], []⟩ G := ⟨fun h => absurd rfl h, by simp, by simp⟩
  refine (made_kvMgrCtlScan hS hh hnone (fun _ hb => hb) s).bind fun scan t ⟨hscan, ht⟩ => ?_
  exact (makes_kvHandleIncompleteGc hS hscan t).mono fun _ u hu => ht.trans hu

/-! ### Public calls -/

/-- Everything but clearing the index. -/
def Scope.full : Scope := ⟨Set.univ, Set.univ, Set.univ, Set.univ⟩

theorem Scope.Whole.full (G : Geo) : Scope.full.Whole G := ⟨fun b _ => Set.mem_univ b, rfl⟩

theorem makes_kvGc : Makes .full (kvGc G E) := by
  have hrest : ∀ r : Bool, Makes .full (do
      let c ← getCtl
      let blkDst := kvBlkNextFresh G c
      if blkDst = kvBlkInvalid then return .gcNothing
      let isGcDone ← kvGcFirst G E blkDst G.blks
      if isGcDone then idx (.setWorkspace blkDst)
      if isGcDone || r then return .none else return .gcNothing : K KvErr) := by
    intro r
    refine makes_getCtl.bind fun c => .ite (fun _ => .pure _) fun _ => ?_
    refine ((Scope.Whole.full G).gcFirst (Set.mem_univ _)).bind fun d => .ite (fun _ => ?_) fun _ => ?_
    · exact .idx_bind (Set.mem_univ _) (.ite (fun _ => .pure _) fun _ => .pure _)
    · exact .ite (fun _ => .pure _) fun _ => .pure _
  exact makes_getCtl.bind fun _ => .ite (fun _ => (makes_kvMgrBlkIndexRebuild (.full G)).bind hrest) fun _ =>
    (Makes.pure _).bind hrest

theorem makes_kvBlkSearchLoop (itemSize n : ℕ) : Makes .full (kvBlkSearchLoop G E itemSize n) := by
  induction n with
  | zero => exact .pure _
  | succ n ih =>
    have hgive : ∀ b : ℕ, Makes .full (do idx (.setWorkspace b); return b : K ℕ) :=
      fun b => .idx_bind (Set.mem_univ b) (.pure _)
    refine makes_getCtl.bind fun c => .ite (fun _ => .pure _) fun _ => .ite (fun _ => hgive _) fun _ => ?_
    refine .ite (fun _ => .pure _) fun _ => .ite (fun _ => hgive _) fun _ => ?_
    exact makes_kvGc.bind fun _ => .ite (fun _ => makes_getCtl.bind fun _ => hgive _) fun _ => ih

theorem makes_kvBlkSearchSuitable (itemSize : ℕ) : Makes .full (kvBlkSearchSuitable G E itemSize) :=
  makes_getCtl.bind fun _ => .ite (fun _ => .pure _) fun _ => .ite (fun _ => .pure _) fun _ =>
    makes_kvBlkSearchLoop _ _

theorem makes_kvItemSave (k v : Bytes) (prev : Option KvItem) : Makes .full (kvItemSave G E k v prev) := by
  have hat : ∀ (b p : ℕ) (r : Option KvItem),
      Makes .full (do return (← kvItemSaveAt E k v b p, r) : K (KvErr × Option KvItem)) :=
    fun b p r => (makes_kvItemSaveAt (Set.mem_univ b) _ _ _).bind fun _ => .pure _
  refine (makes_kvBlkSearchSuitable _).bind fun b => .ite (fun _ => .pure _) fun _ => ?_
  cases prev with
  | none => exact hat _ _ _
  | some item =>
    refine (makes_kvItemIsMoved _).bind fun _ => .ite (fun _ => ?_) fun _ => hat _ _ _
    refine (makes_kvItemFix (.full G) _).bind fun r => ?_
    cases r with
    | error e => exact .pure _
    | ok item => exact hat _ _ _

theorem makes_lnKvSet (key value : Bytes) : Makes .full (lnKvSet G E key value) := by
  refine .ite (fun _ => .pure _) fun _ => (makes_kvItemFind (.full G) _).bind fun r => ?_
  cases r with
  | none => exact (makes_kvItemSave _ _ _).bind fun _ => .pure _
  | some item =>
    refine .ite (fun _ => .pure _) fun _ => (makes_kvItemSave _ _ _).bind fun r => ?_
    split
    · exact makes_kvItemDeleteAux (Set.mem_univ _)
    · exact .pure _

/-- The search by which `kv_mgr_workspace_locate` chooses a block. -/
def located (G : Geo) (c : Ctl) : Option ℕ :=
  G.blks.find? fun blk => if c.numInuse = 0 then kvBlkIsFresh blk c else kvBlkIsInuse blk c

/-- The end of `kv_mgr_workspace_locate`: the workspace is set to the block that is found. -/
def workspaceChoose (G : Geo) : K KvErr := do
  let c ← getCtl
  if kvNoWriteableBlk c then return .noWriteableBlk
  match located G c with
  | some blk =>
    idx (.setWorkspace blk)
    return .none
  | none => return .none

/-- The workspace is located in the index that the rebuild and the collection leave. -/
theorem made_kvMgrWorkspaceLocate (hS : S.Whole G) (s : St) {Q : KvErr → St → Prop}
    (hno : ∀ t, Made S s t → kvNoWriteableBlk t.ctl = true → Q .noWriteableBlk t)
    (hnone : ∀ t, Made S s t → kvNoWriteableBlk t.ctl = false → located G t.ctl = none → Q .none t)
    (hsome : ∀ t b, Made S s t → kvNoWriteableBlk t.ctl = false → located G t.ctl = some b →
      Q .none { t with ctl := { t.ctl with workspace := b }, calls := t.calls ++ [.setWorkspace b] }) :
    wp (kvMgrWorkspaceLocate G E) Q s := by
  have hlast : ∀ t, Made S s t → wp (workspaceChoose G) Q t := by
    intro t ht
    apply wp_getCtl
    refine wp.ite (fun h => hno t ht h) fun h => ?_
    rw [Bool.not_eq_true] at h
    split
    next b hb => exact hsome t b ht h hb
    next hb => exact hnone t ht h hb
  have hmid : ∀ t, Made S s t → wp (do
      let c ← getCtl
      if c.numInuse = 0 ∧ c.numFresh = 1 then discard (kvTryGc G E)
      workspaceChoose G : K KvErr) Q t := by
    intro t ht
    apply wp_getCtl
    refine wp.ite (fun _ => ?_) fun _ => hlast t ht
    exact (makes_kvTryGc hS t).discard.bind fun _ u hu => hlast u (ht.trans hu)
  apply wp_getCtl
  refine wp.ite (fun _ => ?_) fun _ => hmid s (.refl s)
  exact (makes_kvMgrBlkIndexRebuild hS s).discard.bind fun _ u hu => hmid u hu

theorem makes_kvMgrWorkspaceLocate : Makes .full (kvMgrWorkspaceLocate G E) := by
  intro s
  refine made_kvMgrWorkspaceLocate (.full G) s (fun t ht _ => ht) (fun t ht _ _ => ht) fun t b ht _ _ => ?_
  have hset : Makes Scope.full (idx (.setWorkspace b)) := .idx (Set.mem_univ b)
  exact ht.trans (hset t)

section Lookup
variable (hS : S.Whole G)
include hS

theorem makes_lnKvGet (key : Bytes) (n : ℕ) : Makes S (lnKvGet G E key n) := by
  refine .ite (fun _ => .pure _) fun _ => (makes_kvItemFind hS _).bind fun r => ?_
  cases r with
  | none => exact .pure _
  | some item => exact .ite (fun _ => .pure _) fun _ => .pure _

theorem makes_lnKvHasKey (key : Bytes) : Makes S (lnKvHasKey G E key) :=
  .ite (fun _ => .pure _) fun _ => (makes_kvItemFind hS _).bind fun _ => .pure _

theorem makes_lnKvDel (key : Bytes) : Makes S (lnKvDel G E key) := by
  refine .ite (fun _ => .pure _) fun _ => (makes_kvItemFind hS _).bind fun r => ?_
  cases r with
  | none => exact .pure _
  | some item => exact makes_kvItemDeleteAux (hS.mem_dirty _)

end Lookup

/-- A start-up leaves the index that its helper calls make of the cleared one. -/
theorem wp_lnKvInit_made (hS : S.Whole G) (hh : ∀ b ∈ G.blks, b ∈ S.hanging) (s : St) {Q : KvErr → St → Prop}
    (hfail : ∀ t r, r ≠ .none → Made S { s with ctl := .zero, calls := s.calls ++ [.clear] } t → Q r t)
    (hlocate : ∀ t, Made S { s with ctl := .zero, calls := s.calls ++ [.clear] } t → wp (kvMgrWorkspaceLocate G E) Q t) :
    wp (lnKvInit G E) Q s := by
  unfold lnKvInit
  apply wp_idx_bind
  rw [IdxCall.run]
  generalize { s with ctl := Ctl.zero, calls := s.calls ++ [IdxCall.clear] } = u at hfail hlocate
  refine (makes_lnKvMalloc (S := S) (E := E) .ctl u).bind fun r t ht => wp.ite (fun _ => ?_) fun _ => ?_
  · exact hfail t _ (nomatch ·) ht
  · refine (makes_kvMgrCtlBuild hS hh t).bind fun err v hv => wp.ite (fun herr => ?_) fun _ => ?_
    · exact hfail v err herr (ht.trans hv)
    · exact hlocate v (ht.trans hv)

end Ln882x.Kv
