import Ln882x.Nor.Loop
import Ln882x.Kv.Space

/-! Where the loops of the store end. A walk moves on by a header in every round.
A ring loop ends when the workspace it starts from is a block of the area. The
loop of `kv_blk_search_suitable` comes round only after a collection, which uses
up a dirty block, or after a rebuild, which uses up a hanging one; a rebuild that
fails may flag blocks dirty again, so it must not fail for ever. -/

namespace Ln882x.Kv

open Nor

variable {G : Geo} {E : Env} {s t : St}

/-! ### Ring loops -/

/-- One test of `KV_BLK_FOR_EACH_FROM`. -/
def Geo.ringStep (G : Geo) (p : ℕ → Bool) (origin cur : ℕ) : ℕ ⊕ ℕ :=
  if cur = origin then .inr kvBlkInvalid else if p cur then .inr cur else .inl (G.next cur)

theorem Geo.ringSearch_eq (p : ℕ → Bool) (origin n cur : ℕ) :
    G.ringSearch p origin n cur = (rounds (G.ringStep p origin) n cur).elim (fun _ => kvBlkInvalid) id := by
  induction n generalizing cur with
  | zero => rfl
  | succ n ih =>
    unfold Geo.ringSearch
    split_ifs with h hp
    · rw [rounds_inr (show G.ringStep p origin cur = _ from if_pos h)]
      rfl
    · rw [rounds_inr (show G.ringStep p origin cur = .inr cur by rw [Geo.ringStep, if_neg h, if_pos hp])]
      rfl
    · rw [rounds_inl (show G.ringStep p origin cur = .inl (G.next cur) by rw [Geo.ringStep, if_neg h, if_neg hp]), ih]

/-- A ring loop that starts from a block of the area goes round once at most. -/
theorem Geo.ring_ends {o : ℕ} (ho : o ∈ G.blks) (p : ℕ → Bool) : EndsIn (G.ringStep p o) G.blocks (G.next o) := by
  obtain ⟨i, hi, rfl⟩ := Geo.mem_blks.mp ho
  have hat : G.start + i * kvBlkSize = G.ringAt i := by rw [Geo.ringAt, Nat.mod_eq_of_lt hi]
  have hback : G.ringAt (i + G.blocks) = G.ringAt i := by rw [Geo.ringAt, Nat.add_mod_right, Geo.ringAt]
  rw [hat, Geo.next_ringAt]
  -- the origin comes round after the blocks that are left
  have hgo : ∀ n k, k + (n + 1) = G.blocks → EndsIn (G.ringStep p (G.ringAt i)) (n + 1) (G.ringAt (i + 1 + k)) := by
    intro n
    induction n with
    | zero =>
      intro k hk
      have horigin : G.ringAt (i + 1 + k) = G.ringAt i := by rw [← hback]; congr 1; omega
      exact .leave (a := kvBlkInvalid) (by rw [Geo.ringStep, if_pos horigin])
    | succ n ih =>
      intro k hk
      cases hs : G.ringStep p (G.ringAt i) (G.ringAt (i + 1 + k)) with
      | inr b => exact .leave hs
      | inl c =>
        have hc : c = G.ringAt (i + 1 + (k + 1)) := by
          unfold Geo.ringStep at hs
          split_ifs at hs
          rw [← Sum.inl.inj hs, Geo.next_ringAt]
          rfl
        rw [hc] at hs
        exact .round hs (ih (k + 1) (by omega))
  have hpos := G.pos
  have h0 := hgo (G.blocks - 1) 0 (by omega)
  rwa [show G.blocks - 1 + 1 = G.blocks by omega] at h0

/-! ### Walks -/

section Walk
variable {ph : Phase} {blk : ℕ} {walker : Walker}

/-- A round of `kv_item_walkthru` with the test of its loop. -/
def kvItemWalkBody (G : Geo) (E : Env) (ph : Phase) (blk : ℕ) (walker : Walker) (cur : ℕ) :
    K (ℕ ⊕ ((KvErr × Option KvItem) ⊕ ℕ)) := do
  match ← kvItemWalkRound G E ph blk walker cur with
  | .ret e i => return .inr (.inl (e, i))
  | .brk => return .inr (.inr cur)
  | .next cur => if cur + kvItemHdrSize < kvBlkEnd blk then return .inl cur else return .inr (.inr cur)

theorem kvItemWalkLoop_eq (n cur : ℕ) (s : St) :
    kvItemWalkLoop G E ph blk walker n cur s =
      (rounds (roundOf (kvItemWalkBody G E ph blk walker)) n (cur, s)).elim
        (fun p => (.inl (.internalError, none), p.2)) id := by
  induction n generalizing cur s with
  | zero => rfl
  | succ n ih =>
    unfold kvItemWalkLoop
    rw [run_bind]
    rcases hr : kvItemWalkRound G E ph blk walker cur s with ⟨r, t⟩
    have hbody : kvItemWalkBody G E ph blk walker cur s = _ := run_bind_eq hr
    cases r with
    | ret e i => rw [rounds_inr (roundOf_inr (x := kvItemWalkBody G E ph blk walker) hbody)]; rfl
    | brk => rw [rounds_inr (roundOf_inr (x := kvItemWalkBody G E ph blk walker) hbody)]; rfl
    | next c =>
      simp only [run_ite] at hbody ⊢
      split_ifs at hbody ⊢ with hlt
      · rw [rounds_inl (roundOf_inl (x := kvItemWalkBody G E ph blk walker) hbody), ih]
      · rw [rounds_inr (roundOf_inr (x := kvItemWalkBody G E ph blk walker) hbody)]; rfl

/-- Every round that goes on moves on by a header at least. -/
theorem wp_kvItemWalkRound_next (cur : ℕ) (s : St) :
    wp (kvItemWalkRound G E ph blk walker cur) (fun r _ => ∀ c, r = .next c → cur + kvItemHdrSize ≤ c) s := by
  have hsize : ∀ hdr : ItemHdr, cur + kvItemHdrSize ≤ cur + kvItemSize hdr.kLen hdr.vLen :=
    fun hdr => Nat.add_le_add_left (Nat.le_add_right _ _) _
  have hnext : ∀ {a : ℕ} {t : St}, cur + kvItemHdrSize ≤ a →
      wp (pure (.next a) : K Round) (fun r _ => ∀ c, r = .next c → cur + kvItemHdrSize ≤ c) t := by
    rintro a t ha c h
    cases h
    exact ha
  refine (wp.self (x := lnKvMalloc E ph)).bind fun ok t _ => wp.ite (fun _ => fun _ h => nomatch h) fun _ => ?_
  refine (wp.self (x := kvItemHdrRead E cur)).bind fun r u _ => ?_
  cases r with
  | error e => exact fun _ h => nomatch h
  | ok hdr =>
    refine wp.ite (fun _ => fun _ h => nomatch h) fun _ => wp.ite (fun _ => ?_) fun _ =>
      wp.ite (fun _ => wp_idx_bind (hnext (hsize hdr))) fun _ => ?_
    · refine (wp.self (x := kvItemDoDelete E cur)).bind fun e v _ => ?_
      exact wp.ite (fun _ => wp_idx_bind (hnext le_rfl)) fun _ => hnext le_rfl
    · refine (wp.self (x := walker ⟨hdr, cur, []⟩)).bind fun r v _ => ?_
      exact wp.ite (fun _ => fun _ h => nomatch h) fun _ =>
        wp.ite (fun _ => fun _ h => nomatch h) fun _ => hnext (hsize hdr)

theorem wp_kvItemWalkBody (cur : ℕ) (s : St) :
    wp (kvItemWalkBody G E ph blk walker cur)
      (fun r _ => ∀ c, r = .inl c → cur + kvItemHdrSize ≤ c ∧ c + kvItemHdrSize < kvBlkEnd blk) s := by
  refine (wp_kvItemWalkRound_next cur s).bind fun r t hr => ?_
  cases r with
  | ret e i => exact fun _ h => nomatch h
  | brk => exact fun _ h => nomatch h
  | next a =>
    refine wp.ite (fun hlt => ?_) fun _ => fun _ h => nomatch h
    intro c h
    cases h
    exact ⟨hr a rfl, hlt⟩

/-- Whatever a block holds and whatever fails, a walk of it ends. -/
theorem walk_ends (s : St) : EndsIn (roundOf (kvItemWalkBody G E ph blk walker)) 171 (kvBlkFirstItem blk, s) := by
  apply EndsIn.of_measure (I := fun _ => True) (fun p : ℕ × St => (kvBlkEnd blk - p.1) / kvItemHdrSize)
  · rintro ⟨cur, s⟩ ⟨c, t⟩ - h
    obtain ⟨hmove, hin⟩ := wp.of_roundOf (P := fun c _ => cur + kvItemHdrSize ≤ c ∧ c + kvItemHdrSize < kvBlkEnd blk)
      (wp_kvItemWalkBody cur s) h
    refine ⟨trivial, ?_⟩
    simp only [kvItemHdrSize] at hmove hin ⊢
    omega
  · trivial
  · simp only [kvBlkEnd, kvBlkFirstItem, kvBlkSize, kvBlkHdrSize, kvItemHdrSize]
    omega

end Walk

/-! ### While nothing fails -/

/-- No allocation and no driver call fails from the `n`-th on. -/
def Env.Silent (E : Env) (n : ℕ) : Prop := ∀ k, n ≤ k → (∀ ph, E.malloc ph k = true) ∧ E.drv k = none

theorem Env.Silent.mono {n m : ℕ} (h : E.Silent n) (hnm : n ≤ m) : E.Silent m := fun k hk => h k (hnm.trans hk)

/-- While nothing fails, the program gives such values. -/
def Gives {α : Type} (E : Env) (x : K α) (R : α → Prop) : Prop :=
  ∀ s, E.Silent s.tick → wp x (fun a t => R a ∧ s.tick ≤ t.tick) s

section Gives
variable {α β : Type} {x : K α} {R : α → Prop} {Q : β → Prop}

theorem Gives.pure {a : α} (h : R a) : Gives E (Pure.pure a) R := fun _ _ => ⟨h, le_rfl⟩

theorem Gives.bind {k : α → K β} (hx : Gives E x R) (hk : ∀ a, R a → Gives E (k a) Q) : Gives E (x >>= k) Q := by
  intro s hs
  refine (hx s hs).bind fun a t ⟨ha, ht⟩ => ?_
  exact (hk a ha t (hs.mono ht)).mono fun b u ⟨hb, hu⟩ => ⟨hb, ht.trans hu⟩

theorem Gives.ite {c : Prop} [Decidable c] {y : K α} (hx : c → Gives E x R) (hy : ¬c → Gives E y R) :
    Gives E (if c then x else y) R := by
  split_ifs with h
  · exact hx h
  · exact hy h

theorem gives_idx (i : IdxCall) : Gives E (idx i) fun _ => True := fun _ _ => ⟨trivial, le_rfl⟩

theorem gives_lnKvMalloc (ph : Phase) : Gives E (lnKvMalloc E ph) (· = true) :=
  fun s hs => ⟨(hs s.tick le_rfl).1 ph, Nat.le_succ _⟩

theorem gives_kvFlashRead (addr len : ℕ) : Gives E (kvFlashRead E addr len) fun r => ∃ bs, r = .ok bs := by
  intro s hs
  have h : kvFlashRead E addr len s = (.ok (readBytes s.dev.flash addr len), { s with tick := s.tick + 1 }) := by
    simp only [kvFlashRead, (hs s.tick le_rfl).2]
  rw [wp_iff, h]
  exact ⟨⟨_, rfl⟩, Nat.le_succ _⟩

theorem gives_kvFlashWrite (addr : ℕ) (buf : Bytes) : Gives E (kvFlashWrite E addr buf) (· = .none) := by
  intro s hs
  have h : (kvFlashOp E (.program addr buf) s).1 = true := by simp only [kvFlashOp, (hs s.tick le_rfl).2]
  have ht := (kvFlashOp_ctl (E := E) (.program addr buf) s).2.2
  refine (wp.self (x := kvFlashOp E (.program addr buf))).bind ?_
  rintro r t ⟨rfl, rfl⟩
  rw [if_pos h]
  exact ⟨rfl, (Nat.le_succ _).trans_eq ht.symm⟩

theorem gives_kvItemHdrRead (a : ℕ) : Gives E (kvItemHdrRead E a) fun r => ∃ hdr, r = .ok hdr := by
  refine (gives_kvFlashRead _ _).bind fun r ⟨bs, hr⟩ => ?_
  subst hr
  exact .pure ⟨_, rfl⟩

theorem gives_kvItemBodyRead (ph : Phase) (item : KvItem) :
    Gives E (kvItemBodyRead E ph item) fun r => ∃ bs, r = .ok bs := by
  refine (gives_lnKvMalloc ph).bind fun ok hok => ?_
  rw [hok, if_pos rfl]
  exact gives_kvFlashRead _ _

theorem gives_kvItemDeleteAux (a : ℕ) : Gives E (kvItemDeleteAux G E a) (· = .none) := by
  refine (gives_kvFlashWrite _ _).bind fun e he => .ite (fun h => absurd he h) fun _ => ?_
  exact (gives_idx _).bind fun _ _ => .pure rfl

theorem gives_kvItemTryDelete (item : KvItem) : Gives E (kvItemTryDelete G E item) (· = .none) := by
  refine (gives_kvItemHdrRead _).bind fun r ⟨hdr, hr⟩ => ?_
  subst hr
  refine .ite (fun _ => .pure rfl) fun _ => .ite (fun _ => .pure rfl) fun _ => ?_
  refine (gives_lnKvMalloc _).bind fun ok hok => .ite (fun h => absurd h (by simp [hok])) fun _ => ?_
  refine (gives_kvFlashRead _ _).bind fun r ⟨bs, hr⟩ => ?_
  subst hr
  exact .ite (fun _ => .pure rfl) fun _ => gives_kvItemDeleteAux _

theorem gives_kvItemDoRecovery (item : KvItem) : Gives E (kvItemDoRecovery G E item) (·.1 = .nextLoop) := by
  refine (gives_kvItemBodyRead _ _).bind fun r ⟨body, hr⟩ => ?_
  subst hr
  have hend : ∀ (i : KvItem) (e : KvErr), e = .none →
      Gives E (if e ≠ .none then pure (e, i) else pure (.nextLoop, i) : K (KvErr × KvItem)) (·.1 = .nextLoop) :=
    fun _ _ he => .ite (fun h => absurd he h) fun _ => .pure rfl
  refine .ite (fun _ => (gives_kvItemDeleteAux _).bind (hend _)) fun _ => .ite (fun _ => ?_) fun _ => ?_
  · exact (gives_kvItemTryDelete _).bind (hend _)
  · exact (Gives.pure (R := (· = KvErr.none)) rfl).bind (hend _)

variable {ph : Phase} {blk : ℕ} {walker : Walker}

theorem gives_kvItemWalkRound (hw : ∀ item, Gives E (walker item) (·.1 = .nextLoop)) (cur : ℕ) :
    Gives E (kvItemWalkRound G E ph blk walker cur) fun r => ∀ e i, r ≠ .ret e i := by
  refine (gives_lnKvMalloc _).bind fun ok hok => .ite (fun h => absurd h (by simp [hok])) fun _ => ?_
  refine (gives_kvItemHdrRead _).bind fun r ⟨hdr, hr⟩ => ?_
  subst hr
  refine .ite (fun _ => .pure (fun _ _ => nofun)) fun _ => .ite (fun _ => ?_) fun _ => .ite (fun _ => ?_) fun _ => ?_
  · refine (gives_kvFlashWrite _ _).bind fun e _ => .ite (fun _ => ?_) fun _ => .pure (fun _ _ => nofun)
    exact (gives_idx _).bind fun _ _ => .pure (fun _ _ => nofun)
  · exact (gives_idx _).bind fun _ _ => .pure (fun _ _ => nofun)
  · refine (hw _).bind fun r hr => .ite (fun h => absurd (hr.symm.trans h) (by decide)) fun _ => ?_
    exact .ite (fun h => absurd hr h) fun _ => .pure (fun _ _ => nofun)

/-- While nothing fails, a walk whose walker goes on comes to the end of the block. -/
theorem gives_kvItemWalkLoop (hw : ∀ item, Gives E (walker item) (·.1 = .nextLoop)) {n cur : ℕ}
    (hn : (kvBlkEnd blk - cur) / kvItemHdrSize < n) :
    Gives E (kvItemWalkLoop G E ph blk walker n cur) fun r => ∃ a, r = .inr a := by
  induction n generalizing cur with
  | zero => exact absurd hn (Nat.not_lt_zero _)
  | succ n ih =>
    intro s hs
    refine ((gives_kvItemWalkRound hw cur s hs).and (wp_kvItemWalkRound_next cur s)).bind ?_
    rintro r t ⟨⟨hr, ht⟩, hnext⟩
    cases r with
    | ret e i => exact absurd rfl (hr e i)
    | brk => exact ⟨⟨cur, rfl⟩, ht⟩
    | next c =>
      have hmove := hnext c rfl
      refine wp.ite (fun hlt => ?_) fun _ => ⟨⟨c, rfl⟩, ht⟩
      have hfew : (kvBlkEnd blk - c) / kvItemHdrSize < n := by
        simp only [kvItemHdrSize] at hn hmove hlt ⊢
        omega
      exact (ih hfew t (hs.mono ht)).mono fun r u hru => ⟨hru.1, ht.trans hru.2⟩

theorem gives_kvMgrIndexBuild (blk : ℕ) : Gives E (kvMgrIndexBuild G E blk) (· = .none) := by
  have hwalk : Gives E (kvItemWalkthru G E .build blk (kvItemDoRecovery G E)) (·.1 = .none) := by
    refine (gives_kvItemWalkLoop gives_kvItemDoRecovery (by
      simp only [kvBlkEnd, kvBlkFirstItem, kvBlkSize, kvBlkHdrSize, kvItemHdrSize]
      omega)).bind fun r ⟨cur, hr⟩ => ?_
    subst hr
    have hindex : Gives E (kvItemWalkIndex blk cur) fun _ => True := by
      refine .ite (fun _ => gives_idx _) fun _ => .ite (fun _ => ?_) fun _ => ?_
      · exact (gives_idx _).bind fun _ _ => gives_idx _
      · exact (gives_idx _).bind fun _ _ => gives_idx _
    exact hindex.bind fun _ _ => .pure rfl
  exact hwalk.bind fun r hr => .pure hr

end Gives

/-! ### What collections and rebuilds use up -/

/-- What a helper call makes of the flags of a block. -/
def IdxCall.flagsOf (b : ℕ) (fl : Flags) : IdxCall → Flags
  | .clear => .zero
  | .setFresh x => if b = x then { Flags.zero with fresh := true } else fl
  | .setInuse x => if b = x then { fl with inuse := true } else fl
  | .setDirty x => if b = x then { fl with dirty := true } else fl
  | .setBad x => if b = x then { Flags.zero with bad := true } else fl
  | .setHanging x => if b = x then { fl with hanging := true } else fl
  | .resetFresh x => if b = x then { fl with fresh := false } else fl
  | .resetInuse x => if b = x then { fl with inuse := false } else fl
  | .resetHanging x => if b = x then { fl with hanging := false } else fl
  | .freeszSet _ _ | .freeszReduce _ _ | .setWorkspace _ => fl

theorem kvBlkFlagsGet_kvBlkFlagsSet (b x : ℕ) (c : Ctl) (fl : Flags) :
    kvBlkFlagsGet b (kvBlkFlagsSet x c fl) = if b = x then fl else kvBlkFlagsGet b c := by
  rw [congrFun (flags_kvBlkFlagsSet x fl) b, Function.update_apply]

theorem flags_run (b : ℕ) (c : Ctl) (i : IdxCall) : kvBlkFlagsGet b (i.run c) = i.flagsOf b (kvBlkFlagsGet b c) := by
  -- a change of a counter before the flags are set does not show
  have hset : ∀ x (d : Ctl) fl fl', d.blkDetail = c.blkDetail → (b = x → fl = fl') →
      kvBlkFlagsGet b (kvBlkFlagsSet x d fl) = if b = x then fl' else kvBlkFlagsGet b c := by
    intro x d fl fl' hd hfl
    rw [kvBlkFlagsGet_kvBlkFlagsSet]
    split_ifs with h
    · exact hfl h
    · rw [kvBlkFlagsGet, kvBlkFlagsGet, hd]
  cases i with
  | clear => rfl
  | setWorkspace x => rfl
  | freeszSet x n => exact congrFun (flags_kvBlkFreeszSet x n) b
  | freeszReduce x n => exact congrFun (flags_kvBlkFreeszSet x _) b
  | setFresh x =>
    rw [IdxCall.run, kvBlkSetFresh_eq, kvBlkFlagsGet_kvBlkFlagsSet, congrFun (flags_kvBlkFreeszSet x _) b]
    rfl
  | setDirty x => exact hset x _ _ _ rfl fun h => by rw [h]
  | setBad x => exact hset x _ _ _ rfl fun _ => rfl
  | setInuse x =>
    rw [IdxCall.run, kvBlkSetInuse_eq]
    exact hset x _ _ _ rfl fun h => by rw [h]
  | setHanging x =>
    rw [IdxCall.run, kvBlkSetHanging_eq]
    exact hset x _ _ _ rfl fun h => by rw [h]
  | resetFresh x =>
    rw [IdxCall.run, kvBlkResetFresh_eq]
    exact hset x _ _ _ rfl fun h => by rw [h]
  | resetInuse x =>
    rw [IdxCall.run, kvBlkResetInuse_eq]
    exact hset x _ _ _ rfl fun h => by rw [h]
  | resetHanging x =>
    rw [IdxCall.run, kvBlkResetHanging_eq]
    exact hset x _ _ _ rfl fun h => by rw [h]

/-- Only `kv_blk_set_hanging` flags a block hanging. -/
theorem hanging_run {b : ℕ} {c : Ctl} {i : IdxCall} (h : kvBlkIsHanging b (i.run c) = true)
    (hi : i ≠ .setHanging b) : kvBlkIsHanging b c = true := by
  rw [kvBlkIsHanging, flags_run] at h
  rw [kvBlkIsHanging]
  cases i <;> grind [IdxCall.flagsOf, Flags.zero]

/-- Only `kv_blk_set_dirty` flags a block dirty. -/
theorem dirty_run {b : ℕ} {c : Ctl} {i : IdxCall} (h : kvBlkIsDirty b (i.run c) = true)
    (hi : i ≠ .setDirty b) : kvBlkIsDirty b c = true := by
  rw [kvBlkIsDirty, flags_run] at h
  rw [kvBlkIsDirty]
  cases i <;> grind [IdxCall.flagsOf, Flags.zero]

/-- What a program may do that neither flags a block hanging nor chooses a workspace, and flags
only the blocks of `D` dirty. -/
def Scope.gc (D : Set ℕ) : Scope := ⟨Set.univ, D, ∅, ∅⟩

section Made
variable {D D' : Set ℕ} {b : ℕ}

theorem IdxCall.In.mono_gc {i : IdxCall} (h : i.In (.gc D)) (hD : D ⊆ D') : i.In (.gc D') := by
  cases i <;> first | exact h | exact hD h

theorem Made.mono_gc (h : Made (.gc D) s t) (hD : D ⊆ D') : Made (.gc D') s t := by
  obtain ⟨ht, is, hc, hr, hi⟩ := h
  exact ⟨ht, is, hc, hr, fun i hmem => (hi i hmem).mono_gc hD⟩

theorem Made.hanging (h : Made (.gc D) s t) (hb : kvBlkIsHanging b t.ctl = true) : kvBlkIsHanging b s.ctl = true := by
  apply h.keeps (I := fun c => kvBlkIsHanging b c = true → kvBlkIsHanging b s.ctl = true) _ id hb
  intro c i hi hI hrun
  apply hI (hanging_run hrun _)
  rintro rfl
  exact hi

theorem Made.dirty (h : Made (.gc D) s t) (hb : kvBlkIsDirty b t.ctl = true) : kvBlkIsDirty b s.ctl = true ∨ b ∈ D := by
  apply h.keeps (I := fun c => kvBlkIsDirty b c = true → kvBlkIsDirty b s.ctl = true ∨ b ∈ D) _ .inl hb
  intro c i hi hI hrun
  by_cases hset : i = .setDirty b
  · subst hset
    exact .inr hi
  · exact hI (dirty_run hrun hset)

theorem Made.not_dirty (h : Made (.gc ∅) s t) (hb : kvBlkIsDirty b s.ctl = false) : kvBlkIsDirty b t.ctl = false := by
  rw [← Bool.not_eq_true] at hb ⊢
  intro ht
  rcases h.dirty ht with hs | hin
  · exact hb hs
  · exact hin

theorem Made.workspace {S : Scope} (h : Made S s t) (hS : S.workspace = ∅) : t.ctl.workspace = s.ctl.workspace := by
  apply h.keeps (I := fun c => c.workspace = s.ctl.workspace) _ rfl
  intro c i hi hI
  have hrun : (i.run c).workspace = c.workspace := by
    cases i with
    | clear => exact hi.elim
    | setWorkspace x => exact absurd (hS ▸ (show x ∈ S.workspace from hi)) (Set.notMem_empty x)
    | setFresh x => rw [IdxCall.run, kvBlkSetFresh_eq]; rfl
    | setInuse x => rw [IdxCall.run, kvBlkSetInuse_eq]; rfl
    | setHanging x => rw [IdxCall.run, kvBlkSetHanging_eq]; rfl
    | resetFresh x => rw [IdxCall.run, kvBlkResetFresh_eq]; rfl
    | resetInuse x => rw [IdxCall.run, kvBlkResetInuse_eq]; rfl
    | resetHanging x => rw [IdxCall.run, kvBlkResetHanging_eq]; rfl
    | _ => rfl
  rw [hrun, hI]

end Made

theorem wp_kvFlashWrite_tick (addr : ℕ) (buf : Bytes) : wp (kvFlashWrite E addr buf) (fun _ t => s.tick < t.tick) s := by
  have ht := (kvFlashOp_ctl (E := E) (.program addr buf) s).2.2
  refine (wp.self (x := kvFlashOp E (.program addr buf))).bind ?_
  rintro r t ⟨-, rfl⟩
  have hlt : s.tick < (kvFlashOp E (.program addr buf) s).2.tick := by omega
  exact wp.ite (fun _ => hlt) fun _ => hlt

/-- A block that was formatted is not dirty. -/
theorem wp_kvBlkFormat_clean (blk : ℕ) :
    wp (kvBlkFormat E blk) (fun r t => r = .none → kvBlkIsDirty blk t.ctl = false) s := by
  refine (wp.self (x := kvFlashBlkErase E blk)).bind fun e t _ => wp.ite (fun _ => nofun) fun _ => ?_
  refine (wp.self (x := kvFlashWunitModify E blk kvBlkHdrMagic)).bind fun e u _ => wp.ite (fun _ => nofun) fun _ => ?_
  apply wp_idx_bind
  intro _
  show kvBlkIsDirty blk (IdxCall.run u.ctl (.setFresh blk)) = false
  rw [kvBlkIsDirty, flags_run, IdxCall.flagsOf, if_pos rfl]
  rfl

/-- A collection that succeeds leaves its source clean. -/
theorem wp_kvDoGcFinish_clean (src dst : ℕ) :
    wp (kvDoGcFinish E src dst) (fun r t => r = .none → kvBlkIsDirty src t.ctl = false) s := by
  have hrest : ∀ t : St, kvBlkIsDirty src t.ctl = false → wp (do
      let err ← kvBlkMarkGcDone E dst
      if err ≠ .none then return err
      idx (.resetFresh dst)
      let c ← getCtl
      if !kvBlkIsFull dst c then idx (.setInuse dst)
      return .none : K KvErr) (fun r u => r = .none → kvBlkIsDirty src u.ctl = false) t := by
    intro t ht
    apply wp.mono (makes_kvDoGcFinish_rest (S := .gc ∅) (Set.mem_univ dst) t)
    rintro r u hu -
    exact hu.not_dirty ht
  unfold kvDoGcFinish
  apply wp_idx_bind
  refine (wp_kvBlkFormat_clean src).bind fun e t ht => wp.ite (fun _ => ?_) fun he => ?_
  · apply wp_idx_bind
    apply hrest
    show kvBlkIsDirty src (IdxCall.run t.ctl (.setBad src)) = false
    rw [kvBlkIsDirty, flags_run, IdxCall.flagsOf, if_pos rfl]
    rfl
  · rw [not_not] at he
    exact hrest t (ht he)

theorem wp_kvDoGc_uses (src dst : ℕ) :
    wp (kvDoGc G E src dst false)
      (fun r t => Made (.gc {src}) s t ∧ s.tick < t.tick ∧ (r = .none → kvBlkIsDirty src t.ctl = false)) s := by
  have hmade := makes_kvDoGc (G := G) (E := E) (S := .gc {src}) (Set.mem_univ src) rfl (Set.mem_univ dst) false s
  have hcopy := makes_kvDoGc (G := G) (E := E) (S := .gc {src}) (Set.mem_univ src) rfl (Set.mem_univ dst) true
  have htick : wp (kvDoGc G E src dst false) (fun _ t => s.tick < t.tick) s := by
    refine (wp_kvFlashWrite_tick _ _).bind fun e t ht => wp.ite (fun _ => ht) fun _ => ?_
    exact (hcopy t).mono fun _ u hu => ht.trans_le hu.tick
  have hclean : wp (kvDoGc G E src dst false) (fun r t => r = .none → kvBlkIsDirty src t.ctl = false) s := by
    refine (wp.self (x := kvBlkMarkGcSrc E src)).bind fun e t _ => wp.ite (fun he h => absurd h he) fun _ => ?_
    refine (wp.self (x := kvBlkMarkGcDst E dst)).bind fun e u _ => wp.ite (fun he h => absurd h he) fun _ => ?_
    refine (wp.self (x := kvItemWalkthru G E .gc src (kvItemDoGc E dst))).bind fun r v _ =>
      wp.ite (fun he h => absurd h he) fun _ => wp_kvDoGcFinish_clean src dst
  exact hmade.and (htick.and hclean)

/-! ### Counting what is left -/

theorem countP_lt {α : Type} {l : List α} {p q : α → Bool} (hpq : ∀ x ∈ l, p x → q x) {a : α} (ha : a ∈ l)
    (hq : q a = true) (hp : p a = false) : l.countP p < l.countP q := by
  induction l with
  | nil => cases ha
  | cons x l ih =>
    have hle := List.countP_mono_left fun y hy => hpq y (List.mem_cons_of_mem x hy)
    have hx := hpq x List.mem_cons_self
    rw [List.countP_cons, List.countP_cons]
    rcases List.mem_cons.mp ha with rfl | ha
    · simp only [hq, hp]
      simp
      omega
    · have hlt := ih (fun y hy => hpq y (List.mem_cons_of_mem x hy)) ha
      split_ifs with h1 h2
      · omega
      · exact absurd (hx h1) h2
      · omega
      · omega

theorem numFlagged_le_blocks (p : Flags → Bool) (c : Ctl) : numFlagged G p c ≤ G.blocks := by
  rw [← G.length_blks]
  exact List.countP_le_length

/-- A collection found a dirty block and cleaned it; it flagged no other. -/
structure Cleaned (G : Geo) (s t : St) : Prop where
  made : Made (.gc {b | kvBlkIsDirty b s.ctl = true}) s t
  tick : s.tick < t.tick
  clean : ∃ b ∈ G.blks, kvBlkIsDirty b s.ctl = true ∧ kvBlkIsDirty b t.ctl = false

theorem Made.dirty_sub (h : Made (.gc {b | kvBlkIsDirty b s.ctl = true}) s t) {b : ℕ}
    (hb : kvBlkIsDirty b t.ctl = true) : kvBlkIsDirty b s.ctl = true := by
  rcases h.dirty hb with h | h
  · exact h
  · exact h

theorem Cleaned.fewer (h : Cleaned G s t) : numFlagged G Flags.dirty t.ctl < numFlagged G Flags.dirty s.ctl := by
  obtain ⟨b, hb, hs, ht⟩ := h.clean
  exact countP_lt (fun x _ hx => h.made.dirty_sub hx) hb hs ht

theorem wp_kvGcFirst_uses (dst : ℕ) {bs : List ℕ} (hbs : ∀ b ∈ bs, b ∈ G.blks) :
    wp (kvGcFirst G E dst bs)
      (fun r t => Made (.gc {b | kvBlkIsDirty b s.ctl = true}) s t ∧ (r = true → Cleaned G s t)) s := by
  induction bs generalizing s with
  | nil => exact ⟨.refl s, nofun⟩
  | cons b bs ih =>
    have hb := hbs b List.mem_cons_self
    have hrest := fun {t : St} => ih (s := t) fun b' hb' => hbs b' (List.mem_cons_of_mem b hb')
    apply wp_getCtl
    refine wp.ite (fun hdirty => ?_) fun _ => hrest
    refine (wp_kvDoGc_uses b dst).bind fun e t ⟨hmade, htick, hclean⟩ => ?_
    have hst : Made (.gc {b | kvBlkIsDirty b s.ctl = true}) s t := by
      apply hmade.mono_gc
      rintro _ rfl
      exact hdirty
    refine wp.ite (fun he => ⟨hst, fun _ => ⟨hst, htick, b, hb, hdirty, hclean he⟩⟩) fun _ => ?_
    refine hrest.mono fun r u ⟨hu, hr⟩ => ?_
    have hsub : ∀ x, kvBlkIsDirty x t.ctl = true → kvBlkIsDirty x s.ctl = true := fun x hx => hst.dirty_sub hx
    have hsu := hst.trans (hu.mono_gc hsub)
    refine ⟨hsu, fun h => ?_⟩
    obtain ⟨-, htick', x, hx, hd, hc⟩ := hr h
    exact ⟨hsu, htick.trans htick', x, hx, hsub x hd, hc⟩

/-! ### Rebuilding -/

theorem whole_gc (G : Geo) : (Scope.gc Set.univ).Whole G := ⟨fun b _ => Set.mem_univ b, rfl⟩

/-- An index build walks, so it allocates at least once. -/
theorem wp_kvMgrIndexBuild_tick (blk : ℕ) : wp (kvMgrIndexBuild G E blk) (fun _ t => s.tick < t.tick) s := by
  have hdirty : blk ∈ (Scope.gc Set.univ).dirty := Set.mem_univ blk
  have hw : ∀ item, Makes (.gc Set.univ) (kvItemDoRecovery G E item) := makes_kvItemDoRecovery rfl
  have hround : wp (kvItemWalkRound G E .build blk (kvItemDoRecovery G E) (kvBlkFirstItem blk))
      (fun _ t => s.tick < t.tick) s := by
    obtain ⟨rest, heq, hrest⟩ := @kvItemWalkRound_malloc G E _ .build _ _ hdirty hw (kvBlkFirstItem blk)
    rw [heq]
    refine (wp.self (x := lnKvMalloc E .build)).bind ?_
    rintro ok t ⟨-, rfl⟩
    exact (hrest ok _).mono fun _ u hu => (Nat.lt_succ_self _).trans_le hu.tick
  have hloop : wp (kvItemWalkLoop G E .build blk (kvItemDoRecovery G E) 171 (kvBlkFirstItem blk))
      (fun _ t => s.tick < t.tick) s := by
    refine hround.bind fun r t ht => ?_
    cases r with
    | ret e i => exact ht
    | brk => exact ht
    | next c =>
      refine wp.ite (fun _ => ?_) fun _ => ht
      exact (makes_kvItemWalkLoop hdirty hw _ _ t).mono fun _ u hu => ht.trans_le hu.tick
  have hthru : wp (kvItemWalkthru G E .build blk (kvItemDoRecovery G E)) (fun _ t => s.tick < t.tick) s := by
    refine hloop.bind fun r t ht => ?_
    cases r with
    | inl r => exact ht
    | inr cur =>
      exact (makes_kvItemWalkIndex (S := .gc Set.univ) (Set.mem_univ blk) cur t).bind fun _ u hu => ht.trans_le hu.tick
  exact hthru.bind fun r t ht => ht

/-- The rebuild does nothing when no block is hanging. When it did something, it took time, and
while nothing fails it leaves no block of the list hanging. -/
theorem wp_kvMgrBlkIndexRebuildFrom_uses {bs : List ℕ} (hbs : ∀ b ∈ bs, b ∈ G.blks) (d : Bool) :
    wp (kvMgrBlkIndexRebuildFrom G E d bs) (fun r t => Made (.gc Set.univ) s t ∧
      ((∀ b ∈ bs, kvBlkIsHanging b s.ctl = false) → t = s ∧ r = d) ∧
      (r = true → d = true ∨ s.tick < t.tick) ∧
      (E.Silent s.tick → ∀ b ∈ bs, kvBlkIsHanging b t.ctl = false)) s := by
  induction bs generalizing s d with
  | nil => exact ⟨.refl s, fun _ => ⟨rfl, rfl⟩, .inl, fun _ => by simp⟩
  | cons b bs ih =>
    have hb := hbs b List.mem_cons_self
    have hrest := fun {t : St} d => ih (s := t) (fun b' hb' => hbs b' (List.mem_cons_of_mem b hb')) d
    apply wp_getCtl
    refine wp.ite (fun hh => ?_) fun hh => ?_
    · -- the head is hanging and its index is built again
      refine ((makes_kvMgrIndexBuild (whole_gc G) hb s).and ((wp_kvMgrIndexBuild_tick b).and wp.self)).bind ?_
      rintro e t ⟨hst, htick, he, -⟩
      have hgives : E.Silent s.tick → e = .none := fun hs => he.trans (gives_kvMgrIndexBuild b s hs).1
      have hno : ¬∀ x ∈ b :: bs, kvBlkIsHanging x s.ctl = false := fun h => by
        rw [h b List.mem_cons_self] at hh
        exact absurd hh Bool.false_ne_true
      refine wp.ite (fun _ => ?_) fun hne => ?_
      · apply wp_idx_bind
        have hreset : Makes (.gc Set.univ) (idx (.resetHanging b)) := .idx (Set.mem_univ b)
        have hsu := hst.trans (hreset t)
        apply (hrest true).mono
        rintro r v ⟨hv, -, -, hsil⟩
        refine ⟨hsu.trans hv, fun h => absurd h hno, ?_, ?_⟩
        · exact fun _ => .inr (htick.trans_le hv.tick)
        · intro hs x hx
          rcases List.mem_cons.mp hx with rfl | hx
          · rw [← Bool.not_eq_true]
            intro hhang
            have hclear : kvBlkIsHanging x (IdxCall.run t.ctl (.resetHanging x)) = false := by
              rw [kvBlkIsHanging, flags_run, IdxCall.flagsOf, if_pos rfl]
            exact absurd (hv.hanging hhang) (by rw [hclear]; exact Bool.false_ne_true)
          · exact hsil (hs.mono htick.le) x hx
      · apply (hrest d).mono
        rintro r v ⟨hv, -, -, -⟩
        refine ⟨hst.trans hv, fun h => absurd h hno, ?_, ?_⟩
        · exact fun _ => .inr (htick.trans_le hv.tick)
        · exact fun hs => absurd (hgives hs) hne
    · apply (hrest d).mono
      rintro r t ⟨hst, hsame, hr, hsil⟩
      refine ⟨hst, ?_, hr, ?_⟩
      · intro hno
        exact hsame fun b' hb' => hno b' (List.mem_cons_of_mem b hb')
      · intro hs b' hb'
        rcases List.mem_cons.mp hb' with rfl | hb'
        · rw [← Bool.not_eq_true]
          intro ht
          exact hh (hst.hanging ht)
        · exact hsil hs b' hb'

/-! ### The search for a block -/

/-- What a collection that reports success has used up: a dirty block, or, while nothing fails,
all hanging ones. -/
structure Used (G : Geo) (E : Env) (s t : St) : Prop where
  tick : s.tick < t.tick
  hanging : ∀ b, kvBlkIsHanging b t.ctl = true → kvBlkIsHanging b s.ctl = true
  fewer : numFlagged G Flags.dirty t.ctl < numFlagged G Flags.dirty s.ctl ∨
    (∃ b ∈ G.blks, kvBlkIsHanging b s.ctl = true) ∧ (E.Silent s.tick → ∀ b ∈ G.blks, kvBlkIsHanging b t.ctl = false)

theorem nextFresh_mem {c : Ctl} (hws : c.workspace ∈ G.blks) (hne : kvBlkNextFresh G c ≠ kvBlkInvalid) :
    kvBlkNextFresh G c ∈ G.blks := by
  rcases Geo.ringSearch_spec (p := (kvBlkIsFresh · c)) hws with ⟨hinv, -⟩ | ⟨hmem, -, -⟩
  · exact absurd hinv hne
  · exact hmem

/-- What the rebuild at the start of `kv_gc` leaves. -/
structure Rebuilt (G : Geo) (E : Env) (s u : St) (r : Bool) : Prop where
  made : Made (.gc Set.univ) s u
  same : (∀ b ∈ G.blks, kvBlkIsHanging b s.ctl = false) → u = s ∧ r = false
  tick : r = true → s.tick < u.tick
  clear : u = s ∨ (E.Silent s.tick → ∀ b ∈ G.blks, kvBlkIsHanging b u.ctl = false)

theorem wp_kvGc_uses (hws : s.ctl.workspace ∈ G.blks) :
    wp (kvGc G E) (fun r t => t.ctl.workspace ∈ G.blks ∧ (r = .none → Used G E s t)) s := by
  have hrest : ∀ (r : Bool) (u : St), Rebuilt G E s u r → wp (do
      let c ← getCtl
      let blkDst := kvBlkNextFresh G c
      if blkDst = kvBlkInvalid then return .gcNothing
      let isGcDone ← kvGcFirst G E blkDst G.blks
      if isGcDone then idx (.setWorkspace blkDst)
      if isGcDone || r then return .none else return .gcNothing : K KvErr)
      (fun r t => t.ctl.workspace ∈ G.blks ∧ (r = .none → Used G E s t)) u := by
    intro r u hu
    have hwu : u.ctl.workspace ∈ G.blks := by rw [hu.made.workspace rfl]; exact hws
    apply wp_getCtl
    refine wp.ite (fun _ => ⟨hwu, nofun⟩) fun hdst => ?_
    refine (wp_kvGcFirst_uses _ fun _ hb => hb).bind fun d v ⟨hv, hd⟩ => ?_
    have hwv : v.ctl.workspace ∈ G.blks := by rw [hv.workspace rfl]; exact hwu
    have hhang : ∀ b, kvBlkIsHanging b v.ctl = true → kvBlkIsHanging b s.ctl = true :=
      fun b hb => hu.made.hanging (hv.hanging hb)
    have hclear : u = s ∨ (E.Silent s.tick → ∀ b ∈ G.blks, kvBlkIsHanging b v.ctl = false) := by
      rcases hu.clear with h | h
      · exact .inl h
      · right
        intro hs b hb
        rw [← Bool.not_eq_true]
        intro hbv
        exact absurd (hv.hanging hbv) (by rw [h hs b hb]; exact Bool.false_ne_true)
    -- a rebuild that changed the state met a hanging block
    have hmet : u ≠ s ∨ r = true → ∃ b ∈ G.blks, kvBlkIsHanging b s.ctl = true := by
      intro h
      by_contra hno
      push Not at hno
      obtain ⟨hsame, hr⟩ := hu.same fun b hb => Bool.eq_false_iff.mpr (hno b hb)
      rcases h with h | h
      · exact h hsame
      · rw [hr] at h
        exact absurd h Bool.false_ne_true
    by_cases hdone : d = true
    · rw [if_pos hdone]
      apply wp_idx_bind
      have hcl := hd hdone
      refine wp.ite (fun _ => ⟨nextFresh_mem hwu hdst, fun _ => ⟨hu.made.tick.trans_lt hcl.tick, hhang, ?_⟩⟩)
        fun _ => ⟨nextFresh_mem hwu hdst, nofun⟩
      by_cases hus : u = s
      · subst hus
        exact .inl hcl.fewer
      · exact .inr ⟨hmet (.inl hus), hclear.resolve_left hus⟩
    · rw [if_neg hdone]
      refine wp.ite (fun hor => ⟨hwv, fun _ => ?_⟩) fun _ => ⟨hwv, nofun⟩
      have hr : r = true := by simpa [hdone] using hor
      have htick := hu.tick hr
      refine ⟨htick.trans_le hv.tick, hhang, .inr ⟨hmet (.inr hr), hclear.resolve_left ?_⟩⟩
      rintro rfl
      exact lt_irrefl _ htick
  apply wp_getCtl
  refine wp.ite (fun _ => ?_) fun _ => hrest false s ⟨.refl s, fun _ => ⟨rfl, rfl⟩, nofun, .inl rfl⟩
  refine (wp_kvMgrBlkIndexRebuildFrom_uses (fun _ hb => hb) false).bind fun r u ⟨hu, hsame, htick, hclear⟩ => ?_
  refine hrest r u ⟨hu, hsame, fun hr => ?_, .inr hclear⟩
  exact (htick hr).resolve_left Bool.false_ne_true

/-- A round of the loop of `kv_blk_search_suitable`. -/
def kvBlkSearchBody (G : Geo) (E : Env) (itemSize : ℕ) (_ : Unit) : K (Unit ⊕ ℕ) := do
  let c ← getCtl
  if kvBlkFreeszGet c.workspace c ≥ itemSize then return .inr c.workspace
  let theBlk := kvBlkSearchInuse G c itemSize
  if theBlk ≠ kvBlkInvalid then
    idx (.setWorkspace theBlk)
    return .inr theBlk
  if c.numFresh < 1 then return .inr kvBlkInvalid
  if c.numFresh > 1 then
    idx (.setWorkspace (kvBlkNextFresh G c))
    return .inr (kvBlkNextFresh G c)
  if (← kvGc G E) ≠ .none then
    let c ← getCtl
    idx (.setWorkspace (kvBlkNextFresh G c))
    return .inr (kvBlkNextFresh G c)
  return .inl ()

section Search
variable {itemSize : ℕ}

theorem kvBlkSearchLoop_eq (n : ℕ) (s : St) :
    kvBlkSearchLoop G E itemSize n s =
      (rounds (roundOf (kvBlkSearchBody G E itemSize)) n ((), s)).elim (fun p => (kvBlkInvalid, p.2)) id := by
  induction n generalizing s with
  | zero => rfl
  | succ n ih =>
    have hbody : kvBlkSearchBody G E itemSize () s = (kvBlkSearchBody G E itemSize ()) s := rfl
    conv at hbody => rhs; unfold kvBlkSearchBody
    unfold kvBlkSearchLoop
    simp only [run_bind, run_ite, run_pure] at hbody ⊢
    split_ifs at hbody ⊢
    · rw [rounds_inr (roundOf_inr hbody)]; rfl
    · rw [rounds_inr (roundOf_inr hbody)]; rfl
    · rw [rounds_inr (roundOf_inr hbody)]; rfl
    · rw [rounds_inr (roundOf_inr hbody)]; rfl
    · rw [rounds_inr (roundOf_inr hbody)]; rfl
    · rw [rounds_inl (roundOf_inl hbody), ih]

theorem wp_kvBlkSearchBody (hws : s.ctl.workspace ∈ G.blks) :
    wp (kvBlkSearchBody G E itemSize ()) (fun r t => ∀ j, r = .inl j → t.ctl.workspace ∈ G.blks ∧ Used G E s t) s := by
  apply wp_getCtl
  refine wp.ite (fun _ => nofun) fun _ => wp.ite (fun _ => nofun) fun _ => wp.ite (fun _ => nofun) fun _ =>
    wp.ite (fun _ => nofun) fun _ => ?_
  refine (wp_kvGc_uses hws).bind fun e t ⟨hwt, hused⟩ => wp.ite (fun _ => nofun) fun he => ?_
  rw [not_not] at he
  exact fun _ _ => ⟨hwt, hused he⟩

/-- A round that comes round again finds the workspace in the area and has used something up. -/
theorem search_round {i j : Unit} (hws : s.ctl.workspace ∈ G.blks)
    (h : roundOf (kvBlkSearchBody G E itemSize) (i, s) = .inl (j, t)) : t.ctl.workspace ∈ G.blks ∧ Used G E s t :=
  wp.of_roundOf (P := fun _ t => t.ctl.workspace ∈ G.blks ∧ Used G E s t) (wp_kvBlkSearchBody hws) h

theorem search_heads (hws : s.ctl.workspace ∈ G.blks)
    (h : Heads (roundOf (kvBlkSearchBody G E itemSize)) ((), s) ((), t)) : t.ctl.workspace ∈ G.blks := by
  refine h.keeps (I := fun p : Unit × St => p.2.ctl.workspace ∈ G.blks) ?_ hws
  rintro ⟨i, s⟩ ⟨j, t⟩ hs hst
  exact (search_round hs hst).1

/-- Without a hanging block every round uses up a dirty one. -/
theorem search_ends_settled (hws : s.ctl.workspace ∈ G.blks) (hno : ∀ b ∈ G.blks, kvBlkIsHanging b s.ctl = false) :
    Ends (roundOf (kvBlkSearchBody G E itemSize)) ((), s) := by
  refine EndsIn.ends (EndsIn.of_measure (fun p : Unit × St => numFlagged G Flags.dirty p.2.ctl)
    (I := fun p => p.2.ctl.workspace ∈ G.blks ∧ ∀ b ∈ G.blks, kvBlkIsHanging b p.2.ctl = false) ?_ ⟨hws, hno⟩
    (Nat.lt_succ_self _))
  rintro ⟨i, s⟩ ⟨j, t⟩ ⟨hs, hno⟩ hst
  obtain ⟨ht, hused⟩ := search_round hs hst
  refine ⟨⟨ht, fun b hb => ?_⟩, ?_⟩
  · rw [← Bool.not_eq_true]
    intro hbt
    exact absurd (hused.hanging b hbt) (by rw [hno b hb]; exact Bool.false_ne_true)
  · rcases hused.fewer with h | ⟨⟨b, hb, hh⟩, -⟩
    · exact h
    · exact absurd hh (by rw [hno b hb]; exact Bool.false_ne_true)

/-- What is left to use up before call number `N` and after it: a call that may fail outweighs
all hanging blocks, a hanging block all dirty ones. -/
def leftover (G : Geo) (N : ℕ) (s : St) : ℕ :=
  (N - s.tick) * ((G.blocks + 1) * (G.blocks + 1)) + numFlagged G Flags.hanging s.ctl * (G.blocks + 1) +
    numFlagged G Flags.dirty s.ctl

theorem Used.leftover_lt {N : ℕ} (hN : E.Silent N) (h : Used G E s t) : leftover G N t < leftover G N s := by
  have hdirty := numFlagged_le_blocks (G := G) Flags.dirty t.ctl
  have hhang := numFlagged_le_blocks (G := G) Flags.hanging t.ctl
  unfold leftover
  by_cases hlt : s.tick < N
  · -- the round took time, and time weighs more than all flags
    have hbound : numFlagged G Flags.hanging t.ctl * (G.blocks + 1) + numFlagged G Flags.dirty t.ctl <
        (G.blocks + 1) * (G.blocks + 1) := by
      have := Nat.mul_le_mul_right (G.blocks + 1) hhang
      rw [Nat.succ_mul]
      omega
    have htime : (N - t.tick + 1) * ((G.blocks + 1) * (G.blocks + 1)) ≤
        (N - s.tick) * ((G.blocks + 1) * (G.blocks + 1)) := by
      have := h.tick
      exact Nat.mul_le_mul_right _ (by omega)
    rw [Nat.succ_mul] at htime
    omega
  · have h0 : N - s.tick = 0 := by omega
    have h0' : N - t.tick = 0 := by
      have := h.tick
      omega
    have hle : numFlagged G Flags.hanging t.ctl ≤ numFlagged G Flags.hanging s.ctl :=
      List.countP_mono_left fun b _ hb => h.hanging b hb
    rw [h0, h0']
    rcases h.fewer with hd | ⟨⟨b, hb, hh⟩, hclear⟩
    · have := Nat.mul_le_mul_right (G.blocks + 1) hle
      omega
    · have hnone : numFlagged G Flags.hanging t.ctl = 0 :=
        List.countP_eq_zero.mpr fun x hx => Bool.eq_false_iff.mp (hclear (hN.mono (by omega)) x hx)
      have hpos : 1 * (G.blocks + 1) ≤ numFlagged G Flags.hanging s.ctl * (G.blocks + 1) :=
        Nat.mul_le_mul_right _ (numFlagged_pos hb Flags.hanging hh)
      rw [hnone]
      omega

/-- If the failures come to an end, so does the search. -/
theorem search_ends_silent (hws : s.ctl.workspace ∈ G.blks) {N : ℕ} (hN : E.Silent N) :
    Ends (roundOf (kvBlkSearchBody G E itemSize)) ((), s) := by
  refine EndsIn.ends (EndsIn.of_measure (fun p : Unit × St => leftover G N p.2)
    (I := fun p => p.2.ctl.workspace ∈ G.blks) ?_ hws (Nat.lt_succ_self _))
  rintro ⟨i, s⟩ ⟨j, t⟩ hs hst
  obtain ⟨ht, hused⟩ := search_round hs hst
  exact ⟨ht, hused.leftover_lt hN⟩

end Search

end Ln882x.Kv
