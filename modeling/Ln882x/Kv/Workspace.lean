import Ln882x.Kv.Termination

/-! The workspace and the end of the loops that start from it. A start-up counts
the FRESH and the INUSE blocks; unless it throws away a flag that it counted, the
counters tell `kv_mgr_workspace_locate` right and it finds a block of the area.
From then on every loop of the store starts from a block of the area and ends. -/

namespace Ln882x.Kv

open Nor

variable {G : Geo} {E : Env} {s t : St} {c : Ctl}

/-! ### Counted flags -/

/-- The call overwrites a FRESH or an INUSE flag without counting it down. -/
def IdxCall.Drops (c : Ctl) : IdxCall → Prop
  | .setFresh b => kvBlkIsInuse b c = true
  | .setBad b => kvBlkIsFresh b c = true ∨ kvBlkIsInuse b c = true
  | _ => False

instance (c : Ctl) : ∀ i : IdxCall, Decidable (i.Drops c)
  | .setFresh b => inferInstanceAs (Decidable (kvBlkIsInuse b c = true))
  | .setBad b => inferInstanceAs (Decidable (kvBlkIsFresh b c = true ∨ kvBlkIsInuse b c = true))
  | .clear | .setWorkspace _ | .freeszSet _ _ | .freeszReduce _ _ | .setInuse _ | .setDirty _ | .setHanging _
  | .resetFresh _ | .resetInuse _ | .resetHanging _ => inferInstanceAs (Decidable False)

/-- No call of a record drops a flag when it is made. -/
def NeverDrops : Ctl → List IdxCall → Prop
  | _, [] => True
  | c, i :: is => ¬i.Drops c ∧ NeverDrops (i.run c) is

instance : ∀ (c : Ctl) (is : List IdxCall), Decidable (NeverDrops c is)
  | _, [] => inferInstanceAs (Decidable True)
  | c, i :: is =>
    have := instDecidableNeverDrops (i.run c) is
    inferInstanceAs (Decidable (¬i.Drops c ∧ NeverDrops (i.run c) is))

theorem NeverDrops.left {is js : List IdxCall} (h : NeverDrops c (is ++ js)) : NeverDrops c is := by
  induction is generalizing c with
  | nil => trivial
  | cons i is ih => exact ⟨h.1, ih h.2⟩

/-- The counters that choose the workspace are right. -/
structure Counted (G : Geo) (c : Ctl) : Prop where
  fresh : c.numFresh = numFlagged G Flags.fresh c
  inuse : c.numInuse = numFlagged G Flags.inuse c

/-- What a start-up may do after it has cleared the index. -/
def Scope.init (G : Geo) : Scope := ⟨{b | b ∈ G.blks}, Set.univ, {b | b ∈ G.blks}, Set.univ⟩

theorem Scope.Whole.init (G : Geo) : (Scope.init G).Whole G := ⟨fun _ hb => hb, rfl⟩

/-- A call that leaves a flag of every block as it is. -/
theorem numFlagged_run {p : Flags → Bool} {i : IdxCall} (h : ∀ b fl, p (i.flagsOf b fl) = p fl) :
    numFlagged G p (i.run c) = numFlagged G p c := by
  refine List.countP_congr fun b _ => ?_
  rw [flags_run, h]

/-- A call that changes the flags of one block of the area. -/
theorem numFlagged_run_at (p : Flags → Bool) {i : IdxCall} {b : ℕ} (hb : b ∈ G.blks)
    (h : ∀ x, x ≠ b → ∀ fl, i.flagsOf x fl = fl) :
    numFlagged G p (i.run c) + (p (kvBlkFlagsGet b c)).toNat =
      numFlagged G p c + (p (i.flagsOf b (kvBlkFlagsGet b c))).toNat := by
  refine Eq.trans ?_ (countP_update G.nodup_blks hb (fun x => kvBlkFlagsGet x c) p (i.flagsOf b (kvBlkFlagsGet b c)))
  congr 1
  refine List.countP_congr fun x _ => ?_
  rw [flags_run]
  by_cases hx : x = b
  · subst hx
    rw [Function.update_self]
  · rw [h x hx, Function.update_of_ne hx]

section Count
variable {i : IdxCall} (hi : i.In (.init G)) (hd : ¬i.Drops c)
include hi hd

theorem numFresh_run (h : c.numFresh = numFlagged G Flags.fresh c) :
    (i.run c).numFresh = numFlagged G Flags.fresh (i.run c) := by
  have hsame : ∀ j : IdxCall, (∀ x fl, (j.flagsOf x fl).fresh = fl.fresh) → (j.run c).numFresh = c.numFresh →
      (j.run c).numFresh = numFlagged G Flags.fresh (j.run c) := by
    intro j hfl hn
    rw [hn, h, numFlagged_run hfl]
  cases i with
  | clear => exact hi.elim
  | setFresh b =>
    have hat := numFlagged_run_at (c := c) (i := .setFresh b) Flags.fresh hi fun x hx fl => if_neg hx
    have hnew : (IdxCall.flagsOf b (kvBlkFlagsGet b c) (.setFresh b)).fresh = true := by rw [IdxCall.flagsOf, if_pos rfl]
    have hrun : (IdxCall.run c (.setFresh b)).numFresh =
        if (kvBlkFlagsGet b c).fresh then numFlagged G Flags.fresh c else inc16 (numFlagged G Flags.fresh c) := by
      rw [IdxCall.run, kvBlkSetFresh_eq, ← h]
      rfl
    have hup := count_up (c := c) hi Flags.fresh
    rw [hnew, Bool.toNat_true] at hat
    rw [hrun]
    omega
  | setBad b =>
    have hat := numFlagged_run_at (c := c) (i := .setBad b) Flags.fresh hi fun x hx fl => if_neg hx
    have hnew : (IdxCall.flagsOf b (kvBlkFlagsGet b c) (.setBad b)).fresh = false := by
      rw [IdxCall.flagsOf, if_pos rfl]
      rfl
    have hold : (kvBlkFlagsGet b c).fresh = false := Bool.eq_false_iff.mpr fun hf => hd (.inl hf)
    rw [hnew, hold] at hat
    exact h.trans (Nat.add_right_cancel hat).symm
  | resetFresh b =>
    have hat := numFlagged_run_at (c := c) (i := .resetFresh b) Flags.fresh hi fun x hx fl => if_neg hx
    have hnew : (IdxCall.flagsOf b (kvBlkFlagsGet b c) (.resetFresh b)).fresh = false := by
      rw [IdxCall.flagsOf, if_pos rfl]
    have hrun : (IdxCall.run c (.resetFresh b)).numFresh =
        if (kvBlkFlagsGet b c).fresh then dec16 (numFlagged G Flags.fresh c) else numFlagged G Flags.fresh c := by
      rw [IdxCall.run, kvBlkResetFresh_eq, ← h]
      rfl
    have hdown := count_down (c := c) hi Flags.fresh
    rw [hnew, Bool.toNat_false] at hat
    rw [hrun]
    omega
  | setInuse b => exact hsame _ (fun x fl => by rw [IdxCall.flagsOf]; split <;> rfl) (by rw [IdxCall.run, kvBlkSetInuse_eq]; rfl)
  | setHanging b =>
    exact hsame _ (fun x fl => by rw [IdxCall.flagsOf]; split <;> rfl) (by rw [IdxCall.run, kvBlkSetHanging_eq]; rfl)
  | resetInuse b =>
    exact hsame _ (fun x fl => by rw [IdxCall.flagsOf]; split <;> rfl) (by rw [IdxCall.run, kvBlkResetInuse_eq]; rfl)
  | resetHanging b =>
    exact hsame _ (fun x fl => by rw [IdxCall.flagsOf]; split <;> rfl) (by rw [IdxCall.run, kvBlkResetHanging_eq]; rfl)
  | setDirty b => exact hsame _ (fun x fl => by rw [IdxCall.flagsOf]; split <;> rfl) rfl
  | _ => exact hsame _ (fun _ _ => rfl) rfl

theorem numInuse_run (h : c.numInuse = numFlagged G Flags.inuse c) :
    (i.run c).numInuse = numFlagged G Flags.inuse (i.run c) := by
  have hsame : ∀ j : IdxCall, (∀ x fl, (j.flagsOf x fl).inuse = fl.inuse) → (j.run c).numInuse = c.numInuse →
      (j.run c).numInuse = numFlagged G Flags.inuse (j.run c) := by
    intro j hfl hn
    rw [hn, h, numFlagged_run hfl]
  -- the flag goes away where it was not counted
  have hgone : ∀ (j : IdxCall) (b : ℕ), b ∈ G.blks → (∀ x, x ≠ b → ∀ fl, j.flagsOf x fl = fl) →
      (j.flagsOf b (kvBlkFlagsGet b c)).inuse = false → (kvBlkFlagsGet b c).inuse = false →
      (j.run c).numInuse = c.numInuse → (j.run c).numInuse = numFlagged G Flags.inuse (j.run c) := by
    intro j b hb hother hnew hold hn
    have hat := numFlagged_run_at (c := c) Flags.inuse hb hother
    rw [hnew, hold] at hat
    rw [hn, h, Nat.add_right_cancel hat]
  cases i with
  | clear => exact hi.elim
  | setFresh b =>
    refine hgone _ b hi (fun x hx fl => if_neg hx) ?_ (Bool.eq_false_iff.mpr hd) (by rw [IdxCall.run, kvBlkSetFresh_eq]; rfl)
    rw [IdxCall.flagsOf, if_pos rfl]
    rfl
  | setBad b =>
    refine hgone _ b hi (fun x hx fl => if_neg hx) ?_ (Bool.eq_false_iff.mpr fun hf => hd (.inr hf)) rfl
    rw [IdxCall.flagsOf, if_pos rfl]
    rfl
  | setInuse b =>
    have hat := numFlagged_run_at (c := c) (i := .setInuse b) Flags.inuse hi fun x hx fl => if_neg hx
    have hnew : (IdxCall.flagsOf b (kvBlkFlagsGet b c) (.setInuse b)).inuse = true := by rw [IdxCall.flagsOf, if_pos rfl]
    have hrun : (IdxCall.run c (.setInuse b)).numInuse =
        if (kvBlkFlagsGet b c).inuse then numFlagged G Flags.inuse c else inc16 (numFlagged G Flags.inuse c) := by
      rw [IdxCall.run, kvBlkSetInuse_eq, ← h]
      rfl
    have hup := count_up (c := c) hi Flags.inuse
    rw [hnew, Bool.toNat_true] at hat
    rw [hrun]
    omega
  | resetInuse b =>
    have hat := numFlagged_run_at (c := c) (i := .resetInuse b) Flags.inuse hi fun x hx fl => if_neg hx
    have hnew : (IdxCall.flagsOf b (kvBlkFlagsGet b c) (.resetInuse b)).inuse = false := by
      rw [IdxCall.flagsOf, if_pos rfl]
    have hrun : (IdxCall.run c (.resetInuse b)).numInuse =
        if (kvBlkFlagsGet b c).inuse then dec16 (numFlagged G Flags.inuse c) else numFlagged G Flags.inuse c := by
      rw [IdxCall.run, kvBlkResetInuse_eq, ← h]
      rfl
    have hdown := count_down (c := c) hi Flags.inuse
    rw [hnew, Bool.toNat_false] at hat
    rw [hrun]
    omega
  | setHanging b =>
    exact hsame _ (fun x fl => by rw [IdxCall.flagsOf]; split <;> rfl) (by rw [IdxCall.run, kvBlkSetHanging_eq]; rfl)
  | resetFresh b =>
    exact hsame _ (fun x fl => by rw [IdxCall.flagsOf]; split <;> rfl) (by rw [IdxCall.run, kvBlkResetFresh_eq]; rfl)
  | resetHanging b =>
    exact hsame _ (fun x fl => by rw [IdxCall.flagsOf]; split <;> rfl) (by rw [IdxCall.run, kvBlkResetHanging_eq]; rfl)
  | setDirty b => exact hsame _ (fun x fl => by rw [IdxCall.flagsOf]; split <;> rfl) rfl
  | _ => exact hsame _ (fun _ _ => rfl) rfl

end Count

/-- While no counted flag is dropped, the counters stay right. -/
theorem Made.counted {is : List IdxCall} (h : Made (.init G) s t) (hs : Counted G s.ctl) (hc : t.calls = s.calls ++ is)
    (hn : NeverDrops s.ctl is) : Counted G t.ctl := by
  obtain ⟨-, js, hc', hr, hin⟩ := h
  obtain rfl : is = js := List.append_cancel_left (hc.symm.trans hc')
  rw [hr]
  clear hr hc hc'
  generalize s.ctl = c at hs hn
  induction is generalizing c with
  | nil => exact hs
  | cons i is ih =>
    have hi := hin i List.mem_cons_self
    exact ih (fun j hj => hin j (List.mem_cons_of_mem i hj)) _
      ⟨numFresh_run hi hn.1 hs.fresh, numInuse_run hi hn.1 hs.inuse⟩ hn.2

/-! ### Start-up -/

/-- Right counters lead the search for the workspace to a block. -/
theorem Counted.located (h : Counted G c) (hw : kvNoWriteableBlk c = false) : ∃ b ∈ G.blks, located G c = some b := by
  cases hl : Kv.located G c with
  | some b => exact ⟨b, List.mem_of_find?_eq_some hl, rfl⟩
  | none =>
    have hnone := List.find?_eq_none.mp hl
    have hno : c.numInuse ≠ 0 ∨ c.numFresh ≠ 0 := by
      have := Bool.eq_false_iff.mp hw
      unfold kvNoWriteableBlk at this
      simp only [ne_eq, decide_eq_true_eq] at this
      omega
    by_cases hu : c.numInuse = 0
    · simp only [hu, if_true] at hnone
      have hzero : numFlagged G Flags.fresh c = 0 := List.countP_eq_zero.mpr hnone
      rw [← h.fresh] at hzero
      exact absurd hzero (hno.resolve_left fun h => h hu)
    · simp only [hu, if_false] at hnone
      have hzero : numFlagged G Flags.inuse c = 0 := List.countP_eq_zero.mpr hnone
      rw [← h.inuse] at hzero
      exact absurd hzero hu

/-- The helper calls of a start-up, after the index is cleared. -/
def initCalls (G : Geo) (E : Env) (s : St) : List IdxCall := (lnKvInit G E s).2.calls.drop (s.calls.length + 1)

theorem counted_zero : Counted G .zero := ⟨counters_zero.fresh, counters_zero.inuse⟩

/-- A start-up that succeeds and drops no counted flag leaves a block of the area as the workspace. -/
theorem lnKvInit_workspace (hnone : (lnKvInit G E s).1 = .none) (hn : NeverDrops .zero (initCalls G E s)) :
    (lnKvInit G E s).2.ctl.workspace ∈ G.blks := by
  have hinit : wp (lnKvInit G E) (fun r t => r = .none →
      NeverDrops .zero (t.calls.drop (s.calls.length + 1)) → t.ctl.workspace ∈ G.blks) s := by
    have hdrop : ∀ is : List IdxCall, ((s.calls ++ [IdxCall.clear]) ++ is).drop (s.calls.length + 1) = is :=
      fun is => List.drop_left' (by simp)
    refine wp_lnKvInit_made (.init G) (fun _ hb => hb) s (fun t r hr _ h => absurd h hr) fun t ht => ?_
    have hcounted : ∀ {u : St}, Made (.init G) t u → NeverDrops .zero (u.calls.drop (s.calls.length + 1)) →
        Counted G u.ctl := by
      intro u hu hd
      have hsu := ht.trans hu
      obtain ⟨-, is, hc, -, -⟩ := id hsu
      rw [show u.calls = _ from hc, hdrop] at hd
      exact hsu.counted counted_zero hc hd
    refine made_kvMgrWorkspaceLocate (.init G) t (fun u _ _ => nofun) (fun u hu hw hl _ hd => ?_)
      fun u b hu hw hl _ _ => List.mem_of_find?_eq_some hl
    obtain ⟨b, -, hb⟩ := (hcounted hu hd).located hw
    rw [hb] at hl
    cases hl
  exact hinit hnone hn

/-! ### Runs after a start-up -/

/-- The states of a run after a start-up that succeeded and dropped no counted flag: each step is
a part of a public call, the search for a block with any number of rounds. -/
inductive Reached (G : Geo) (E : Env) : St → Prop
  | init {s : St} (hnone : (lnKvInit G E s).1 = .none) (hn : NeverDrops .zero (initCalls G E s)) :
    Reached G E (lnKvInit G E s).2
  | find {s : St} (key : Bytes) (hs : Reached G E s) : Reached G E (kvItemFind G E key s).2
  | search {s : St} (itemSize n : ℕ) (hw : s.ctl.workspace ≠ kvBlkInvalid) (hs : Reached G E s) :
    Reached G E (kvBlkSearchLoop G E itemSize n s).2
  | moved {s : St} (item : KvItem) (hs : Reached G E s) : Reached G E (kvItemIsMoved E item s).2
  | fix {s : St} (item : KvItem) (hs : Reached G E s) : Reached G E (kvItemFix G E item s).2
  | save {s : St} (k v : Bytes) (blk prevPos : ℕ) (hs : Reached G E s) :
    Reached G E (kvItemSaveAt E k v blk prevPos s).2
  | delete {s : St} (item : KvItem) (hs : Reached G E s) : Reached G E (kvItemDelete G E item s).2

/-- The workspace is a block of the area, or marks that none is left. -/
def WorkspaceOk (G : Geo) (c : Ctl) : Prop := c.workspace = kvBlkInvalid ∨ c.workspace ∈ G.blks

theorem nextFresh_ok (hws : c.workspace ∈ G.blks) : kvBlkNextFresh G c = kvBlkInvalid ∨ kvBlkNextFresh G c ∈ G.blks := by
  by_cases h : kvBlkNextFresh G c = kvBlkInvalid
  · exact .inl h
  · exact .inr (nextFresh_mem hws h)

theorem wp_kvBlkSearchLoop_workspace (itemSize n : ℕ) (hws : s.ctl.workspace ∈ G.blks) :
    wp (kvBlkSearchLoop G E itemSize n) (fun _ t => WorkspaceOk G t.ctl) s := by
  induction n generalizing s with
  | zero => exact .inr hws
  | succ n ih =>
    unfold kvBlkSearchLoop
    apply wp_getCtl
    refine wp.ite (fun _ => .inr hws) fun _ => wp.ite (fun hne => ?_) fun _ => wp.ite (fun _ => .inr hws) fun _ =>
      wp.ite (fun _ => nextFresh_ok hws) fun _ => ?_
    · rcases Geo.ringSearch_spec
        (p := fun blk => kvBlkIsInuse blk s.ctl && decide (kvBlkFreeszGet blk s.ctl ≥ itemSize)) hws with
        ⟨hinv, -⟩ | ⟨hmem, -, -⟩
      · exact absurd hinv hne
      · exact .inr hmem
    · refine (wp_kvGc_uses hws).bind ?_
      rintro e t ⟨hwt, -⟩
      exact wp.ite (fun _ => nextFresh_ok hwt) fun _ => ih hwt

theorem WorkspaceOk.made (h : WorkspaceOk G s.ctl) (hm : Made (.gc Set.univ) s t) : WorkspaceOk G t.ctl := by
  unfold WorkspaceOk
  rw [hm.workspace rfl]
  exact h

theorem Reached.workspaceOk (h : Reached G E s) : WorkspaceOk G s.ctl := by
  have hall : ∀ b, b ∈ (Scope.gc Set.univ).entry := Set.mem_univ
  induction h with
  | init hnone hn => exact .inr (lnKvInit_workspace hnone hn)
  | find key hs ih => exact ih.made (makes_kvItemFind (whole_gc G) key _)
  | search itemSize n hw hs ih => exact wp_kvBlkSearchLoop_workspace itemSize n (ih.resolve_left hw)
  | moved item hs ih => exact ih.made (makes_kvItemIsMoved item _)
  | fix item hs ih => exact ih.made (makes_kvItemFix (whole_gc G) item _)
  | save k v blk prevPos hs ih => exact ih.made (makes_kvItemSaveAt (hall blk) k v prevPos _)
  | delete item hs ih => exact ih.made (makes_kvItemDeleteAux ((whole_gc G).mem_dirty _) _)

/-- Saving an item is made of steps of a run. -/
theorem Reached.itemSave (h : Reached G E s) (k v : Bytes) (prev : Option KvItem) :
    wp (kvItemSave G E k v prev) (fun _ t => Reached G E t) s := by
  have hat : ∀ (b p : ℕ) (r : Option KvItem) (t : St), Reached G E t →
      wp (do return (← kvItemSaveAt E k v b p, r) : K (KvErr × Option KvItem)) (fun _ t => Reached G E t) t :=
    fun b p r t ht => ht.save k v b p
  have hsuit : wp (kvBlkSearchSuitable G E (kvItemSize k.length v.length)) (fun _ t => Reached G E t) s := by
    apply wp_getCtl
    exact wp.ite (fun _ => h) fun _ => wp.ite (fun _ => h) fun hw => h.search _ _ hw
  refine hsuit.bind fun b t ht => wp.ite (fun _ => ht) fun _ => ?_
  cases prev with
  | none => exact hat _ _ _ t ht
  | some item =>
    have hmoved : wp (kvItemIsMoved E item) (fun _ u => Reached G E u) t := ht.moved item
    refine hmoved.bind fun m u hu => wp.ite (fun _ => ?_) fun _ => hat _ _ _ u hu
    have hfix : wp (kvItemFix G E item) (fun _ v => Reached G E v) u := hu.fix item
    refine hfix.bind fun r w hw => ?_
    cases r with
    | error e => exact hw
    | ok item => exact hat _ _ _ w hw

/-- Every public call but a start-up is made of steps of a run. -/
theorem Reached.call (h : Reached G E s) {c : Call} (hc : c ≠ .init) : Reached G E (c.run G E s).2 := by
  have hfind : ∀ key, wp (kvItemFind G E key) (fun _ t => Reached G E t) s := fun key => h.find key
  cases c with
  | init => exact absurd rfl hc
  | set key value =>
    have hset : wp (lnKvSet G E key value) (fun _ t => Reached G E t) s := by
      refine wp.ite (fun _ => h) fun _ => (hfind key).bind fun r t ht => ?_
      cases r with
      | none => exact (ht.itemSave _ _ _).bind fun _ u hu => hu
      | some item =>
        refine wp.ite (fun _ => ht) fun _ => (ht.itemSave _ _ _).bind fun r u hu => ?_
        split
        · exact hu.delete _
        · exact hu
    exact hset
  | get key n =>
    have hget : wp (lnKvGet G E key n) (fun _ t => Reached G E t) s := by
      refine wp.ite (fun _ => h) fun _ => (hfind key).bind fun r t ht => ?_
      cases r with
      | none => exact ht
      | some item => exact wp.ite (fun _ => ht) fun _ => ht
    exact hget
  | hasKey key =>
    have hhas : wp (lnKvHasKey G E key) (fun _ t => Reached G E t) s :=
      wp.ite (fun _ => h) fun _ => (hfind key).bind fun _ t ht => ht
    exact hhas
  | del key =>
    have hdel : wp (lnKvDel G E key) (fun _ t => Reached G E t) s := by
      refine wp.ite (fun _ => h) fun _ => (hfind key).bind fun r t ht => ?_
      cases r with
      | none => exact ht
      | some item => exact ht.delete item
    exact hdel

/-- The index in each of the ring loops of a round of the search: before and after the rebuild of
`kv_gc`, and after a `kv_gc` that failed. -/
def ringIndexes (G : Geo) (E : Env) (s : St) : List Ctl :=
  [s.ctl, (if s.ctl.numHanging > 0 then (kvMgrBlkIndexRebuild G E s).2 else s).ctl, (kvGc G E s).2.ctl]

theorem ringIndexes_workspace (hws : s.ctl.workspace ∈ G.blks) (hc : c ∈ ringIndexes G E s) : c.workspace ∈ G.blks := by
  simp only [ringIndexes, List.mem_cons, List.not_mem_nil, or_false] at hc
  rcases hc with rfl | rfl | rfl
  · exact hws
  · split_ifs
    · have hmade := makes_kvMgrBlkIndexRebuild (G := G) (E := E) (whole_gc G) s
      rw [Made.workspace hmade rfl]
      exact hws
    · exact hws
  · exact (wp_kvGc_uses hws).1

/-- In every run whose start-up dropped no counted flag: the loops of the store end. The ring
loops start from blocks of the area in every round of a search, the search ends unless a hanging
block meets failures that never end, and every walk of every block ends. -/
theorem loops_end (G : Geo) (E : Env) (s : St) (hs : Reached G E s) (E' : Env) (itemSize : ℕ)
    (hw : s.ctl.workspace ≠ kvBlkInvalid) :
    ((∀ b ∈ G.blks, kvBlkIsHanging b s.ctl = false) ∨ (∃ N, E'.Silent N) →
        Ends (roundOf (kvBlkSearchBody G E' itemSize)) ((), s)) ∧
      (∀ t, Heads (roundOf (kvBlkSearchBody G E' itemSize)) ((), s) ((), t) → ∀ c ∈ ringIndexes G E' t,
        c.workspace ∈ G.blks ∧ ∀ p, EndsIn (G.ringStep p c.workspace) G.blocks (G.next c.workspace)) ∧
      ∀ ph blk walker t, EndsIn (roundOf (kvItemWalkBody G E' ph blk walker)) 171 (kvBlkFirstItem blk, t) := by
  have hws := hs.workspaceOk.resolve_left hw
  refine ⟨fun hfail => ?_, fun t ht c hc => ?_, fun ph blk walker t => walk_ends t⟩
  · rcases hfail with hno | ⟨N, hN⟩
    · exact search_ends_settled hws hno
    · exact search_ends_silent hws hN
  · have hmem := ringIndexes_workspace (search_heads hws ht) hc
    exact ⟨hmem, fun p => Geo.ring_ends hmem p⟩

/-- Two sectors. -/
def twoBlocks : Geo := ⟨0x1000, 2, by decide, by decide, Nat.mod_self _, by decide⟩

/-- The item at the start of the second block names the item in the middle of the first, behind
a blank slot, as the one it replaced. -/
def strayItem : Flash := applyAll
  [.program 0x1000 Blk.formatted.head, .program 0x1100 (Slot.image ⟨⟨kvChecksumCrc8 [1, 2], [1], [2], 0⟩, false, true⟩),
    .program 0x2000 Blk.formatted.head,
    .program 0x2020 (Slot.image ⟨⟨kvChecksumCrc8 [1, 3], [1], [3], 0x1100⟩, false, true⟩)] fun _ => 0xFF

/-- The allocations of index builds fail from call `m` on, the driver from call `d` on. -/
def failingFrom (m d : ℕ) : Env :=
  ⟨fun ph n => !decide (ph = .build ∧ m ≤ n), fun n => if d ≤ n then some id else none⟩

/-- The second block is left hanging, and a later search meets one more failure. -/
theorem loops_end_hanging :
    Ends (roundOf (kvBlkSearchBody twoBlocks ⟨fun _ n => n ≠ 20, fun _ => none⟩ 26))
      ((), (lnKvInit twoBlocks (failingFrom 3 100) (.on strayItem)).2) := by
  have hsilent : Env.Silent ⟨fun _ n => n ≠ 20, fun _ => none⟩ 21 := by
    intro k hk
    exact ⟨fun _ => decide_eq_true (by omega), rfl⟩
  have hreached : Reached twoBlocks (failingFrom 3 100) (lnKvInit twoBlocks (failingFrom 3 100) (.on strayItem)).2 :=
    .init (by decide +kernel) (by decide +kernel)
  exact (loops_end twoBlocks _ _ hreached ⟨fun _ n => n ≠ 20, fun _ => none⟩ 26 (by decide +kernel)).1 (.inr ⟨21, hsilent⟩)

/-- The first block is collected into itself; erasing it fails and the FRESH flag is overwritten
without being counted down. The start-up reports success, no workspace is found, and the next
search for a block goes round for ever. -/
theorem ring_never_ends :
    (lnKvInit twoBlocks (failingFrom 11 19) (.on strayItem)).1 = .none ∧
      kvNoWriteableBlk (lnKvInit twoBlocks (failingFrom 11 19) (.on strayItem)).2.ctl = false ∧
      (lnKvInit twoBlocks (failingFrom 11 19) (.on strayItem)).2.ctl.workspace = 0 ∧ 0 ∉ twoBlocks.blks ∧
      ¬Ends (twoBlocks.ringStep (fun blk =>
        kvBlkIsInuse blk (lnKvInit twoBlocks (failingFrom 11 19) (.on strayItem)).2.ctl &&
          decide (kvBlkFreeszGet blk (lnKvInit twoBlocks (failingFrom 11 19) (.on strayItem)).2.ctl ≥ 26)) 0)
        (twoBlocks.next 0) := by
  refine ⟨by decide +kernel, by decide +kernel, by decide +kernel, by decide, ?_⟩
  have h1 : kvBlkIsInuse 0x1000 (lnKvInit twoBlocks (failingFrom 11 19) (.on strayItem)).2.ctl = false := by decide +kernel
  have h2 : kvBlkIsInuse 0x2000 (lnKvInit twoBlocks (failingFrom 11 19) (.on strayItem)).2.ctl = false := by decide +kernel
  generalize (lnKvInit twoBlocks (failingFrom 11 19) (.on strayItem)).2.ctl = c at h1 h2
  refine not_ends (I := fun cur => cur = 0x1000 ∨ cur = 0x2000) ?_ (.inl (by decide))
  rintro cur (rfl | rfl)
  · refine ⟨0x2000, ?_, .inr rfl⟩
    rw [Geo.ringStep, if_neg (by decide), h1, Bool.false_and, if_neg Bool.false_ne_true,
      show twoBlocks.next 0x1000 = 0x2000 by decide]
  · refine ⟨0x1000, ?_, .inl rfl⟩
    rw [Geo.ringStep, if_neg (by decide), h2, Bool.false_and, if_neg Bool.false_ne_true,
      show twoBlocks.next 0x2000 = 0x1000 by decide]

end Ln882x.Kv
