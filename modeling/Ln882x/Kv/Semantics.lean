import Ln882x.Kv.Runs

/-! The store as a map, over whole runs from an erased area. A get returns the
value of the last set of its key that succeeded, unless a delete succeeded since.
A set that collects blocks may be deceived about the item it replaces: if a second
collection puts the very bytes of that item where it was, as part of a value, the
discard mark is written into that value and both copies stay. As long as no set
of a run meets such bytes, every answer of the run is right. -/

namespace Ln882x.Kv

open Nor

variable {G : Geo} {E : Env} {x : Bool} {L : ℕ → Blk} {s : St} {f : Flash} {m : Bytes → Option Bytes} {key value : Bytes}

/-! ### The index after a search -/

/-- The index when `kv_item_find` is done: the blocks before the one with the key are settled. -/
def foundCtl (L : ℕ → Blk) (key : Bytes) : List ℕ → Ctl → Ctl
  | [], c => c
  | b :: bs, c =>
    if kvBlkIsFresh b c then foundCtl L key bs c
    else if (L b).liveItems.any (·.key = key) then c
    else foundCtl L key bs (settle (L b) b c)

theorem wp_kvItemSearch_ctl (hd : E.DrvOk) (hm : E.MallocOk .find) {bs : List ℕ} (hbs : ∀ b ∈ bs, b ∈ G.blks)
    (h : Core G x L s) : wp (kvItemSearch (kvItemDoFind G E · key) bs) (fun _ t => t.ctl = foundCtl L key bs s.ctl) s := by
  induction bs generalizing s with
  | nil => exact wp.pure rfl
  | cons b bs ih =>
    have hb := hbs b (by simp)
    have hrest := fun y hy => hbs y (List.mem_cons_of_mem b hy)
    unfold kvItemSearch
    apply wp_getCtl
    have hbad : kvBlkIsBad b s.ctl = false := (h.idx.blk b hb).bad
    rw [hbad, Bool.false_or]
    apply wp.ite
    · intro hfresh
      rw [foundCtl, if_pos hfresh]
      exact ih hrest h
    · intro hfresh
      rw [foundCtl, if_neg hfresh]
      have hnf : kvBlkIsFresh b s.ctl = false := by simpa using hfresh
      unfold kvItemDoFind
      apply wp.bind (P := fun r t => Dev.Still s.dev t.dev ∧ ∃ e, searched L E .find (fun it => it.key = key) b s.ctl t.ctl (e, r))
      · apply wp.bind (wp_lookup hd (looks_kvItemDoFetch hd key) h hb)
        rintro r t ⟨hst, hr⟩
        rcases id hr with ⟨pre, it, post, -, -, rfl, -⟩ | ⟨rfl, -⟩ | ⟨rfl, -⟩
        · exact wp.pure ⟨hst, .none, hr⟩
        · exact wp.pure ⟨hst, .none, hr⟩
        · exact wp.pure ⟨hst, .outOfMemory, hr⟩
      rintro r t ⟨hst, e, hr⟩
      rcases hr with ⟨pre, it, post, hsl, hkey, hr, hc⟩ | ⟨hr, hno, hc⟩ | ⟨-, hbad, -⟩
      · obtain ⟨-, rfl⟩ := Prod.mk.inj hr
        have hany : (L b).liveItems.any (·.key = key) = true := by
          rw [List.any_eq_true]
          exact ⟨it, Blk.mem_liveItems.mpr (by simp [hsl]), by simpa using hkey⟩
        rw [if_pos hany]
        exact wp.pure hc
      · obtain ⟨-, rfl⟩ := Prod.mk.inj hr
        have hany : ¬ (L b).liveItems.any (·.key = key) = true := by
          rw [List.any_eq_true]
          rintro ⟨it, hit, hk⟩
          exact hno it hit (by simpa using hk)
        rw [if_neg hany, ← hc]
        have hset : Settles G L s.ctl t.ctl := by
          rw [hc]
          exact .step hb hnf (.refl _)
        exact ih hrest (h.still hst hset)
      · exact absurd hm hbad

theorem kvItemFind_ctl (hd : E.DrvOk) (hm : E.MallocOk .find) (h : Core G x L s) :
    (kvItemFind G E key s).2.ctl = foundCtl L key G.blks s.ctl :=
  wp_kvItemSearch_ctl hd hm (fun _ hb => hb) h

/-! ### What the calls should answer -/

/-- Keys and items of the sizes that the store is for. -/
def Admissible : Call → Prop
  | .init => False
  | .set key value => Fits key value
  | .get key _ | .hasKey key | .del key => 0 < key.length ∧ key.length < 0xFF

/-- The map after a call, as its reply tells; an error changes nothing. -/
def mapAfter (m : Bytes → Option Bytes) : Call → Reply → Bytes → Option Bytes
  | .set key value, .code .none => Function.update m key (some value)
  | .del key, .code .none => Function.update m key none
  | _, _ => m

/-- The reply of a lookup is what the map says. -/
def Call.Right (m : Bytes → Option Bytes) : Call → Reply → Prop
  | .get key n, r => r = match m key with
    | none => .data .notExist []
    | some v => if n < v.length then .data .bufTooShort [] else .data .none v
  | .hasKey key, r => r = .flag (m key).isSome
  | _, _ => True

/-- Every lookup of a run is right. -/
def AllRight (G : Geo) : (Bytes → Option Bytes) → List Call → St → Prop
  | _, [], _ => True
  | m, c :: cs, s => c.Right m (c.run G .good s).1 ∧
      AllRight G (mapAfter m c (c.run G .good s).1) cs (c.run G .good s).2

/-- The map after a run, as its replies tell. -/
def mapAfterAll (G : Geo) : (Bytes → Option Bytes) → List Call → St → Bytes → Option Bytes
  | m, [], _ => m
  | m, c :: cs, s => mapAfterAll G (mapAfter m c (c.run G .good s).1) cs (c.run G .good s).2

theorem AllRight.behind {xs ys : List Call} (h : AllRight G m (xs ++ ys) s) :
    AllRight G (mapAfterAll G m xs s) ys (runCalls G .good xs s).2 := by
  induction xs generalizing m s with
  | nil => exact h
  | cons c cs ih => exact ih h.2

/-- No collection of a set puts a copy of the item that is replaced where that was. -/
def TakesNoCopy (G : Geo) (s : St) : Call → Prop
  | .set key value => NoAlias G .good (blksOf s.dev.flash) (foundCtl (blksOf s.dev.flash) key G.blks s.ctl) key
      (kvItemSize key.length value.length)
  | _ => True

def TakeNoCopies (G : Geo) : List Call → St → Prop
  | [], _ => True
  | c :: cs, s => TakesNoCopy G s c ∧ TakeNoCopies G cs (c.run G .good s).2

/-! ### Runs -/

theorem setOk_of_noAlias (h : Running G false m s) (hfits : Fits key value)
    (hno : TakesNoCopy G s (.set key value)) : SetOk G .good false s key value where
  fits := hfits
  gc := good_mallocOk _
  find := .inl (good_mallocOk _)
  noAlias := by
    rw [kvItemFind_ctl good_drvOk (good_mallocOk _) h.core]
    exact hno
  live := fun hx => absurd hx Bool.false_ne_true

/-- One call answers as the map, and leaves a store with the map that its reply tells. -/
theorem Running.step (h : Running G false m s) {c : Call} (hadm : Admissible c) (hno : TakesNoCopy G s c) :
    c.Right m (c.run G .good s).1 ∧ Running G false (mapAfter m c (c.run G .good s).1) (c.run G .good s).2 := by
  cases c with
  | init => cases hadm
  | set key value =>
    refine ⟨trivial, ?_⟩
    have hset : wp (lnKvSet G .good key value) _ s := h.wp_lnKvSet good_drvOk (setOk_of_noAlias h hadm hno)
    show Running G false (mapAfter m _ (.code (lnKvSet G .good key value s).1)) (lnKvSet G .good key value s).2
    rw [wp_iff] at hset
    generalize (lnKvSet G .good key value s).1 = r at hset
    cases r <;> exact hset
  | get key n =>
    have hget : wp (lnKvGet G .good key n) _ s := h.wp_lnKvGet good_drvOk (good_mallocOk _) hadm.2 n
    rw [wp_iff] at hget
    refine ⟨?_, hget.1⟩
    show Reply.data (lnKvGet G .good key n s).1.1 (lnKvGet G .good key n s).1.2 = _
    rw [hget.2]
    cases m key with
    | none => rfl
    | some v =>
      by_cases hn : n < v.length
      · simp only [if_pos hn]
      · simp only [if_neg hn]
  | hasKey key =>
    have hkey : wp (lnKvHasKey G .good key) _ s := h.wp_lnKvHasKey good_drvOk (good_mallocOk _) hadm.2
    rw [wp_iff] at hkey
    exact ⟨congrArg Reply.flag hkey.2, hkey.1⟩
  | del key =>
    refine ⟨trivial, ?_⟩
    have hdel : wp (lnKvDel G .good key) _ s := h.wp_lnKvDel good_drvOk (good_mallocOk _) hadm.2
    rw [wp_iff] at hdel
    show Running G false (mapAfter m _ (.code (lnKvDel G .good key s).1)) (lnKvDel G .good key s).2
    obtain ⟨hrun, hr⟩ := hdel
    rw [hr]
    cases hm : m key with
    | none =>
      rw [← hm, Function.update_eq_self] at hrun
      exact hrun
    | some v => exact hrun

theorem Running.allRight (h : Running G false m s) {calls : List Call} (hadm : ∀ c ∈ calls, Admissible c)
    (hno : TakeNoCopies G calls s) : AllRight G m calls s := by
  induction calls generalizing m s with
  | nil => trivial
  | cons c cs ih =>
    obtain ⟨hright, hrun⟩ := h.step (hadm c List.mem_cons_self) hno.1
    exact ⟨hright, ih hrun (fun d hd => hadm d (List.mem_cons_of_mem c hd)) hno.2⟩

/-- A call that is harmless by the conditions of `CallOk` takes no copy. -/
theorem takesNoCopy_of_callOk (h : Running G false m s) {c : Call} (hadm : Admissible c) (hc : CallOk G s c) :
    TakesNoCopy G s c := by
  cases c with
  | set key value =>
    obtain ⟨hpos, hlt, hval, hsize⟩ := hadm
    rcases hc with hlong | hlong | hok
    · omega
    · simp only [kvItemSize, kvItemHdrSize, kvBlkFreshSize, kvBlkSize, kvBlkHdrSize] at hsize
      omega
    · have hno := hok.noAlias
      rw [kvItemFind_ctl good_drvOk (good_mallocOk _) h.core] at hno
      exact hno
  | init | get | hasKey | del => trivial

theorem takeNoCopies_of_callsOk (h : Running G false m s) {calls : List Call} (hadm : ∀ c ∈ calls, Admissible c)
    (hc : CallsOk G calls s) : TakeNoCopies G calls s := by
  induction calls generalizing m s with
  | nil => trivial
  | cons c cs ih =>
    have hno := takesNoCopy_of_callOk h (hadm c List.mem_cons_self) hc.1
    have hrun := (h.step (hadm c List.mem_cons_self) hno).2
    exact ⟨hno, ih hrun (fun d hd => hadm d (List.mem_cons_of_mem c hd)) hc.2⟩

theorem AreaErased.started (hf : AreaErased G f) : Running G false (fun _ => none) (lnKvInit G .good (.on f)).2 := by
  have hinit : wp (lnKvInit G .good) _ (St.on f) :=
    AreaErased.wp_lnKvInit hf good_drvOk (good_mallocOk _) (good_mallocOk _) (good_mallocOk _)
  exact hinit.1.loose

/-- In every run from an erased area whose sets take no copies, every lookup is right. -/
theorem lookups_right (G : Geo) (f : Flash) (hf : AreaErased G f) (calls : List Call) (hadm : ∀ c ∈ calls, Admissible c)
    (hno : TakeNoCopies G calls (lnKvInit G .good (.on f)).2) :
    (lnKvInit G .good (.on f)).1 = .none ∧ AllRight G (fun _ => none) calls (lnKvInit G .good (.on f)).2 := by
  have hinit : wp (lnKvInit G .good) _ (St.on f) :=
    AreaErased.wp_lnKvInit hf good_drvOk (good_mallocOk _) (good_mallocOk _) (good_mallocOk _)
  exact ⟨hinit.2.1, hf.started.allRight hadm hno⟩

theorem lookups_right_setTwice : (lnKvInit threeBlocks .good (.on fun _ => 0xFF)).1 = .none ∧
    AllRight threeBlocks (fun _ => none) (setTwice ++ [.get [1] 1]) (lnKvInit threeBlocks .good (.on fun _ => 0xFF)).2 := by
  have hadm : ∀ c ∈ setTwice ++ [.get [1] 1], Admissible c := by
    refine List.forall_mem_cons.mpr ⟨⟨?_, ?_, ?_, ?_⟩, List.forall_mem_cons.mpr ⟨⟨?_, ?_, ?_, ?_⟩,
      List.forall_mem_singleton.mpr ⟨?_, ?_⟩⟩⟩
    all_goals decide
  have hc : CallsOk threeBlocks (setTwice ++ [.get [1] 1]) (lnKvInit threeBlocks .good (.on fun _ => 0xFF)).2 := by
    refine ⟨.inr (.inr (setOk_of_room ⟨?_, ?_, ?_, ?_⟩ ?_)), .inr (.inr (setOk_of_room ⟨?_, ?_, ?_, ?_⟩ ?_)), trivial, trivial⟩
    all_goals decide +kernel
  exact lookups_right threeBlocks _ threeBlocks_erased _ hadm (takeNoCopies_of_callsOk threeBlocks_erased.started hadm hc)

end Ln882x.Kv
