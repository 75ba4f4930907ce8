import Ln882x.Hal.Program
import Ln882x.Nor.Trace

/-! Driver calls as the chip sees them. A program that drives the flash makes calls of
`FLASH_Program` and `FLASH_Erase`; each is a list of transactions, and the chip carries
out a page program or a unit erase for two of them. When the power is cut between two
transactions the chip holds what some of the calls and a part of the next one left: a
part that has touched nothing outside the range of its call. -/

namespace Ln882x.Hal

open Nor

/-- The transactions of a driver call. -/
def opTransactions : Op → Option (List Transaction)
  | .program addr data => flashProgram addr data.length data
  | .erase addr len => flashErase addr len

/-- The transactions of calls one after another. -/
def sent : List Op → Option (List Transaction)
  | [] => some []
  | o :: ops => do
    let ts ← opTransactions o
    let us ← sent ops
    return ts ++ us

/-- The call stays inside the device; an erase is of whole sectors. -/
def InDevice : Op → Prop
  | .program addr data => addr < falshSizeMax ∧ addr + data.length ≤ falshSizeMax
  | .erase addr len => falshSize4K ∣ addr ∧ falshSize4K ∣ len ∧ addr + len ≤ falshSizeMax

/-- What the chip carries out for a call. -/
def carriedOut (o : Op) : List ChipOp := chipOps falshSizeMax false ((opTransactions o).getD [])

/-- The content after the first `k` transactions of the calls. -/
def contentAfter (ops : List Op) (k : ℕ) (f : Flash) : Option Flash := do
  let ts ← sent ops
  return applyOps (chipOps falshSizeMax false (ts.take k)) f

/-- The content after all of them. -/
def contentOf (ops : List Op) (f : Flash) : Option Flash := do
  let ts ← sent ops
  return applyOps (chipOps falshSizeMax false ts) f

/-! ### One call -/

theorem applyOps_append (os ps : List ChipOp) (f : Flash) : applyOps (os ++ ps) f = applyOps ps (applyOps os f) := List.foldl_append

/-- A byte that no operation of the chip touches keeps its value. -/
theorem applyOps_outside {os : List ChipOp} {x : ℕ} (h : ∀ o ∈ os, ∀ f, o.apply f x = f x) (f : Flash) : applyOps os f x = f x := by
  induction os generalizing f with
  | nil => rfl
  | cons o os ih =>
    obtain ⟨ho, hos⟩ := List.forall_mem_cons.mp h
    exact (ih hos (o.apply f)).trans (ho f)

theorem pageRun_range {n a : ℕ} {ps : List (ℕ × Bytes)} {d : Bytes} (h : PageRun n a ps d) :
    ∀ p ∈ ps, a ≤ p.1 ∧ p.1 + p.2.length ≤ a + d.length := by
  induction h with
  | nil => simp
  | cons hin h ih =>
    refine List.forall_mem_cons.mpr ⟨?_, fun p hp => ?_⟩
    · simp
    · have := ih p hp
      simp
      omega

/-- The chip does for a call what the call is for, and touches nothing outside its range. -/
theorem carriedOut_spec {o : Op} (h : InDevice o) : ∃ ts, opTransactions o = some ts ∧ Performs falshSizeMax ts (carriedOut o) ∧
    (∀ f, applyOps (carriedOut o) f = o.apply f) ∧
    ∀ c ∈ carriedOut o, ∀ f x, x < o.addr ∨ o.addr + o.len ≤ x → c.apply f x = f x := by
  cases o with
  | program addr data =>
    obtain ⟨haddr, hin⟩ := h
    obtain ⟨ts, ps, hts, hprog, -⟩ := programSplit_spec flashPageProgramGeneral_sends (by decide) haddr hin
    have hts' : opTransactions (.program addr data) = some ts := hts
    have hco : carriedOut (.program addr data) = toOps ps := by
      rw [carriedOut, hts', Option.getD_some, hprog.performs.chipOps_eq]
    refine ⟨ts, hts', hco ▸ hprog.performs, fun f => ?_, fun c hc f x hx => ?_⟩
    · rw [hco, ← hprog.performs.chipOps_eq false, hprog.memory]
    · rw [hco] at hc
      obtain ⟨p, hp, rfl⟩ := List.mem_map.mp hc
      have hrange := pageRun_range hprog.run p hp
      have hinside := hprog.run.inside p hp
      show pageProgram pageSize p.1 p.2 f x = f x
      rw [pageProgram_eq (by decide) hinside]
      refine program_outside ?_
      simp only [Op.addr, Op.len] at hx
      omega
  | erase addr len =>
    obtain ⟨ha, hl, hin⟩ := h
    obtain ⟨ts, es, hts, hperf, htiles⟩ := flashErase_performs ha hl hin
    have hts' : opTransactions (.erase addr len) = some ts := hts
    have hco : carriedOut (.erase addr len) = es.map .erase := by
      rw [carriedOut, hts', Option.getD_some, hperf.chipOps_eq]
    refine ⟨ts, hts', hco ▸ hperf, fun f => ?_, fun c hc f x hx => ?_⟩
    · rw [hco, applyOps_erases, htiles.foldl_apply_eq, Nat.add_sub_cancel_left]
    · rw [hco] at hc
      obtain ⟨e, he, rfl⟩ := List.mem_map.mp hc
      refine e.apply_eq f x fun hcl => ?_
      have := htiles.cleared_iff.mp ⟨e, he, hcl⟩
      simp only [Op.addr, Op.len] at hx
      omega

/-- A sector is one erase of the chip. -/
theorem carriedOut_sector {addr : ℕ} (ha : falshSize4K ∣ addr) (hin : addr + falshSize4K ≤ falshSizeMax) :
    carriedOut (.erase addr falshSize4K) = [.erase ⟨addr, falshSize4K⟩] := by
  have hts : opTransactions (.erase addr falshSize4K) = some (flashEraseBlock .eraseSector4KB addr ++ []) := by
    show flashErase addr falshSize4K = _
    rw [flashErase, assertParam_true (Nat.mod_eq_zero_of_dvd ha), assertParam_true (by decide)]
    rfl
  have hperf : Performs falshSizeMax (flashEraseBlock .eraseSector4KB addr ++ []) [.erase ⟨addr, falshSize4K⟩] :=
    (flashEraseBlock_performs rfl (by simp only [falshSize4K] at hin; omega)).append .nil
  rw [carriedOut, hts, Option.getD_some, hperf.chipOps_eq]

/-- Less than a page from the start of a page is one program of the chip. -/
theorem carriedOut_short {addr : ℕ} {data : Bytes} (ha : pageSize ∣ addr) (hlt : addr < falshSizeMax) (hpos : data ≠ [])
    (hlen : data.length < pageSize) : carriedOut (.program addr data) = [.program addr data] := by
  have hlen' : 0 < data.length := List.length_pos_iff.mpr hpos
  obtain ⟨ts, hts, hperf⟩ := flashPageProgramGeneral_sends addr data.length data hlt hlen.le
  rw [List.take_length] at hperf
  have hbase : addr / pageSize * pageSize = addr := Nat.div_mul_cancel ha
  have haddr : addr % 2 ^ 32 = addr := Nat.mod_eq_of_lt (by simp only [falshSizeMax] at hlt; omega)
  have hts' : opTransactions (.program addr data) = some ([] ++ ([] ++ ts)) := by
    show programSplit (flashPageProgramGeneral .normalArea) falshSizeMax addr data.length data = _
    rw [programSplit, assertParam_true hlt]
    simp only [programHead, hbase, programRest, Nat.div_eq_of_lt hlen, Nat.mod_eq_of_lt hlen, Cursor.advance, haddr,
      Nat.add_zero, List.drop_zero, Nat.sub_zero, Nat.zero_mod, programPages, ne_eq, not_true, if_false, hlen'.ne',
      not_false_eq_true, if_true, Option.bind_eq_bind, Option.bind_some, Option.pure_def, hts]
  have hp : Performs falshSizeMax ([] ++ ([] ++ ts)) [.program addr data] := hperf
  rw [carriedOut, hts', Option.getD_some, hp.chipOps_eq]

/-! ### Calls one after another -/

theorem sent_performs {ops : List Op} (h : ∀ o ∈ ops, InDevice o) :
    ∃ ts, sent ops = some ts ∧ Performs falshSizeMax ts (ops.flatMap carriedOut) := by
  induction ops with
  | nil => exact ⟨[], rfl, .nil⟩
  | cons o ops ih =>
    obtain ⟨ho, hops⟩ := List.forall_mem_cons.mp h
    obtain ⟨ts, hts, hp, -⟩ := carriedOut_spec ho
    obtain ⟨us, hus, hps⟩ := ih hops
    exact ⟨ts ++ us, by simp [sent, hts, hus], hp.append hps⟩

theorem applyOps_carriedOut {ops : List Op} (h : ∀ o ∈ ops, InDevice o) (f : Flash) :
    applyOps (ops.flatMap carriedOut) f = applyAll ops f := by
  induction ops generalizing f with
  | nil => rfl
  | cons o ops ih =>
    obtain ⟨ho, hops⟩ := List.forall_mem_cons.mp h
    obtain ⟨-, -, -, hmem, -⟩ := carriedOut_spec ho
    rw [List.flatMap_cons, applyOps_append, hmem, ih hops, applyAll_cons]

/-- The calls that complete leave what the calls are for. -/
theorem contentOf_eq {ops : List Op} (h : ∀ o ∈ ops, InDevice o) (f : Flash) : contentOf ops f = some (applyAll ops f) := by
  obtain ⟨ts, hts, hp⟩ := sent_performs h
  simp [contentOf, hts, hp.chipOps_eq, applyOps_carriedOut h]

/-- The chip carries out the first transactions before it sees the others. -/
theorem chipOps_append (size : ℕ) (wel : Bool) (ts us : List Transaction) :
    ∃ wel', chipOps size wel (ts ++ us) = chipOps size wel ts ++ chipOps size wel' us := by
  induction ts generalizing wel with
  | nil => exact ⟨wel, rfl⟩
  | cons t ts ih =>
    simp only [List.cons_append, chipOps]
    cases decode size t with
    | none => exact ih wel
    | some r =>
      cases r with
      | writeEnable => exact ih true
      | op o =>
        cases wel with
        | false => exact ih false
        | true =>
          obtain ⟨wel', h⟩ := ih false
          exact ⟨wel', by simp [h]⟩

/-- Some of a list of lists: all of it, or some whole lists and a part of the next. -/
theorem prefix_flatMap {α β : Type} {g : α → List β} {l : List α} {p : List β} (h : p <+: l.flatMap g) :
    p = l.flatMap g ∨ ∃ front a rear q, l = front ++ a :: rear ∧ p = front.flatMap g ++ q ∧ q <+: g a := by
  induction l generalizing p with
  | nil => exact .inl (List.prefix_nil.mp h)
  | cons a l ih =>
    rw [List.flatMap_cons] at h ⊢
    rcases List.prefix_or_prefix_of_prefix h (List.prefix_append (g a) (l.flatMap g)) with hp | ⟨r, rfl⟩
    · exact .inr ⟨[], a, l, p, rfl, rfl, hp⟩
    · rw [List.prefix_append_right_inj] at h
      rcases ih h with rfl | ⟨front, b, rear, q, rfl, rfl, hq⟩
      · exact .inl rfl
      · exact .inr ⟨a :: front, b, rear, q, rfl, by simp, hq⟩

/-- Where a cut finds the chip: behind the last call, or in a call of which it has carried
out a part. -/
theorem contentAfter_cases {ops : List Op} (h : ∀ o ∈ ops, InDevice o) (k : ℕ) (f : Flash) :
    ∃ g, contentAfter ops k f = some g ∧ (g = applyAll ops f ∨
      ∃ front o rear part, ops = front ++ o :: rear ∧ part <+: carriedOut o ∧ g = applyOps part (applyAll front f)) := by
  obtain ⟨ts, hts, hp⟩ := sent_performs h
  obtain ⟨wel, hcut⟩ := chipOps_append falshSizeMax false (ts.take k) (ts.drop k)
  rw [List.take_append_drop, hp.chipOps_eq] at hcut
  refine ⟨_, by rw [contentAfter, hts]; rfl, ?_⟩
  have hpre : chipOps falshSizeMax false (ts.take k) <+: ops.flatMap carriedOut := hcut ▸ List.prefix_append _ _
  rcases prefix_flatMap hpre with heq | ⟨front, o, rear, part, hops, heq, hpart⟩
  · exact .inl (by rw [heq, applyOps_carriedOut h])
  · refine .inr ⟨front, o, rear, part, hops, hpart, ?_⟩
    rw [heq, applyOps_append, applyOps_carriedOut fun o' ho' => h o' (by simp [hops, ho'])]

end Ln882x.Hal
