import Ln882x.Nor.Flash
import Mathlib.Data.List.GetD

/-! Page programming. A page program loads its data into a buffer of one page, from
the place of its address on and wrapping at the end, and ANDs the buffer onto the page.
Data that ends inside the page is programmed as it stands; so a run of page programs,
each starting where the one before it ended and none crossing a page boundary, programs
the concatenation of its data. -/

namespace Ln882x.Nor

variable {n : ℕ}

/-- The page buffer after the data: the place runs inside the page, and a byte sent twice to one
place is overwritten. -/
def pageBuffer (n : ℕ) : ℕ → Bytes → (ℕ → UInt8) → ℕ → UInt8
  | _, [], buf => buf
  | p, b :: bs, buf => pageBuffer n ((p + 1) % n) bs (Function.update buf p b)

/-- A page program: a buffer that starts out erased, ANDed onto the page of the address. -/
def pageProgram (n addr : ℕ) (data : Bytes) (f : Flash) : Flash := fun x =>
  if x / n = addr / n then f x &&& pageBuffer n (addr % n) data (fun _ => 0xFF) (x % n) else f x

/-- Programs of at most a page each, end to end from the address on. -/
inductive PageRun (n : ℕ) : ℕ → List (ℕ × Bytes) → Bytes → Prop
  | nil (a : ℕ) : PageRun n a [] []
  | cons {a : ℕ} {d data : Bytes} {ps : List (ℕ × Bytes)} (hin : a % n + d.length ≤ n)
    (h : PageRun n (a + d.length) ps data) : PageRun n a ((a, d) :: ps) (d ++ data)

/-! ### One page -/

/-- Data that ends inside the page does not wrap. -/
theorem pageBuffer_eq {p : ℕ} {data : Bytes} (h : p + data.length ≤ n) (buf : ℕ → UInt8) (q : ℕ) :
    pageBuffer n p data buf q = if p ≤ q then data.getD (q - p) (buf q) else buf q := by
  induction data generalizing p buf with
  | nil => simp [pageBuffer]
  | cons b bs ih =>
    rw [List.length_cons] at h
    rw [pageBuffer]
    rcases bs.eq_nil_or_concat with rfl | hne
    · rw [pageBuffer, Function.update_apply]
      by_cases hq : q = p
      · simp [hq]
      · rw [if_neg hq]
        split_ifs with hle
        · rw [show q - p = (q - p - 1) + 1 by omega]
          rfl
        · rfl
    · have hpos : 0 < bs.length := by
        obtain ⟨l, c, rfl⟩ := hne
        simp
      rw [Nat.mod_eq_of_lt (by omega), ih (by omega), Function.update_apply]
      rcases Nat.lt_trichotomy q p with hlt | rfl | hgt
      · rw [if_neg (by omega), if_neg (by omega), if_neg (by omega)]
      · simp
      · rw [if_pos (by omega), if_neg (by omega), if_pos (by omega), show q - p = (q - (p + 1)) + 1 by omega]
        rfl

/-- A program inside one page is the program of its range. -/
theorem pageProgram_eq {addr : ℕ} {data : Bytes} (hn : 0 < n) (h : addr % n + data.length ≤ n) (f : Flash) :
    pageProgram n addr data f = (Op.program addr data).apply f := by
  funext x
  have ha := Nat.div_add_mod addr n
  have hx := Nat.div_add_mod x n
  have hxlt := Nat.mod_lt x hn
  have hff : ∀ b : UInt8, b &&& 0xFF = b := fun b => by rw [UInt8.and_comm, ff_and]
  simp only [pageProgram, Op.apply]
  by_cases hp : x / n = addr / n
  · rw [if_pos hp, pageBuffer_eq h]
    rw [hp] at hx
    by_cases hle : addr % n ≤ x % n
    · rw [if_pos hle, show x % n - addr % n = x - addr by omega]
      by_cases hlt : x < addr + data.length
      · rw [if_pos (by omega)]
      · rw [if_neg (by omega), List.getD_eq_default _ _ (by omega), hff]
    · rw [if_neg hle, if_neg (by omega), hff]
  · rw [if_neg hp, if_neg]
    intro hr
    apply hp
    rw [Nat.div_eq_iff hn, Nat.mul_comm]
    omega

/-! ### A run of pages -/

/-- Programming a list is programming its two parts, one behind the other. -/
theorem program_append (a : ℕ) (d e : Bytes) (f : Flash) :
    (Op.program a (d ++ e)).apply f = (Op.program (a + d.length) e).apply ((Op.program a d).apply f) := by
  funext x
  simp only [Op.apply, List.length_append]
  by_cases hd : a ≤ x ∧ x < a + d.length
  · rw [if_pos (by omega), if_neg (by omega), if_pos hd, List.getD_append _ _ _ _ (by omega)]
  · rw [if_neg hd]
    by_cases he : a + d.length ≤ x ∧ x < a + d.length + e.length
    · rw [if_pos (by omega), if_pos he, List.getD_append_right _ _ _ _ (by omega),
        show x - a - d.length = x - (a + d.length) by omega]
    · rw [if_neg (by omega), if_neg he]

theorem program_nil (a : ℕ) (f : Flash) : (Op.program a []).apply f = f :=
  funext fun x => program_outside (by simp; omega)

variable {a : ℕ} {ps qs : List (ℕ × Bytes)} {d e : Bytes}

theorem PageRun.append (h : PageRun n a ps d) (h' : PageRun n (a + d.length) qs e) :
    PageRun n a (ps ++ qs) (d ++ e) := by
  induction h with
  | nil => exact h'
  | cons hin _ ih =>
    rw [List.append_assoc]
    refine .cons hin (ih ?_)
    rwa [Nat.add_assoc, ← List.length_append]

/-- A run programs the concatenation of its data. -/
theorem PageRun.foldl_eq (hn : 0 < n) (h : PageRun n a ps d) (f : Flash) :
    ps.foldl (fun g p => pageProgram n p.1 p.2 g) f = (Op.program a d).apply f := by
  induction h generalizing f with
  | nil a => rw [program_nil]; rfl
  | cons hin _ ih => rw [List.foldl_cons, ih, pageProgram_eq hn hin, program_append]

/-- No program of a run crosses a page boundary. -/
theorem PageRun.inside (h : PageRun n a ps d) : ∀ p ∈ ps, p.1 % n + p.2.length ≤ n := by
  induction h with
  | nil => simp
  | cons hin _ ih => exact List.forall_mem_cons.mpr ⟨hin, ih⟩

end Ln882x.Nor
