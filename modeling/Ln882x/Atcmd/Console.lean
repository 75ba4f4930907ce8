import Mathlib.Data.List.Infix
import Ln882x.Nor.Flash

/-! The console of `components/atcmd/console.c`. Received bytes are gathered in
a buffer of 256 bytes; a carriage return or line feed looks for CR LF in it with
a C string search and hands the whole content on as one command. A full buffer
is thrown away, in one branch for ordinary bytes and in another for line ends.

Which streams are framed right is decided by how many bytes a piece leaves in
the buffer, and by zero bytes, behind which the search sees nothing. -/

namespace Ln882x.Atcmd

open Nor

def cmdCbsize : ℕ := 256

def cmdPbsize : ℕ := 256

def cr : UInt8 := 13

def lf : UInt8 := 10

def cmdEndMarkCrlf : Bytes := [cr, lf]

/-! ### C strings and buffers -/

def zeros (n : ℕ) : Bytes := List.replicate n 0

/-- The C string at the start of a buffer. -/
def cString (buf : Bytes) : Bytes := buf.takeWhile (· ≠ 0)

/-- `strstr` on C strings: whether it returns a position. -/
def strstr (s needle : Bytes) : Bool :=
  match s with
  | [] => needle.isEmpty
  | b :: s => needle.isPrefixOf (b :: s) || strstr s needle

def memcpy (dst src : Bytes) (n : ℕ) : Bytes := src.take n ++ dst.drop n

/-! ### The console -/

/-- `CONSOLE_CTRL_T` without its semaphore. -/
structure ConsoleCtrl where
  consoleCmdBuffer : Bytes
  cmdLine : Bytes
  index : ℕ
  echo : Bool

/-- What a received byte causes, in order. -/
inductive Act where
  | serialWrite (ch : UInt8)
  | exeCommand (cmd : Bytes) (cmdLen : ℕ)
  | logOverflow
  deriving DecidableEq

def lookupCmdLine (console : ConsoleCtrl) (ch : UInt8) : List Act × ConsoleCtrl :=
  let echoed := if console.echo then [Act.serialWrite ch] else []
  let buf := console.consoleCmdBuffer.set console.index ch
  let index := console.index + 1
  if ch ≠ lf ∧ ch ≠ cr then
    if index ≥ cmdCbsize then
      (echoed ++ [.logOverflow], { console with consoleCmdBuffer := zeros cmdCbsize, index := 0 })
    else (echoed, { console with consoleCmdBuffer := buf, index := index })
  else if index ≥ cmdCbsize then
    (echoed, { console with consoleCmdBuffer := memcpy buf (zeros cmdPbsize) cmdPbsize, index := 0 })
  else if strstr (cString buf) cmdEndMarkCrlf then
    let cmdLine := memcpy (zeros cmdPbsize) buf index
    (echoed ++ [.exeCommand cmdLine index],
      { console with consoleCmdBuffer := zeros cmdCbsize, cmdLine := cmdLine, index := 0 })
  else (echoed, { console with consoleCmdBuffer := buf, index := index })

/-- The console after `console_init`, with any echo setting. -/
def ConsoleCtrl.init (echo : Bool) : ConsoleCtrl := ⟨zeros cmdCbsize, zeros cmdPbsize, 0, echo⟩

/-- The bytes handed to `console_exe_command`, if it is called. -/
def command (acts : List Act) : Option Bytes :=
  acts.findSome? fun
    | .exeCommand cmd cmdLen => some (cmd.take cmdLen)
    | _ => none

/-- The command that each byte of a stream causes. -/
def commands (console : ConsoleCtrl) : Bytes → List (Option Bytes)
  | [] => []
  | ch :: bs => command (lookupCmdLine console ch).1 :: commands (lookupCmdLine console ch).2 bs

/-! ### Pieces of a stream -/

/-- The pieces of a stream cut after each CR LF; `cur` is the part of the current piece already
seen. -/
def pieces (cur : Bytes) : Bytes → List Bytes
  | [] => []
  | ch :: bs =>
    if cmdEndMarkCrlf.isSuffixOf (cur ++ [ch]) then (cur ++ [ch]) :: pieces [] bs
    else pieces (cur ++ [ch]) bs

/-- The command that each byte should cause: a piece of at most 255 bytes at its last byte. -/
def due (cur : Bytes) : Bytes → List (Option Bytes)
  | [] => []
  | ch :: bs =>
    if cmdEndMarkCrlf.isSuffixOf (cur ++ [ch]) then
      (if (cur ++ [ch]).length ≤ 255 then some (cur ++ [ch]) else none) :: due [] bs
    else none :: due (cur ++ [ch]) bs

/-- The last bytes of a piece. -/
def lastBytes (n : ℕ) (p : Bytes) : Bytes := p.drop (p.length - n)

/-- The pieces that are framed right, when the first of them finds `n` bytes in the buffer. One
of at most 255 bytes must find none and hold no zero byte; a longer one must leave less than two
bytes, or a zero byte among those it leaves. -/
def InStep : ℕ → List Bytes → Prop
  | _, [] => True
  | n, p :: ps =>
    if p.length ≤ 255 then n = 0 ∧ 0 ∉ p ∧ InStep 0 ps
    else ((n + p.length) % cmdCbsize < 2 ∨ 0 ∈ lastBytes ((n + p.length) % cmdCbsize) p) ∧
      InStep ((n + p.length) % cmdCbsize) ps

/-! ### The buffer as a list -/

/-- The buffer holds `w` and zero bytes behind it. -/
def Gathered (console : ConsoleCtrl) (w : Bytes) : Prop :=
  w.length < cmdCbsize ∧ console.consoleCmdBuffer = w ++ zeros (cmdCbsize - w.length) ∧
    console.index = w.length

/-- One byte, as far as commands are concerned. -/
def gather (w : Bytes) (ch : UInt8) : Option Bytes × Bytes :=
  if cmdCbsize ≤ (w ++ [ch]).length then (none, [])
  else if (ch = lf ∨ ch = cr) ∧ strstr (cString (w ++ [ch])) cmdEndMarkCrlf then (some (w ++ [ch]), [])
  else (none, w ++ [ch])

def gatherAll (w : Bytes) : Bytes → List (Option Bytes)
  | [] => []
  | ch :: bs => (gather w ch).1 :: gatherAll (gather w ch).2 bs

theorem cString_zeros (w : Bytes) (n : ℕ) : cString (w ++ zeros n) = cString w := by
  induction w with
  | nil => cases n <;> simp [cString, zeros, List.replicate_succ]
  | cons b w ih =>
    simp only [cString, List.cons_append, List.takeWhile_cons] at ih ⊢
    rw [ih]

theorem gathered_init (echo : Bool) : Gathered (.init echo) [] := ⟨by decide, rfl, rfl⟩

theorem Gathered.set {console : ConsoleCtrl} {w : Bytes} (h : Gathered console w) (ch : UInt8) :
    console.consoleCmdBuffer.set console.index ch = (w ++ [ch]) ++ zeros (cmdCbsize - (w ++ [ch]).length) := by
  obtain ⟨hl, hb, hi⟩ := h
  obtain ⟨k, hk⟩ : ∃ k, cmdCbsize - w.length = k + 1 := ⟨cmdCbsize - w.length - 1, by omega⟩
  have hk' : cmdCbsize - (w ++ [ch]).length = k := by simp; omega
  rw [hb, hi, hk, hk', zeros, List.replicate_succ, List.set_append_right _ _ le_rfl, Nat.sub_self,
    List.set_cons_zero, List.append_assoc]
  rfl

theorem lookupCmdLine_gather {console : ConsoleCtrl} {w : Bytes} (h : Gathered console w) (ch : UInt8) :
    command (lookupCmdLine console ch).1 = (gather w ch).1 ∧
      Gathered (lookupCmdLine console ch).2 (gather w ch).2 := by
  have hset := h.set ch
  have hlen : (w ++ [ch]).length = console.index + 1 := by simp [h.2.2]
  have hnone : ∀ l : List Act, command ((if console.echo then [Act.serialWrite ch] else []) ++ l) = command l := by
    intro l
    split_ifs <;> rfl
  have hnil : command (if console.echo then [Act.serialWrite ch] else []) = none := by
    split_ifs <;> rfl
  have hclear : ∀ c : ConsoleCtrl, c.consoleCmdBuffer = zeros cmdCbsize → c.index = 0 → Gathered c [] :=
    fun c hb hi => ⟨by decide, hb, hi⟩
  by_cases hfull : console.index + 1 ≥ cmdCbsize
  · have hg : gather w ch = (none, []) := by rw [gather, if_pos (by omega)]
    by_cases hch : ch ≠ lf ∧ ch ≠ cr
    · rw [lookupCmdLine, if_pos hch, if_pos hfull, hg]
      exact ⟨hnone _, hclear _ rfl rfl⟩
    · rw [lookupCmdLine, if_neg hch, if_pos hfull, hg]
      refine ⟨hnil, hclear _ ?_ rfl⟩
      have hl : (console.consoleCmdBuffer.set console.index ch).length = cmdPbsize := by
        rw [List.length_set, h.2.1]
        simp [zeros]
        have := h.1
        simp only [cmdCbsize, cmdPbsize] at *
        omega
      simp only [memcpy]
      rw [List.drop_eq_nil_of_le (by omega), List.append_nil, List.take_of_length_le (by simp [zeros])]
      rfl
  · have hkeep : ∀ c : ConsoleCtrl, c.consoleCmdBuffer = console.consoleCmdBuffer.set console.index ch →
        c.index = console.index + 1 → Gathered c (w ++ [ch]) := fun c hb hi =>
      ⟨by omega, hb.trans hset, hi.trans hlen.symm⟩
    have hvis : cString (console.consoleCmdBuffer.set console.index ch) = cString (w ++ [ch]) := by
      rw [hset, cString_zeros]
    have hroom : ¬ cmdCbsize ≤ (w ++ [ch]).length := by omega
    by_cases hch : ch ≠ lf ∧ ch ≠ cr
    · have hno : ¬ ((ch = lf ∨ ch = cr) ∧ strstr (cString (w ++ [ch])) cmdEndMarkCrlf) := by tauto
      have hg : gather w ch = (none, w ++ [ch]) := by rw [gather, if_neg hroom, if_neg hno]
      rw [lookupCmdLine, if_pos hch, if_neg hfull, hg]
      exact ⟨hnil, hkeep _ rfl rfl⟩
    · have hor : ch = lf ∨ ch = cr := by tauto
      by_cases hs : strstr (cString (w ++ [ch])) cmdEndMarkCrlf
      · have hg : gather w ch = (some (w ++ [ch]), []) := by
          rw [gather, if_neg hroom, if_pos (And.intro hor hs)]
        rw [lookupCmdLine, if_neg hch, if_neg hfull, hvis, if_pos hs, hg]
        refine ⟨?_, hclear _ rfl rfl⟩
        rw [hnone]
        simp only [command, List.findSome?_cons, memcpy, hset]
        rw [← hlen, List.take_left' rfl, List.take_left' rfl]
      · have hno : ¬ ((ch = lf ∨ ch = cr) ∧ strstr (cString (w ++ [ch])) cmdEndMarkCrlf) := fun hp => hs hp.2
        have hg : gather w ch = (none, w ++ [ch]) := by rw [gather, if_neg hroom, if_neg hno]
        rw [lookupCmdLine, if_neg hch, if_neg hfull, hvis, if_neg hs, hg]
        exact ⟨hnil, hkeep _ rfl rfl⟩

theorem commands_gatherAll (bs : Bytes) : ∀ {console : ConsoleCtrl} {w : Bytes}, Gathered console w →
    commands console bs = gatherAll w bs := by
  induction bs with
  | nil =>
    intro console w _
    rfl
  | cons ch bs ih =>
    intro console w h
    obtain ⟨hc, hg⟩ := lookupCmdLine_gather h ch
    rw [commands, gatherAll, hc, ih hg]

/-! ### Where CR LF is seen -/

theorem strstr_iff (s : Bytes) : strstr s cmdEndMarkCrlf = true ↔ cmdEndMarkCrlf <:+: s := by
  induction s with
  | nil => simp [strstr, cmdEndMarkCrlf]
  | cons b s ih => simp [strstr, ih, List.infix_cons_iff]

theorem cString_eq {w : Bytes} (h : 0 ∉ w) : cString w = w := by
  induction w with
  | nil => rfl
  | cons b w ih =>
    obtain ⟨hb, hw⟩ : ¬ 0 = b ∧ 0 ∉ w := by simpa using h
    have hi := ih hw
    simp only [cString, List.takeWhile_cons] at hi ⊢
    rw [hi, if_pos (by simpa using Ne.symm hb)]

theorem cString_append {w : Bytes} (h : 0 ∈ w) (q : Bytes) : cString (w ++ q) = cString w := by
  induction w with
  | nil => simp at h
  | cons b w ih =>
    by_cases hb : b = 0
    · simp [cString, hb]
    · have h0 : 0 ∈ w := by simpa [Ne.symm hb] using h
      have hi := ih h0
      simp only [cString, List.cons_append, List.takeWhile_cons] at hi ⊢
      rw [hi]

theorem cString_sublist (w : Bytes) : cString w <+: w := List.takeWhile_prefix _

/-- The buffer in the middle of a piece `cur` that found `w₀` in it. -/
structure Midway (w₀ cur w : Bytes) : Prop where
  suffix : w <:+ w₀ ++ cur
  length : w.length = (w₀.length + cur.length) % cmdCbsize

/-- What a piece that is framed right leaves in the buffer: CR LF is hidden behind a zero byte,
or there is no room for both. -/
def Hidden (w : Bytes) : Prop :=
  w.length < cmdCbsize ∧ (0 ∈ w ∧ ¬ cmdEndMarkCrlf <:+: cString w ∨ w = [] ∨ w = [lf])

variable {w₀ cur w : Bytes}

theorem Midway.start (h : w₀.length < cmdCbsize) : Midway w₀ [] w₀ :=
  ⟨by simp, by simp [Nat.mod_eq_of_lt h]⟩

/-- Either the buffer was not full yet, or it holds the end of the piece. -/
theorem Midway.cases (h : Midway w₀ cur w) (h0 : w₀.length < cmdCbsize) :
    w = w₀ ++ cur ∧ w₀.length + cur.length < cmdCbsize ∨ w <:+ cur := by
  have hl := h.length
  simp only [cmdCbsize] at *
  by_cases hlt : w₀.length + cur.length < 256
  · refine .inl ⟨h.suffix.eq_of_length ?_, hlt⟩
    rw [hl, Nat.mod_eq_of_lt hlt, List.length_append]
  · refine .inr (List.suffix_of_suffix_length_le h.suffix (List.suffix_append w₀ cur) ?_)
    omega

theorem Midway.hidden (h : Midway w₀ cur w) (h0 : Hidden w₀) (hc : ¬ cmdEndMarkCrlf <:+: cur) :
    ¬ cmdEndMarkCrlf <:+: cString w := by
  intro hin
  rcases h.cases h0.1 with ⟨rfl, -⟩ | hs
  · rcases h0.2 with ⟨hz, hv⟩ | rfl | rfl
    · rw [cString_append hz] at hin
      exact hv hin
    · exact hc (hin.trans (cString_sublist _).isInfix)
    · have hin' : cmdEndMarkCrlf <:+: lf :: cur := hin.trans (cString_sublist _).isInfix
      rcases List.infix_cons_iff.mp hin' with hp | hp
      · exact absurd (List.cons_prefix_cons.mp hp).1 (by decide)
      · exact hc hp
  · exact hc ((hin.trans (cString_sublist _).isInfix).trans hs.isInfix)

theorem Midway.full (h : Midway w₀ cur w) {ch : UInt8} (hf : cmdCbsize ≤ (w ++ [ch]).length) :
    Midway w₀ (cur ++ [ch]) [] := by
  have hl := h.length
  simp only [cmdCbsize, List.length_append, List.length_singleton] at *
  refine ⟨List.nil_suffix, ?_⟩
  simp only [List.length_nil, List.length_append, List.length_singleton, cmdCbsize]
  omega

theorem Midway.push (h : Midway w₀ cur w) {ch : UInt8} (hf : ¬ cmdCbsize ≤ (w ++ [ch]).length) :
    Midway w₀ (cur ++ [ch]) (w ++ [ch]) := by
  have hl := h.length
  obtain ⟨v, hv⟩ := h.suffix
  refine ⟨⟨v, by rw [← List.append_assoc, hv, List.append_assoc]⟩, ?_⟩
  simp only [cmdCbsize, List.length_append, List.length_singleton] at *
  omega

/-- Inside a piece no command is handed out. -/
theorem gather_midway (h : Midway w₀ cur w) (h0 : Hidden w₀) {ch : UInt8}
    (hc : ¬ cmdEndMarkCrlf <:+: cur ++ [ch]) :
    ∃ w', gather w ch = (none, w') ∧ Midway w₀ (cur ++ [ch]) w' := by
  by_cases hf : cmdCbsize ≤ (w ++ [ch]).length
  · exact ⟨[], by rw [gather, if_pos hf], h.full hf⟩
  · have hm := h.push hf
    have hno : ¬ ((ch = lf ∨ ch = cr) ∧ strstr (cString (w ++ [ch])) cmdEndMarkCrlf = true) := by
      rw [strstr_iff]
      exact fun hp => hm.hidden h0 hc hp.2
    exact ⟨w ++ [ch], by rw [gather, if_neg hf, if_neg hno], hm⟩

theorem crlf_concat {ch : UInt8} (hs : cmdEndMarkCrlf <:+ cur ++ [ch]) : ch = lf ∧ ∃ c, cur = c ++ [cr] := by
  obtain ⟨t, ht⟩ := hs
  have ht' : (t ++ [cr]) ++ [lf] = cur ++ [ch] := by rw [← ht]; simp [cmdEndMarkCrlf]
  obtain ⟨h1, h2⟩ := List.append_inj' ht' rfl
  exact ⟨(List.singleton_injective h2).symm, t, h1.symm⟩

theorem crlf_infix_concat {ch : UInt8} {l : Bytes} (h : cmdEndMarkCrlf <:+: l ++ [ch])
    (hl : ¬ cmdEndMarkCrlf <:+: l) : cmdEndMarkCrlf <:+ l ++ [ch] := by
  rw [List.infix_concat_iff] at h
  exact h.resolve_right hl

/-- The last byte of a piece: what is in the buffer goes out as a command exactly if it has both
bytes of the end mark and no zero byte. -/
theorem gather_end (h : Midway w₀ cur w) (h0 : Hidden w₀) (hc : ¬ cmdEndMarkCrlf <:+: cur) {ch : UInt8}
    (hs : cmdEndMarkCrlf <:+ cur ++ [ch]) (hf : ¬ cmdCbsize ≤ (w ++ [ch]).length) :
    gather w ch = if 2 ≤ (w ++ [ch]).length ∧ 0 ∉ w ++ [ch] then (some (w ++ [ch]), []) else (none, w ++ [ch]) := by
  obtain ⟨rfl, c, rfl⟩ := crlf_concat hs
  have hiff : ((lf = lf ∨ lf = cr) ∧ strstr (cString (w ++ [lf])) cmdEndMarkCrlf = true) ↔
      2 ≤ (w ++ [lf]).length ∧ 0 ∉ w ++ [lf] := by
    rw [strstr_iff]
    constructor
    · rintro ⟨-, hin⟩
      have hz : 0 ∉ w := fun hz => by
        rw [cString_append hz] at hin
        exact h.hidden h0 hc hin
      have hz' : 0 ∉ w ++ [lf] := by
        rw [List.mem_append, not_or]
        exact ⟨hz, by decide⟩
      rw [cString_eq hz'] at hin
      exact ⟨hin.length_le, hz'⟩
    · rintro ⟨h2, hz⟩
      rw [cString_eq hz]
      refine ⟨.inl rfl, List.IsSuffix.isInfix ?_⟩
      -- the byte in front is the last of `w`, which is the last of the piece so far
      obtain ⟨w', b, rfl⟩ : ∃ w' b, w = w' ++ [b] := by
        rcases List.eq_nil_or_concat w with rfl | ⟨w', b, rfl⟩
        · simp at h2
        · exact ⟨w', b, by simp⟩
      obtain ⟨v, hv⟩ := h.suffix
      have hv' : (v ++ w') ++ [b] = (w₀ ++ c) ++ [cr] := by simpa using hv
      obtain rfl : b = cr := List.singleton_injective (List.append_inj' hv' rfl).2
      exact ⟨w', by simp [cmdEndMarkCrlf]⟩
  rw [gather, if_neg hf]
  exact if_congr hiff rfl rfl

/-! ### Framing -/

theorem hidden_nil : Hidden [] := ⟨by decide, .inr (.inl rfl)⟩

/-- What is left of a piece that was not handed out is hidden. -/
theorem hidden_left (h : Midway w₀ cur w) (h0 : Hidden w₀) (hc : ¬ cmdEndMarkCrlf <:+: cur) {ch : UInt8}
    (hs : cmdEndMarkCrlf <:+ cur ++ [ch]) (hf : ¬ cmdCbsize ≤ (w ++ [ch]).length)
    (hn : ¬ (2 ≤ (w ++ [ch]).length ∧ 0 ∉ w ++ [ch])) : Hidden (w ++ [ch]) := by
  obtain ⟨rfl, -⟩ := crlf_concat hs
  refine ⟨by omega, ?_⟩
  by_cases hz : 0 ∈ w ++ [lf]
  · have hzw : 0 ∈ w := by
      rw [List.mem_append] at hz
      exact hz.resolve_right (by decide)
    refine .inl ⟨hz, ?_⟩
    rw [cString_append hzw]
    exact h.hidden h0 hc
  · have hl : (w ++ [lf]).length < 2 := Nat.lt_of_not_le fun h2 => hn ⟨h2, hz⟩
    have hlen : (w ++ [lf]).length = w.length + 1 := List.length_append
    have hw : w = [] := List.length_eq_zero_iff.mp (by omega)
    exact .inr (.inr (by rw [hw]; rfl))

/-- The bytes in the buffer behind a long piece are the last of it. -/
theorem Midway.lastBytes (h : Midway w₀ cur w) (hl : w.length ≤ cur.length) :
    w = lastBytes ((w₀.length + cur.length) % cmdCbsize) cur := by
  have hs : w <:+ cur := List.suffix_of_suffix_length_le h.suffix (List.suffix_append w₀ cur) hl
  rw [Atcmd.lastBytes, ← h.length]
  exact List.suffix_iff_eq_drop.mp hs

/-- The buffer at the end of a piece of at most 255 bytes holds that piece and nothing else
exactly if the piece found it empty. -/
theorem Midway.eq_iff (h : Midway w₀ cur w) (h0 : w₀.length < cmdCbsize) (hl : cur.length ≤ 255) :
    w = cur ↔ w₀.length = 0 := by
  have hlen := h.length
  simp only [cmdCbsize] at hlen h0
  constructor
  · rintro rfl
    omega
  · intro hz
    obtain rfl := List.length_eq_zero_iff.mp hz
    exact h.suffix.eq_of_length (by simp only [List.length_nil, List.nil_append] at hlen ⊢; omega)

/-- From any point of a stream on, the commands are the ones due exactly if the pieces are in
step. -/
theorem gatherAll_eq_due_iff (bs : Bytes) : ∀ {w₀ cur w : Bytes}, Midway w₀ cur w → Hidden w₀ →
    ¬ cmdEndMarkCrlf <:+: cur → (gatherAll w bs = due cur bs ↔ InStep w₀.length (pieces cur bs)) := by
  induction bs with
  | nil =>
    intro w₀ cur w _ _ _
    simp [gatherAll, due, pieces, InStep]
  | cons ch bs ih =>
    intro w₀ cur w h h0 hc
    have hnil : ¬ cmdEndMarkCrlf <:+: ([] : Bytes) := by decide
    by_cases hs : cmdEndMarkCrlf <:+ cur ++ [ch]
    · have hp2 : 2 ≤ (cur ++ [ch]).length := hs.length_le
      have hsb : cmdEndMarkCrlf.isSuffixOf (cur ++ [ch]) = true := by simpa using hs
      rw [gatherAll, due, pieces, if_pos hsb, if_pos hsb, InStep, List.cons.injEq]
      by_cases hf : cmdCbsize ≤ (w ++ [ch]).length
      · -- the buffer is full with the last byte of the piece: it is empty again
        have hlen := (h.full hf).length
        have hg : gather w ch = (none, []) := by rw [gather, if_pos hf]
        have hi := ih (Midway.start (by decide)) hidden_nil hnil
        rw [hg, ← hlen, hi]
        by_cases hl : (cur ++ [ch]).length ≤ 255
        · rw [if_pos hl, if_pos hl]
          simp only [cmdCbsize, List.length_nil] at hlen
          simp only [reduceCtorEq, false_and, false_iff]
          rintro ⟨hz, -⟩
          omega
        · rw [if_neg hl, if_neg hl]
          simp
      · have hm := h.push hf
        have hlen := hm.length
        have h2 : (w ++ [ch]).length ≤ 255 := by simp only [cmdCbsize] at hf; omega
        rw [gather_end h h0 hc hs hf]
        by_cases hl : (cur ++ [ch]).length ≤ 255
        · have heq := hm.eq_iff h0.1 hl
          rw [if_pos hl, if_pos hl]
          by_cases hfire : 2 ≤ (w ++ [ch]).length ∧ 0 ∉ w ++ [ch]
          · have hi := ih (Midway.start (by decide)) hidden_nil hnil
            rw [if_pos hfire, hi, Option.some.injEq, heq]
            constructor
            · rintro ⟨hz, hr⟩
              exact ⟨hz, heq.mpr hz ▸ hfire.2, hr⟩
            · rintro ⟨hz, -, hr⟩
              exact ⟨hz, hr⟩
          · rw [if_neg hfire]
            simp only [reduceCtorEq, false_and, false_iff]
            rintro ⟨hz, hn, -⟩
            rw [heq.mpr hz] at hfire
            exact hfire ⟨hp2, hn⟩
        · have hlast := hm.lastBytes (by omega)
          rw [if_neg hl, if_neg hl, ← hlast, ← hlen]
          by_cases hfire : 2 ≤ (w ++ [ch]).length ∧ 0 ∉ w ++ [ch]
          · rw [if_pos hfire]
            simp only [reduceCtorEq, false_and, false_iff]
            rintro ⟨hlt | hz, -⟩
            · omega
            · exact hfire.2 hz
          · have hi := ih (Midway.start (by omega)) (hidden_left h h0 hc hs hf hfire) hnil
            have hleft : (w ++ [ch]).length < 2 ∨ 0 ∈ w ++ [ch] := by
              by_contra hno
              rw [not_or] at hno
              exact hfire ⟨by omega, hno.2⟩
            rw [if_neg hfire, hi]
            simp only [true_and]
            exact ⟨fun hr => ⟨hleft, hr⟩, fun hr => hr.2⟩
    · have hc' : ¬ cmdEndMarkCrlf <:+: cur ++ [ch] := fun hin => hs (crlf_infix_concat hin hc)
      obtain ⟨w', hg, hm⟩ := gather_midway h h0 hc'
      have hsb : ¬ cmdEndMarkCrlf.isSuffixOf (cur ++ [ch]) = true := by simpa using hs
      rw [gatherAll, due, pieces, if_neg hsb, if_neg hsb, hg, List.cons.injEq, ih hm h0 hc']
      simp

/-- Every byte of a stream causes the command that is due exactly if the pieces of the stream are
in step. -/
theorem commands_due_iff (echo : Bool) (bs : Bytes) :
    commands (.init echo) bs = due [] bs ↔ InStep 0 (pieces [] bs) := by
  rw [commands_gatherAll bs (gathered_init echo)]
  exact gatherAll_eq_due_iff bs (Midway.start (by decide)) hidden_nil (by decide)

/-- A piece of four bytes with a zero byte is not handed out, and one of 302 bytes makes its last
46 a command. -/
theorem commands_not_due :
    commands (.init false) [0x41, 0, cr, lf] ≠ due [] [0x41, 0, cr, lf] ∧
      commands (.init false) (List.replicate 300 0x41 ++ [cr, lf]) ≠
        due [] (List.replicate 300 0x41 ++ [cr, lf]) := by
  decide +kernel

end Ln882x.Atcmd
