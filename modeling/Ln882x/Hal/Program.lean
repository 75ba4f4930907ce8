import Ln882x.Hal.Erase

/-! Programming a range, page by page. Both drivers program up to the next page
boundary, then whole pages, then the rest; they differ in the chip and in how a page
goes out. The programs a request turns into form a run of pages, so the memory is
ANDed with the data on the range and nowhere else. An empty request in the middle of a
page still sends one program, without data: the head, unlike the rest, is not guarded
by its length. -/

namespace Ln882x.Hal

open Nor

/-! ### The two drivers -/

/-- `offset` and `buffer` of a program request. -/
structure Cursor where
  offset : ℕ
  buffer : Bytes

/-- `offset += n; buffer += n;` -/
def Cursor.advance (c : Cursor) (n : ℕ) : Cursor := ⟨(c.offset + n) % 2 ^ 32, c.buffer.drop n⟩

section Split

-- a driver's page program, called with offset, length and buffer
variable (page : ℕ → ℕ → Bytes → Option (List Transaction))

/-- The part up to the page boundary: its transactions and length. -/
def programHead (length : ℕ) (c : Cursor) : Option (List Transaction × ℕ) :=
  let pageBase := c.offset / pageSize * pageSize
  if pageBase ≠ c.offset then do
    let tailingLength := pageBase + pageSize - c.offset
    let progLength := if length < tailingLength then length else tailingLength
    let ts ← page c.offset progLength c.buffer
    pure (ts, progLength)
  else pure ([], 0)

/-- The loop over `cycles` whole pages. -/
def programPages : ℕ → Cursor → Option (List Transaction × Cursor)
  | 0, c => pure ([], c)
  | cycles + 1, c => do
    let ts ← page c.offset pageSize c.buffer
    let (us, c) ← programPages cycles (c.advance pageSize)
    pure (ts ++ us, c)

def programRest (length : ℕ) (c : Cursor) : Option (List Transaction) := do
  let cycles := length / pageSize % 2 ^ 16
  let (ts, c) ← programPages page cycles c
  let remainder := length % pageSize
  if remainder ≠ 0 then do
    let us ← page c.offset remainder c.buffer
    pure (ts ++ us)
  else pure ts

/-- The common body of `FLASH_ProgramGeneral` and `ExFlash_Program`. -/
def programSplit (sizeMax offset length : ℕ) (buffer : Bytes) : Option (List Transaction) := do
  assertParam (offset < sizeMax)
  let c := Cursor.mk offset buffer
  let (ts, progLength) ← programHead page length c
  let us ← programRest page (length - progLength) (c.advance progLength)
  pure (ts ++ us)

end Split

/-- `Flash_AreaType` -/
inductive FlashAreaType
  | normalArea
  | securityArea
  deriving DecidableEq

def flashPageProgramGeneral (type : FlashAreaType) (offset length : ℕ) (buffer : Bytes) :
    Option (List Transaction) := do
  assertParam (length ≤ pageSize)
  let cmd := if .securityArea = type then FlashCmd.securityProgram else FlashCmd.pageProgram
  pure [flashWriteEnable, cmd.code :: addrBytes offset ++ buffer.take length]

def flashProgramGeneral (type : FlashAreaType) (offset length : ℕ) (buffer : Bytes) :
    Option (List Transaction) :=
  programSplit (flashPageProgramGeneral type) falshSizeMax offset length buffer

def flashProgram (offset length : ℕ) (buffer : Bytes) : Option (List Transaction) :=
  flashProgramGeneral .normalArea offset length buffer

def exFlashCmdPageProgram : UInt8 := 0x02

/-- `ExFlash_Page_Program`, whose length is 16 bits wide and not checked. -/
def exFlashPageProgram (addr : ℕ) (length : ℕ) (data : Bytes) : Option (List Transaction) :=
  let length := length % 2 ^ 16
  pure [exFlashWriteEnable, exFlashCmdPageProgram :: addrBytes addr ++ data.take length]

def exFlashProgram (offset length : ℕ) (buffer : Bytes) : Option (List Transaction) :=
  programSplit exFlashPageProgram exFalshSizeMax offset length buffer

/-! ### One page -/

variable {size : ℕ}

theorem performs_program (h24 : size ∣ 2 ^ 24) {a : ℕ} (ha : a < size) (data : Bytes) :
    Performs size [[0x06], 0x02 :: addrBytes a ++ data] [.program a data] := by
  have h := decode_program h24 a data
  rw [Nat.mod_eq_of_lt ha] at h
  exact performs_command h

/-- Up to a page at an address in the device goes out as one page program. -/
def SendsPages (size : ℕ) (page : ℕ → ℕ → Bytes → Option (List Transaction)) : Prop :=
  ∀ a n buffer, a < size → n ≤ pageSize →
    ∃ ts, page a n buffer = some ts ∧ Performs size ts [.program a (buffer.take n)]

theorem flashPageProgramGeneral_sends : SendsPages falshSizeMax (flashPageProgramGeneral .normalArea) := by
  intro a n buffer ha hn
  refine ⟨_, ?_, performs_program (by decide) ha (buffer.take n)⟩
  rw [flashPageProgramGeneral, assertParam_true hn]
  rfl

theorem exFlashPageProgram_sends : SendsPages exFalshSizeMax exFlashPageProgram := by
  intro a n buffer ha hn
  refine ⟨_, ?_, performs_program (by decide) ha (buffer.take n)⟩
  rw [exFlashPageProgram, Nat.mod_eq_of_lt (hn.trans_lt (by decide))]
  rfl

/-! ### A request -/

def toOps (ps : List (ℕ × Bytes)) : List ChipOp := ps.map fun p => .program p.1 p.2

theorem toOps_append (ps qs : List (ℕ × Bytes)) : toOps (ps ++ qs) = toOps ps ++ toOps qs := List.map_append

/-- The transactions program the data from the address on, page by page; `ps` lists the programs. -/
structure Programs (size : ℕ) (ts : List Transaction) (a : ℕ) (data : Bytes) (ps : List (ℕ × Bytes)) : Prop where
  performs : Performs size ts (toOps ps)
  run : PageRun pageSize a ps data

variable {page : ℕ → ℕ → Bytes → Option (List Transaction)} {ts us : List Transaction} {a : ℕ}
  {d e : Bytes} {ps qs : List (ℕ × Bytes)}

theorem Programs.nil (a : ℕ) : Programs size [] a [] [] := ⟨Performs.nil, .nil a⟩

theorem Programs.append {n : ℕ} (h : Programs size ts a d ps) (hn : d.length = n)
    (h' : Programs size us (a + n) e qs) : Programs size (ts ++ us) a (d ++ e) (ps ++ qs) := by
  subst hn
  exact ⟨toOps_append ps qs ▸ h.performs.append h'.performs, h.run.append h'.run⟩

theorem Programs.single (h : Performs size ts [.program a d]) (hin : a % pageSize + d.length ≤ pageSize) :
    Programs size ts a d [(a, d)] := by
  refine ⟨h, ?_⟩
  have hrun := PageRun.cons hin (PageRun.nil (a + d.length))
  rwa [List.append_nil] at hrun

theorem programPages_spec (hp : SendsPages size page) (hs : size < 2 ^ 32) (k : ℕ) {c : Cursor}
    (ho : pageSize ∣ c.offset) (hin : c.offset + k * pageSize ≤ size) (hb : k * pageSize ≤ c.buffer.length) :
    ∃ ts ps, programPages page k c = some (ts, c.advance (k * pageSize)) ∧
      Programs size ts c.offset (c.buffer.take (k * pageSize)) ps ∧ ∀ p ∈ ps, p.2 ≠ [] := by
  induction k generalizing c with
  | zero =>
    refine ⟨[], [], ?_, ?_, by simp⟩
    · have hoff : c.offset % 2 ^ 32 = c.offset := Nat.mod_eq_of_lt (by omega)
      rw [programPages, Cursor.advance, Nat.zero_mul, Nat.add_zero, hoff]
      rfl
    · simpa using Programs.nil c.offset
  | succ k ih =>
    rw [Nat.succ_mul] at hin hb
    have hpos : 0 < pageSize := by decide
    have hoff : (c.offset + pageSize) % 2 ^ 32 = c.offset + pageSize := Nat.mod_eq_of_lt (by omega)
    obtain ⟨ts, hts, hperf⟩ := hp c.offset pageSize c.buffer (by omega) (Nat.le_refl _)
    have hnext : (c.advance pageSize).offset = c.offset + pageSize := hoff
    obtain ⟨us, qs, hus, hprog, hne⟩ := ih (c := c.advance pageSize)
      (hnext ▸ Nat.dvd_add_self_right.mpr ho) (by omega) (by simp [Cursor.advance]; omega)
    have hlen : (c.buffer.take pageSize).length = pageSize := List.length_take_of_le (by omega)
    have hfirst := Programs.single hperf (by rw [hlen, Nat.mod_eq_zero_of_dvd ho, Nat.zero_add])
    refine ⟨ts ++ us, (c.offset, c.buffer.take pageSize) :: qs, ?_, ?_, ?_⟩
    · rw [programPages, hts]
      simp only [Option.bind_eq_bind, Option.bind_some, hus, Option.pure_def]
      simp only [Cursor.advance, hoff, List.drop_drop, Nat.succ_mul]
      congr 4
      · omega
      · omega
    · rw [hnext] at hprog
      rw [Nat.succ_mul, Nat.add_comm, List.take_add]
      exact hfirst.append hlen hprog
    · refine List.forall_mem_cons.mpr ⟨?_, hne⟩
      exact List.ne_nil_of_length_pos (by rw [hlen]; exact hpos)

/-- From a page boundary on, or with nothing left, every program has data. -/
theorem programRest_spec (hp : SendsPages size page) (hs : size < 2 ^ 24) {c : Cursor}
    (ho : pageSize ∣ c.offset ∨ c.buffer = []) (hin : c.offset + c.buffer.length ≤ size) :
    ∃ ts ps, programRest page c.buffer.length c = some ts ∧ Programs size ts c.offset c.buffer ps ∧
      ∀ p ∈ ps, p.2 ≠ [] := by
  rcases ho with ho | hnil
  · generalize hk : c.buffer.length / pageSize = k
    generalize hr : c.buffer.length % pageSize = r
    have hlen : k * pageSize + r = c.buffer.length := by rw [← hk, ← hr, Nat.div_add_mod']
    have hcycles : k % 2 ^ 16 = k := by
      refine Nat.mod_eq_of_lt ?_
      rw [← hk, Nat.div_lt_iff_lt_mul (by decide), show pageSize = 256 from rfl]
      omega
    have hrlt : r < pageSize := hr ▸ Nat.mod_lt _ (by decide)
    obtain ⟨ts, ps, hts, hprog, hne⟩ := programPages_spec hp (by omega) k ho (by omega) (by omega)
    have hoff : (c.advance (k * pageSize)).offset = c.offset + k * pageSize := Nat.mod_eq_of_lt (by omega)
    have htake : (c.buffer.take (k * pageSize)).length = k * pageSize := List.length_take_of_le (by omega)
    rw [programRest, hk, hcycles, hts, hr]
    simp only [Option.bind_eq_bind, Option.bind_some, Option.pure_def]
    by_cases hr0 : r = 0
    · rw [if_neg (not_not.mpr hr0)]
      rw [List.take_of_length_le (by omega)] at hprog
      exact ⟨ts, ps, rfl, hprog, hne⟩
    · rw [if_pos hr0]
      obtain ⟨us, hus, hperf⟩ := hp (c.advance (k * pageSize)).offset r (c.advance (k * pageSize)).buffer
        (by omega) hrlt.le
      have hall : (c.advance (k * pageSize)).buffer.take r = c.buffer.drop (k * pageSize) :=
        List.take_of_length_le (by simp [Cursor.advance]; omega)
      have hdrop : (c.buffer.drop (k * pageSize)).length = r := by simp; omega
      rw [hall, hoff] at hperf
      have halign : (c.offset + k * pageSize) % pageSize = 0 :=
        Nat.mod_eq_zero_of_dvd (Nat.dvd_add ho (Nat.dvd_mul_left _ _))
      have hlast := Programs.single hperf (by rw [halign, hdrop]; omega)
      have h := hprog.append htake hlast
      rw [List.take_append_drop] at h
      refine ⟨ts ++ us, _, by rw [hus]; rfl, h, ?_⟩
      rintro p hp'
      rcases List.mem_append.mp hp' with h | h
      · exact hne p h
      · rw [List.mem_singleton.mp h]
        exact List.ne_nil_of_length_pos (by rw [hdrop]; omega)
  · rw [hnil]
    exact ⟨[], [], rfl, Programs.nil c.offset, by simp⟩

/-- The head ends at a page boundary or with the request; it is empty when the request is empty
and starts inside a page. -/
theorem programHead_spec (hp : SendsPages size page) {c : Cursor} (hc : c.offset < size) :
    ∃ ts n ps, programHead page c.buffer.length c = some (ts, n) ∧ n ≤ c.buffer.length ∧
      Programs size ts c.offset (c.buffer.take n) ps ∧
      (pageSize ∣ c.offset + n ∨ n = c.buffer.length) ∧
      ((∀ p ∈ ps, p.2 ≠ []) ↔ c.buffer ≠ [] ∨ pageSize ∣ c.offset) := by
  have hpos : 0 < pageSize := by decide
  have hdm := Nat.div_add_mod' c.offset pageSize
  have hm := Nat.mod_lt c.offset hpos
  rw [programHead]
  by_cases hal : pageSize ∣ c.offset
  · have h0 := Nat.mod_eq_zero_of_dvd hal
    rw [if_neg (not_not.mpr (by omega))]
    exact ⟨[], 0, [], rfl, Nat.zero_le _, Programs.nil c.offset, .inl (by simpa using hal), by simp [hal]⟩
  · have h0 : c.offset % pageSize ≠ 0 := fun h => hal (Nat.dvd_of_mod_eq_zero h)
    rw [if_pos (by omega)]
    generalize htl : c.offset / pageSize * pageSize + pageSize - c.offset = tl
    generalize hn : (if c.buffer.length < tl then c.buffer.length else tl) = n
    have hn' : n = c.buffer.length ∧ n < tl ∨ n = tl ∧ tl ≤ c.buffer.length := by
      split_ifs at hn <;> omega
    obtain ⟨ts, hts, hperf⟩ := hp c.offset n c.buffer hc (by omega)
    have hlen : (c.buffer.take n).length = n := List.length_take_of_le (by omega)
    refine ⟨ts, n, [(c.offset, c.buffer.take n)], by simp [hn, hts], by omega,
      Programs.single hperf (by rw [hlen]; omega), ?_, ?_⟩
    · rcases hn' with ⟨hend, -⟩ | ⟨htail, -⟩
      · exact .inr hend
      · left
        have hb : c.offset + n = (c.offset / pageSize + 1) * pageSize := by
          rw [Nat.succ_mul]
          omega
        exact hb ▸ Nat.dvd_mul_left _ _
    · simp only [List.mem_singleton, forall_eq, hal, or_false]
      rw [← List.length_pos_iff, ← List.length_pos_iff, hlen]
      omega

/-- A request inside the device programs a run of pages. A program without data is among them
only for an empty request that starts inside a page. -/
theorem programSplit_spec (hp : SendsPages size page) (hs : size < 2 ^ 24) {offset : ℕ} {data : Bytes}
    (ho : offset < size) (hin : offset + data.length ≤ size) :
    ∃ ts ps, programSplit page size offset data.length data = some ts ∧ Programs size ts offset data ps ∧
      ((∀ p ∈ ps, p.2 ≠ []) ↔ data ≠ [] ∨ pageSize ∣ offset) := by
  obtain ⟨ts, n, ps, hhead, hn, hprog, hend, hne⟩ := programHead_spec hp (c := ⟨offset, data⟩) ho
  have hn' : n ≤ data.length := hn
  have hoff : (Cursor.advance ⟨offset, data⟩ n).offset = offset + n :=
    Nat.mod_eq_of_lt (show offset + n < 2 ^ 32 by omega)
  have hbuf : (Cursor.advance ⟨offset, data⟩ n).buffer.length = data.length - n := by simp [Cursor.advance]
  have hstart : pageSize ∣ (Cursor.advance ⟨offset, data⟩ n).offset ∨
      (Cursor.advance ⟨offset, data⟩ n).buffer = [] := by
    rw [hoff]
    exact hend.imp_right fun h => List.eq_nil_of_length_eq_zero (by rw [hbuf, h]; simp)
  obtain ⟨us, qs, hrest, hprog', hne'⟩ := programRest_spec hp hs hstart (by omega)
  rw [hbuf] at hrest
  refine ⟨ts ++ us, ps ++ qs, ?_, ?_, ?_⟩
  · rw [programSplit, assertParam_true ho]
    simp only [Option.bind_eq_bind, Option.bind_some, hhead, hrest, Option.pure_def]
  · have htake : (data.take n).length = n := List.length_take_of_le hn
    rw [hoff] at hprog'
    have h := hprog.append htake hprog'
    rwa [show (Cursor.advance ⟨offset, data⟩ n).buffer = data.drop n from rfl, List.take_append_drop] at h
  · rw [← hne]
    exact ⟨fun h p hp => h p (List.mem_append_left _ hp), fun h p hp => (List.mem_append.mp hp).elim (h p) (hne' p)⟩

/-! ### The memory -/

theorem applyOps_toOps (ps : List (ℕ × Bytes)) (f : Flash) :
    applyOps (toOps ps) f = ps.foldl (fun g p => pageProgram pageSize p.1 p.2 g) f := by
  rw [applyOps, toOps, List.foldl_map]
  rfl

/-- The chip gets page programs of 1 to 256 bytes, each inside one page, and its memory is ANDed
with the data on the range, as by one program of the whole. -/
structure ByteWise (size : ℕ) (ts : List Transaction) (offset : ℕ) (data : Bytes) : Prop where
  pages : ∀ wel, ∀ o ∈ chipOps size wel ts, ∃ addr d, o = .program addr d ∧ 1 ≤ d.length ∧
    d.length ≤ pageSize ∧ addr % pageSize + d.length ≤ pageSize
  memory : ∀ wel f, applyOps (chipOps size wel ts) f = (Op.program offset data).apply f

/-- Whatever the request, the memory is right. -/
theorem Programs.memory (h : Programs size ts a d ps) (wel : Bool) (f : Flash) :
    applyOps (chipOps size wel ts) f = (Op.program a d).apply f := by
  rw [h.performs.chipOps_eq wel, applyOps_toOps, h.run.foldl_eq (by decide)]

/-- The programs are as they should be when each has data. -/
theorem Programs.byteWise_iff (h : Programs size ts a d ps) :
    ByteWise size ts a d ↔ ∀ p ∈ ps, p.2 ≠ [] := by
  constructor
  · intro hb p hp
    have hmem : ChipOp.program p.1 p.2 ∈ chipOps size false ts := by
      rw [h.performs.chipOps_eq]
      exact List.mem_map_of_mem hp
    obtain ⟨addr, d', heq, hpos, -⟩ := hb.pages false _ hmem
    injection heq with _ hd
    exact List.ne_nil_of_length_pos (hd ▸ hpos)
  · intro hne
    refine ⟨fun wel o ho => ?_, h.memory⟩
    rw [h.performs.chipOps_eq] at ho
    obtain ⟨p, hp, rfl⟩ := List.mem_map.mp ho
    have hin := h.run.inside p hp
    exact ⟨p.1, p.2, rfl, List.length_pos_iff.mpr (hne p hp), by omega, hin⟩

theorem programSplit_byteWise_iff (hp : SendsPages size page) (hs : size < 2 ^ 24) {offset : ℕ} {data : Bytes}
    (ho : offset < size) (hin : offset + data.length ≤ size) :
    (∃ ts, programSplit page size offset data.length data = some ts ∧ ByteWise size ts offset data) ↔
      0 < data.length ∨ pageSize ∣ offset := by
  obtain ⟨ts, ps, hts, hprog, hne⟩ := programSplit_spec hp hs ho hin
  rw [List.length_pos_iff, ← hne, ← hprog.byteWise_iff]
  constructor
  · rintro ⟨us, hus, hb⟩
    rw [hts] at hus
    injection hus with hus
    exact hus ▸ hb
  · exact fun hb => ⟨ts, hts, hb⟩

/-- Both drivers program a request inside the device byte by byte, through page programs alone,
exactly when the request has data or starts at a page boundary. -/
theorem flashProgram_exFlashProgram_byteWise_iff (offset : ℕ) (data : Bytes) :
    (offset < falshSizeMax → offset + data.length ≤ falshSizeMax →
      ((∃ ts, flashProgram offset data.length data = some ts ∧ ByteWise falshSizeMax ts offset data) ↔
        0 < data.length ∨ pageSize ∣ offset)) ∧
    (offset < exFalshSizeMax → offset + data.length ≤ exFalshSizeMax →
      ((∃ ts, exFlashProgram offset data.length data = some ts ∧ ByteWise exFalshSizeMax ts offset data) ↔
        0 < data.length ∨ pageSize ∣ offset)) :=
  ⟨programSplit_byteWise_iff flashPageProgramGeneral_sends (by decide),
    programSplit_byteWise_iff exFlashPageProgram_sends (by decide)⟩

/-- Data over a page boundary, in both drivers. -/
theorem flashProgram_exFlashProgram_byteWise_over_boundary :
    ((∃ ts, flashProgram 254 3 [1, 2, 3] = some ts ∧ ByteWise falshSizeMax ts 254 [1, 2, 3]) ↔
        0 < 3 ∨ pageSize ∣ 254) ∧
      ((∃ ts, exFlashProgram 254 3 [1, 2, 3] = some ts ∧ ByteWise exFalshSizeMax ts 254 [1, 2, 3]) ↔
        0 < 3 ∨ pageSize ∣ 254) :=
  ⟨(flashProgram_exFlashProgram_byteWise_iff 254 [1, 2, 3]).1 (by decide) (by decide),
    (flashProgram_exFlashProgram_byteWise_iff 254 [1, 2, 3]).2 (by decide) (by decide)⟩

/-- An empty request inside a page sends a page program without data. -/
theorem flashProgram_empty_sends :
    ¬ ∀ (offset : ℕ) (data : Bytes), offset < falshSizeMax → offset + data.length ≤ falshSizeMax →
      ∃ ts, flashProgram offset data.length data = some ts ∧ ByteWise falshSizeMax ts offset data := by
  intro h
  obtain ⟨ts, hts, hb⟩ := h 1 [] (by decide) (by decide)
  have hts' : flashProgram 1 0 [] = some [[0x06], [0x02, 0, 0, 1]] := rfl
  rw [List.length_nil, hts'] at hts
  injection hts with hts
  subst hts
  obtain ⟨addr, d, heq, hpos, -⟩ := hb.pages false (.program 1 []) (by decide)
  injection heq with _ hd
  rw [← hd] at hpos
  exact absurd hpos (by decide)

end Ln882x.Hal
