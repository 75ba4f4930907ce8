import Ln882x.Nor.Tiles
import Ln882x.Nor.Pages
import Mathlib.Order.Interval.Set.Basic

/-! The serial NOR chips behind the two drivers. A transaction is the list of bytes
sent while the chip is selected: an opcode, for most commands three address bytes from
the high one down, and the data. An erase clears the naturally aligned unit around its
address. A page program loads its bytes into a 256-byte page buffer, wrapping inside it,
and clears bits of one page. Both take effect only behind a write enable. The chip
decodes as many address bits as its size needs. Waiting for the end of an operation
reads the status register and changes nothing, so it leaves no transaction here. -/

namespace Ln882x.Hal

open Nor

abbrev Transaction := Bytes

/-- `FLASH_PAGE_SIZE`, `EXFLASH_PAGE_SIZE`. -/
def pageSize : ℕ := 256

/-- `assert_param`: a false argument ends in the endless loop of `assert_failed`. -/
def assertParam (p : Prop) [Decidable p] : Option Unit := if p then some () else none

theorem assertParam_true {p : Prop} [Decidable p] (h : p) : assertParam p = some () := if_pos h

/-- A23..A16, A15..A8, A7..A0. -/
def addrBytes (addr : ℕ) : Bytes :=
  [UInt8.ofNat (addr / 2 ^ 16), UInt8.ofNat (addr / 2 ^ 8), UInt8.ofNat addr]

/-! ### The chip -/

/-- What the chip does to its memory. -/
inductive ChipOp
  | erase (e : UnitErase)
  | program (addr : ℕ) (data : Bytes)
  deriving DecidableEq

def ChipOp.apply : ChipOp → Flash → Flash
  | .erase e, f => e.apply f
  | .program addr data, f => pageProgram pageSize addr data f

def applyOps (os : List ChipOp) (f : Flash) : Flash := os.foldl (fun g o => o.apply g) f

/-- The bytes the erases among the operations clear. -/
def clearedBytes (os : List ChipOp) : Set ℕ := {x | ∃ e, .erase e ∈ os ∧ e.Clears x}

inductive Request
  | writeEnable
  | op (o : ChipOp)
  deriving DecidableEq

/-- The unit an erase opcode clears. -/
def eraseUnit (op : UInt8) : Option ℕ :=
  if op = 0x20 then some (4 * 1024)
  else if op = 0x52 then some (32 * 1024)
  else if op = 0xD8 then some (64 * 1024)
  else none

/-- The request in a transaction to a chip of `size` bytes. -/
def decode (size : ℕ) : Transaction → Option Request
  | [op] => if op = 0x06 then some .writeEnable else none
  | op :: a2 :: a1 :: a0 :: data =>
    let addr := (a2.toNat * 2 ^ 16 + a1.toNat * 2 ^ 8 + a0.toNat) % size
    match eraseUnit op with
    | some unit => some (.op (.erase ⟨addr, unit⟩))
    | none => if op = 0x02 then some (.op (.program addr data)) else none
  | _ => none

/-- The operations carried out for a list of transactions. `wel` is the write enable latch;
an operation clears it. -/
def chipOps (size : ℕ) : Bool → List Transaction → List ChipOp
  | _, [] => []
  | wel, t :: ts =>
    match decode size t with
    | some .writeEnable => chipOps size true ts
    | some (.op o) => if wel then o :: chipOps size false ts else chipOps size wel ts
    | none => chipOps size wel ts

/-! ### Addresses -/

variable {size : ℕ}

theorem addrBytes_addr (h24 : size ∣ 2 ^ 24) (addr : ℕ) :
    ((UInt8.ofNat (addr / 2 ^ 16)).toNat * 2 ^ 16 + (UInt8.ofNat (addr / 2 ^ 8)).toNat * 2 ^ 8 +
      (UInt8.ofNat addr).toNat) % size = addr % size := by
  simp only [UInt8.toNat_ofNat']
  rw [← Nat.mod_mod_of_dvd addr h24]
  congr 1
  omega

theorem decode_erase (h24 : size ∣ 2 ^ 24) {op : UInt8} {unit : ℕ} (hop : eraseUnit op = some unit)
    (addr : ℕ) : decode size (op :: addrBytes addr) = some (.op (.erase ⟨addr % size, unit⟩)) := by
  simp only [addrBytes, decode, hop, addrBytes_addr h24]

theorem decode_program (h24 : size ∣ 2 ^ 24) (addr : ℕ) (data : Bytes) :
    decode size (0x02 :: addrBytes addr ++ data) = some (.op (.program (addr % size) data)) := by
  have hop : eraseUnit 0x02 = none := rfl
  simp only [addrBytes, List.cons_append, List.nil_append, decode, hop, addrBytes_addr h24, if_true]

/-! ### Transactions and operations -/

/-- The transactions make the chip carry out the operations, whatever the latch and
whatever follows. -/
def Performs (size : ℕ) (ts : List Transaction) (os : List ChipOp) : Prop :=
  ∀ wel rest, ∃ wel', chipOps size wel (ts ++ rest) = os ++ chipOps size wel' rest

variable {ts us : List Transaction} {os ps : List ChipOp}

theorem Performs.nil : Performs size [] [] := fun wel _ => ⟨wel, rfl⟩

theorem Performs.append (h : Performs size ts os) (h' : Performs size us ps) :
    Performs size (ts ++ us) (os ++ ps) := by
  intro wel rest
  obtain ⟨w, hw⟩ := h wel (us ++ rest)
  obtain ⟨w', hw'⟩ := h' w rest
  exact ⟨w', by rw [List.append_assoc, hw, hw', List.append_assoc]⟩

theorem Performs.chipOps_eq (h : Performs size ts os) (wel : Bool) : chipOps size wel ts = os := by
  obtain ⟨w, hw⟩ := h wel []
  simpa [chipOps] using hw

/-- A write enable and a command behind it. -/
theorem performs_command {cmd : Transaction} {o : ChipOp} (h : decode size cmd = some (.op o)) :
    Performs size [[0x06], cmd] [o] := by
  intro wel rest
  refine ⟨false, ?_⟩
  show chipOps size true (cmd :: rest) = o :: chipOps size false rest
  rw [chipOps, h]
  rfl

/-! ### Erases -/

variable {es : List UnitErase}

theorem performs_erase (h24 : size ∣ 2 ^ 24) {op : UInt8} {unit a : ℕ} (hop : eraseUnit op = some unit)
    (ha : a < size) : Performs size [[0x06], op :: addrBytes a] [.erase ⟨a, unit⟩] := by
  have h := decode_erase h24 hop a
  rw [Nat.mod_eq_of_lt ha] at h
  exact performs_command h

theorem mem_clearedBytes (x : ℕ) : x ∈ clearedBytes (es.map .erase) ↔ Cleared es x := by
  simp only [clearedBytes, Cleared, Set.mem_ofPred_eq, List.mem_map, ChipOp.erase.injEq, exists_eq_right]

theorem applyOps_erases (es : List UnitErase) (f : Flash) :
    applyOps (es.map .erase) f = es.foldl (fun g e => e.apply g) f := by
  rw [applyOps, List.foldl_map]
  rfl

theorem clearedBytes_tiles {a b : ℕ} (h : Tiles a es b) :
    clearedBytes (es.map .erase) = Set.Ico a b := by
  ext x
  rw [mem_clearedBytes, h.cleared_iff, Set.mem_Ico]

/-! ### A loop of erases -/

/-- `for (i = 0; i < num; i++) { erase(tmpoffset); tmpoffset += unit; }`: the transactions and
the offset reached. -/
def eraseLoop (erase : ℕ → List Transaction) (unit : ℕ) : ℕ → ℕ → List Transaction × ℕ
  | 0, tmpoffset => ([], tmpoffset)
  | num + 1, tmpoffset =>
    let (ts, off) := eraseLoop erase unit num ((tmpoffset + unit) % 2 ^ 32)
    (erase tmpoffset ++ ts, off)

theorem eraseLoop_performs (erase : ℕ → List Transaction) (unit num off : ℕ) (hs : size < 2 ^ 32)
    (he : ∀ a, a < size → Performs size (erase a) [.erase ⟨a, unit⟩]) (hu : 0 < unit)
    (hoff : off + num * unit ≤ size) :
    (eraseLoop erase unit num off).2 = off + num * unit ∧
      Performs size (eraseLoop erase unit num off).1 ((unitsFrom unit num off).map .erase) := by
  induction num generalizing off with
  | zero => exact ⟨by simp [eraseLoop], Performs.nil⟩
  | succ num ih =>
    rw [Nat.succ_mul] at hoff
    have hnext : (off + unit) % 2 ^ 32 = off + unit := Nat.mod_eq_of_lt (by omega)
    obtain ⟨hend, hperf⟩ := ih (off + unit) (by omega)
    rw [eraseLoop, hnext]
    refine ⟨?_, (he off (by omega)).append hperf⟩
    rw [hend, Nat.succ_mul]
    omega

end Ln882x.Hal
