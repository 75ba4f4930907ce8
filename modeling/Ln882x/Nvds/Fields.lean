import Ln882x.Nvds.Atomic

/-! The typed fields of the data store. Eight values lie one after the other
behind the version string. A setter reads its field, returns at once when the
value is there already and writes it otherwise; a getter reads the field into a
variable that was zero. -/

namespace Ln882x.Nvds

open Nor

/-! ### Layout -/

def nv1OtaUpgStateLen : ℕ := 4

def nv2XtalCompValOffst : ℕ := nv1OtaUpgStateOffst + nv1OtaUpgStateLen

def nv2XtalCompValLen : ℕ := 1

def nv3TxPowerCompOffst : ℕ := nv2XtalCompValOffst + nv2XtalCompValLen

def nv3TxPowerCompLen : ℕ := 1

def nv4ChipSnOffset : ℕ := nv3TxPowerCompOffst + nv3TxPowerCompLen

def nv4ChipSnLen : ℕ := 20

def nv5BootLogUartBrOffset : ℕ := nv4ChipSnOffset + nv4ChipSnLen

def nv5BootLogUartBrLen : ℕ := 1

def nv6BootLogEnOffset : ℕ := nv5BootLogUartBrOffset + nv5BootLogUartBrLen

def nv6BootLogEnLen : ℕ := 1

def nv7BootDelayMsOffset : ℕ := nv6BootLogEnOffset + nv6BootLogEnLen

def nv7BootDelayMsLen : ℕ := 2

def nv8BootDelayEnOffset : ℕ := nv7BootDelayMsOffset + nv7BootDelayMsLen

def nv8BootDelayEnLen : ℕ := 1

/-! ### Setters and getters -/

/-- A getter of a number: `len` bytes are read into a variable that was zero. -/
def nvdsGetVal (base offset len : ℕ) : M (NvdsErr × ℕ) := do
  let (err, bs) ← lnNvdsRead base offset len
  return (err, le bs)

/-- A setter of a number: the low `len` bytes of the variable are written. -/
def nvdsSetVal (base offset len val : ℕ) : M NvdsErr := do
  let (err, rdVal) ← nvdsGetVal base offset len
  if err = .ok ∧ rdVal = val then return .ok
  lnNvdsWrite base offset (leBytes len val)

def lnNvdsGetXtalCompVal (base : ℕ) := nvdsGetVal base nv2XtalCompValOffst nv2XtalCompValLen

def lnNvdsSetXtalCompVal (base val : ℕ) := nvdsSetVal base nv2XtalCompValOffst nv2XtalCompValLen val

def lnNvdsGetTxPowerComp (base : ℕ) := nvdsGetVal base nv3TxPowerCompOffst nv3TxPowerCompLen

def lnNvdsSetTxPowerComp (base val : ℕ) := nvdsSetVal base nv3TxPowerCompOffst nv3TxPowerCompLen val

def lnNvdsGetChipSn (base bufLen : ℕ) : M (NvdsErr × Bytes) :=
  lnNvdsRead base nv4ChipSnOffset (if nv4ChipSnLen > bufLen then bufLen else nv4ChipSnLen)

def lnNvdsSetChipSn (base : ℕ) (sn : Bytes) : M NvdsErr := do
  let (err, rdVal) ← lnNvdsGetChipSn base nv4ChipSnLen
  if err = .ok ∧ rdVal = sn then return .ok
  lnNvdsWrite base nv4ChipSnOffset sn

def lnNvdsGetBootLogUartBaudrate (base : ℕ) :=
  nvdsGetVal base nv5BootLogUartBrOffset nv5BootLogUartBrLen

def lnNvdsSetBootLogUartBaudrate (base baudrate : ℕ) :=
  nvdsSetVal base nv5BootLogUartBrOffset nv5BootLogUartBrLen baudrate

def lnNvdsGetBootLogEn (base : ℕ) := nvdsGetVal base nv6BootLogEnOffset nv6BootLogEnLen

def lnNvdsSetBootLogEn (base val : ℕ) := nvdsSetVal base nv6BootLogEnOffset nv6BootLogEnLen val

def lnNvdsGetBootDelayMs (base : ℕ) := nvdsGetVal base nv7BootDelayMsOffset nv7BootDelayMsLen

def lnNvdsSetBootDelayMs (base val : ℕ) := nvdsSetVal base nv7BootDelayMsOffset nv7BootDelayMsLen val

def lnNvdsGetBootDelayEn (base : ℕ) := nvdsGetVal base nv8BootDelayEnOffset nv8BootDelayEnLen

def lnNvdsSetBootDelayEn (base val : ℕ) := nvdsSetVal base nv8BootDelayEnOffset nv8BootDelayEnLen val

/-! ### Calls -/

inductive Field where
  | otaUpgState | xtalCompVal | txPowerComp | chipSn
  | bootLogUartBaudrate | bootLogEn | bootDelayMs | bootDelayEn
  deriving DecidableEq

/-- What a getter hands back: a number, or the bytes of the serial number. -/
inductive Value where
  | num (n : ℕ)
  | sn (bs : Bytes)
  deriving DecidableEq

/-- A call of a setter, with a value of its parameter's type. -/
inductive Setter where
  | otaUpgState (state : UInt32)
  | xtalCompVal (val : UInt8)
  | txPowerComp (val : UInt8)
  | chipSn (sn : Bytes) (hsn : sn.length = nv4ChipSnLen)
  | bootLogUartBaudrate (baudrate : UInt32)
  | bootLogEn (val : UInt8)
  | bootDelayMs (val : UInt16)
  | bootDelayEn (val : UInt8)

/-- A call of a getter; the serial number is read into a buffer of `bufLen` bytes. -/
inductive Getter where
  | otaUpgState | xtalCompVal | txPowerComp | chipSn (bufLen : UInt8)
  | bootLogUartBaudrate | bootLogEn | bootDelayMs | bootDelayEn

namespace Setter

def field : Setter → Field
  | .otaUpgState _ => .otaUpgState
  | .xtalCompVal _ => .xtalCompVal
  | .txPowerComp _ => .txPowerComp
  | .chipSn _ _ => .chipSn
  | .bootLogUartBaudrate _ => .bootLogUartBaudrate
  | .bootLogEn _ => .bootLogEn
  | .bootDelayMs _ => .bootDelayMs
  | .bootDelayEn _ => .bootDelayEn

def run (base : ℕ) : Setter → M NvdsErr
  | .otaUpgState state => lnNvdsSetOtaUpgState base state.toNat
  | .xtalCompVal val => lnNvdsSetXtalCompVal base val.toNat
  | .txPowerComp val => lnNvdsSetTxPowerComp base val.toNat
  | .chipSn sn _ => lnNvdsSetChipSn base sn
  | .bootLogUartBaudrate baudrate => lnNvdsSetBootLogUartBaudrate base baudrate.toNat
  | .bootLogEn val => lnNvdsSetBootLogEn base val.toNat
  | .bootDelayMs val => lnNvdsSetBootDelayMs base val.toNat
  | .bootDelayEn val => lnNvdsSetBootDelayEn base val.toNat

/-- The value set, as a variable of the getter holds it. -/
def value : Setter → Getter → Value
  | .otaUpgState state, _ => .num state.toNat
  | .xtalCompVal val, _ => .num val.toNat
  | .txPowerComp val, _ => .num val.toNat
  | .chipSn sn _, .chipSn bufLen => .sn (sn.take bufLen.toNat)
  | .chipSn sn _, _ => .sn sn
  | .bootLogUartBaudrate baudrate, _ => .num baudrate.toNat
  | .bootLogEn val, _ => .num val.toNat
  | .bootDelayMs val, _ => .num val.toNat
  | .bootDelayEn val, _ => .num val.toNat

end Setter

namespace Getter

def field : Getter → Field
  | .otaUpgState => .otaUpgState
  | .xtalCompVal => .xtalCompVal
  | .txPowerComp => .txPowerComp
  | .chipSn _ => .chipSn
  | .bootLogUartBaudrate => .bootLogUartBaudrate
  | .bootLogEn => .bootLogEn
  | .bootDelayMs => .bootDelayMs
  | .bootDelayEn => .bootDelayEn

def num (p : NvdsErr × ℕ) : NvdsErr × Value := (p.1, .num p.2)

def run (base : ℕ) : Getter → M (NvdsErr × Value)
  | .otaUpgState => num <$> lnNvdsGetOtaUpgState base
  | .xtalCompVal => num <$> lnNvdsGetXtalCompVal base
  | .txPowerComp => num <$> lnNvdsGetTxPowerComp base
  | .chipSn bufLen => (fun p => (p.1, .sn p.2)) <$> lnNvdsGetChipSn base bufLen.toNat
  | .bootLogUartBaudrate => num <$> lnNvdsGetBootLogUartBaudrate base
  | .bootLogEn => num <$> lnNvdsGetBootLogEn base
  | .bootDelayMs => num <$> lnNvdsGetBootDelayMs base
  | .bootDelayEn => num <$> lnNvdsGetBootDelayEn base

end Getter

/-! ### What a write leaves -/

section
variable {base offset : ℕ} {data : Bytes} {f : Flash}

theorem splice_self {c : Bytes} (h : offset ≤ c.length) :
    ((splice c offset data).drop offset).take data.length = data := by
  rw [splice, List.append_assoc, List.drop_left' (by simp; omega), List.take_left' rfl]

theorem splice_before {c : Bytes} {o n : ℕ} (h : o + n ≤ offset) (hc : offset ≤ c.length) :
    ((splice c offset data).drop o).take n = (c.drop o).take n := by
  rw [splice, List.append_assoc, List.drop_append_of_le_length (by simp; omega),
    List.take_append_of_le_length (by simp; omega), List.drop_take, List.take_take,
    Nat.min_eq_left (by omega)]

theorem splice_after {c : Bytes} {o n : ℕ} (h : offset + data.length ≤ o) (hc : offset ≤ c.length) :
    ((splice c offset data).drop o).take n = (c.drop o).take n := by
  have hl : (c.take offset ++ data).length = offset + data.length := by simp; omega
  rw [splice, List.drop_append, List.drop_eq_nil_of_le (by omega), List.nil_append, List.drop_drop, hl,
    Nat.add_sub_cancel' h]

/-- The bytes of the valid mirror from `o` on. -/
def stored (base o n : ℕ) (f : Flash) : Bytes := readBytes f (validSect base f + o) n

@[simp] theorem length_stored (o n : ℕ) : (stored base o n f).length = n := by simp [stored]

theorem stored_eq {o n : ℕ} (h : o + n ≤ size4KB) :
    stored base o n f = ((content base f).drop o).take n := readBytes_slice f _ size4KB o n h

theorem stamped_drop {o : ℕ} (h : 4 ≤ o) (src : ℕ) :
    (stamped f src).drop o = (readBytes f src size4KB).drop o := by
  have hs : readBytes f src size4KB = readBytes f src 4 ++ readBytes f (src + 4) (size4KB - 4) := by
    rw [← readBytes_add]
    rfl
  have h0 : (leBytes 4 sectMagicCode).drop o = [] := List.drop_eq_nil_of_le (by simpa using h)
  have h1 : (readBytes f src 4).drop o = [] := List.drop_eq_nil_of_le (by simpa using h)
  rw [hs, stamped, List.drop_append, List.drop_append, h0, h1, length_leBytes, length_readBytes]

/-- Only the bytes written change, the magic code apart. -/
theorem lnNvdsWrite_stored (h4 : 4 ≤ offset) (hl : offset + data.length ≤ size4KB) (d : Dev) :
    ∃ d', lnNvdsWrite base offset data d = (.ok, d') ∧ Sound base d'.flash ∧
      stored base offset data.length d'.flash = data ∧
      ∀ o n, 4 ≤ o → o + n ≤ size4KB → (o + n ≤ offset ∨ offset + data.length ≤ o) →
        stored base o n d'.flash = stored base o n d.flash := by
  obtain ⟨d', he, hs, hc⟩ := @lnNvdsWrite_stamped base _ _ h4 hl d
  have hlen : offset ≤ (stamped d.flash (validSect base d.flash)).length := by
    simp [stamped]
    simp only [size4KB] at *
    omega
  refine ⟨d', he, hs, ?_, ?_⟩
  · rw [stored_eq hl, hc, splice_self hlen]
  · intro o n ho hon hd
    rw [stored_eq hon, stored_eq hon, hc, content, ← stamped_drop ho]
    rcases hd with hd | hd
    · exact splice_before hd hlen
    · exact splice_after hd hlen

end

/-! ### One field -/

namespace Field

def offset : Field → ℕ
  | .otaUpgState => nv1OtaUpgStateOffst
  | .xtalCompVal => nv2XtalCompValOffst
  | .txPowerComp => nv3TxPowerCompOffst
  | .chipSn => nv4ChipSnOffset
  | .bootLogUartBaudrate => nv5BootLogUartBrOffset
  | .bootLogEn => nv6BootLogEnOffset
  | .bootDelayMs => nv7BootDelayMsOffset
  | .bootDelayEn => nv8BootDelayEnOffset

def len : Field → ℕ
  | .otaUpgState => nv1OtaUpgStateLen
  | .xtalCompVal => nv2XtalCompValLen
  | .txPowerComp => nv3TxPowerCompLen
  | .chipSn => nv4ChipSnLen
  | .bootLogUartBaudrate => nv5BootLogUartBrLen
  | .bootLogEn => nv6BootLogEnLen
  | .bootDelayMs => nv7BootDelayMsLen
  | .bootDelayEn => nv8BootDelayEnLen

theorem offset_ge (x : Field) : 4 ≤ x.offset := by cases x <;> decide

theorem offset_add_len (x : Field) : x.offset + x.len ≤ size4KB := by cases x <;> decide

theorem disjoint {x y : Field} (h : x ≠ y) :
    x.offset + x.len ≤ y.offset ∨ y.offset + y.len ≤ x.offset := by
  revert h
  cases x <;> cases y <;> decide

end Field

/-- The bytes a setter stores. -/
def Setter.bytes : Setter → Bytes
  | .otaUpgState state => leBytes nv1OtaUpgStateLen state.toNat
  | .xtalCompVal val => leBytes nv2XtalCompValLen val.toNat
  | .txPowerComp val => leBytes nv3TxPowerCompLen val.toNat
  | .chipSn sn _ => sn
  | .bootLogUartBaudrate baudrate => leBytes nv5BootLogUartBrLen baudrate.toNat
  | .bootLogEn val => leBytes nv6BootLogEnLen val.toNat
  | .bootDelayMs val => leBytes nv7BootDelayMsLen val.toNat
  | .bootDelayEn val => leBytes nv8BootDelayEnLen val.toNat

theorem Setter.length_bytes (s : Setter) : s.bytes.length = s.field.len := by
  cases s with
  | chipSn sn hsn => exact hsn
  | _ => exact length_leBytes _ _

/-- What a getter makes of the stored bytes of its field. -/
def Getter.decode : Getter → Bytes → Value
  | .chipSn bufLen, bs => .sn (bs.take bufLen.toNat)
  | _, bs => .num (le bs)

section
variable {base : ℕ} {f : Flash}

theorem nvdsGetVal_readable {d : Dev} (h : Readable base d.flash) {offset len : ℕ}
    (hl : offset + len ≤ size4KB) :
    nvdsGetVal base offset len d = ((.ok, le (stored base offset len d.flash)), d) := by
  rw [nvdsGetVal, run_bind_eq (lnNvdsRead_readable h hl d rfl)]
  rfl

/-- A getter reads its own field. -/
theorem Getter.run_readable (g : Getter) {d : Dev} (h : Readable base d.flash) :
    g.run base d =
      ((.ok, g.decode (stored base g.field.offset g.field.len d.flash)), d) := by
  have hval : ∀ {offset len : ℕ}, offset + len ≤ size4KB → (num <$> nvdsGetVal base offset len) d =
      ((.ok, .num (le (stored base offset len d.flash))), d) := by
    intro offset len hl
    have hm : (num <$> nvdsGetVal base offset len) d =
        (num (nvdsGetVal base offset len d).1, (nvdsGetVal base offset len d).2) := rfl
    rw [hm, nvdsGetVal_readable h hl]
    rfl
  cases g with
  | chipSn bufLen =>
    have hn : (if nv4ChipSnLen > bufLen.toNat then bufLen.toNat else nv4ChipSnLen) =
        min bufLen.toNat nv4ChipSnLen := by
      split_ifs <;> omega
    have hl : nv4ChipSnOffset + min bufLen.toNat nv4ChipSnLen ≤ size4KB :=
      le_trans (Nat.add_le_add_left (Nat.min_le_right _ _) _) (by decide)
    have hm : (Getter.chipSn bufLen).run base d = (((lnNvdsGetChipSn base bufLen.toNat d).1.1,
        .sn (lnNvdsGetChipSn base bufLen.toNat d).1.2), (lnNvdsGetChipSn base bufLen.toNat d).2) := rfl
    rw [hm, lnNvdsGetChipSn, hn, lnNvdsRead_readable h hl d rfl]
    have ht : readBytes d.flash (validSect base d.flash + nv4ChipSnOffset) (min bufLen.toNat nv4ChipSnLen) =
        (stored base nv4ChipSnOffset nv4ChipSnLen d.flash).take bufLen.toNat := by
      have hs := readBytes_slice d.flash (validSect base d.flash + nv4ChipSnOffset) nv4ChipSnLen 0
        (min bufLen.toNat nv4ChipSnLen) (by simp)
      rw [Nat.add_zero, List.drop_zero] at hs
      rw [hs, stored, List.take_eq_take_iff, length_readBytes, Nat.min_assoc, Nat.min_self]
    rw [ht]
    rfl
  | otaUpgState => exact hval (by decide)
  | xtalCompVal => exact hval (by decide)
  | txPowerComp => exact hval (by decide)
  | bootLogUartBaudrate => exact hval (by decide)
  | bootLogEn => exact hval (by decide)
  | bootDelayMs => exact hval (by decide)
  | bootDelayEn => exact hval (by decide)

/-- What a setter leaves: the magic code where it was, its bytes in its field, every other field
as it was. -/
def Setter.Stores (base : ℕ) (s : Setter) (f g : Flash) : Prop :=
  (Sound base f → Sound base g) ∧ stored base s.field.offset s.field.len g = s.bytes ∧
    ∀ x, x ≠ s.field → stored base x.offset x.len g = stored base x.offset x.len f

theorem Setter.write_stores (s : Setter) (d : Dev) :
    ∃ d', lnNvdsWrite base s.field.offset s.bytes d = (.ok, d') ∧ Readable base d'.flash ∧
      s.Stores base d.flash d'.flash := by
  have hlen := s.length_bytes
  have hl : s.field.offset + s.bytes.length ≤ size4KB := by
    rw [hlen]
    exact s.field.offset_add_len
  obtain ⟨d', he, hs, h1, h2⟩ := @lnNvdsWrite_stored base _ _ s.field.offset_ge hl d
  refine ⟨d', he, hs.readable, fun _ => hs, by rw [← hlen]; exact h1, fun x hx => ?_⟩
  apply h2 x.offset x.len x.offset_ge x.offset_add_len
  rw [hlen]
  exact Field.disjoint hx

theorem Setter.same_stores (s : Setter) (h : stored base s.field.offset s.field.len f = s.bytes) :
    s.Stores base f f := ⟨id, h, fun _ _ => rfl⟩

/-- The shortcut of a setter of a number: equal numbers have equal bytes. -/
theorem nvdsSetVal_stores {s : Setter} {val : ℕ} (hb : s.bytes = leBytes s.field.len val) {d : Dev}
    (h : Readable base d.flash) :
    ∃ d', nvdsSetVal base s.field.offset s.field.len val d = (.ok, d') ∧ Readable base d'.flash ∧
      s.Stores base d.flash d'.flash := by
  rw [nvdsSetVal, run_bind_eq (nvdsGetVal_readable h s.field.offset_add_len)]
  dsimp only
  rw [run_ite]
  by_cases hv : le (stored base s.field.offset s.field.len d.flash) = val
  · refine ⟨d, if_pos ⟨rfl, hv⟩, h, s.same_stores ?_⟩
    have hl := leBytes_le (stored base s.field.offset s.field.len d.flash)
    rw [length_stored, hv] at hl
    rw [hb, hl]
  · obtain ⟨d', he, hr, hs⟩ := s.write_stores d
    refine ⟨d', ?_, hr, hs⟩
    rw [if_neg (fun hp => hv hp.2), ← hb, he]

theorem Setter.run_stores (s : Setter) {d : Dev} (h : Readable base d.flash) :
    ∃ d', s.run base d = (.ok, d') ∧ Readable base d'.flash ∧ s.Stores base d.flash d'.flash := by
  cases s with
  | chipSn sn hsn =>
    have hl : nv4ChipSnOffset + nv4ChipSnLen ≤ size4KB := by decide
    have hg : lnNvdsGetChipSn base nv4ChipSnLen d =
        ((.ok, stored base nv4ChipSnOffset nv4ChipSnLen d.flash), d) := by
      rw [lnNvdsGetChipSn, if_neg (lt_irrefl _), lnNvdsRead_readable h hl d rfl]
      rfl
    rw [Setter.run, lnNvdsSetChipSn, run_bind_eq hg]
    dsimp only
    rw [run_ite]
    by_cases hv : stored base nv4ChipSnOffset nv4ChipSnLen d.flash = sn
    · exact ⟨d, if_pos ⟨rfl, hv⟩, h, (Setter.chipSn sn hsn).same_stores hv⟩
    · obtain ⟨d', he, hr, hs⟩ := (Setter.chipSn sn hsn).write_stores d
      exact ⟨d', by rw [if_neg (fun hp => hv hp.2)]; exact he, hr, hs⟩
  | otaUpgState state => exact nvdsSetVal_stores (s := .otaUpgState state) rfl h
  | xtalCompVal val => exact nvdsSetVal_stores (s := .xtalCompVal val) rfl h
  | txPowerComp val => exact nvdsSetVal_stores (s := .txPowerComp val) rfl h
  | bootLogUartBaudrate b => exact nvdsSetVal_stores (s := .bootLogUartBaudrate b) rfl h
  | bootLogEn val => exact nvdsSetVal_stores (s := .bootLogEn val) rfl h
  | bootDelayMs val => exact nvdsSetVal_stores (s := .bootDelayMs val) rfl h
  | bootDelayEn val => exact nvdsSetVal_stores (s := .bootDelayEn val) rfl h

/-! ### Runs of setters -/

/-- The device after `ln_nvds_init` on any content and the given setters. -/
def afterSetters (base : ℕ) (f : Flash) (ss : List Setter) : Dev :=
  ss.foldl (fun d s => (s.run base d).2) (lnNvdsInit base (.on f)).2

/-- After the setter its getters return the value set, and every other getter returns what it
returned before. -/
def Setter.RoundTrips (base : ℕ) (s : Setter) (d : Dev) : Prop :=
  (∀ g : Getter, g.field = s.field → (g.run base (s.run base d).2).1 = (.ok, s.value g)) ∧
    ∀ g : Getter, g.field ≠ s.field → (g.run base (s.run base d).2).1 = (g.run base d).1

/-- The value fits the stored length; only the baud rate has fewer bytes than its type. -/
def Setter.Fits : Setter → Prop
  | .bootLogUartBaudrate baudrate => baudrate.toNat < 256
  | _ => True

theorem afterSetters_readable (f : Flash) (ss : List Setter) :
    Readable base (afterSetters base f ss).flash := by
  induction ss using List.reverseRecOn with
  | nil => exact (lnNvdsInit_spec (.on f)).2
  | append_singleton ss s ih =>
    obtain ⟨d', he, hr, -⟩ := s.run_stores ih
    have hstep : afterSetters base f (ss ++ [s]) = (s.run base (afterSetters base f ss)).2 := by
      simp [afterSetters]
    rw [hstep, he]
    exact hr

/-- The getters decode the bytes set to the value set, as far as these hold it. -/
theorem Setter.decode_bytes {s : Setter} (hf : s.Fits) {g : Getter} (hg : g.field = s.field) :
    g.decode s.bytes = s.value g := by
  cases s with
  | otaUpgState state =>
    cases g <;> cases hg
    exact congrArg Value.num (le_leBytes 4 _ state.toNat_lt)
  | xtalCompVal val =>
    cases g <;> cases hg
    exact congrArg Value.num (le_leBytes 1 _ val.toNat_lt)
  | txPowerComp val =>
    cases g <;> cases hg
    exact congrArg Value.num (le_leBytes 1 _ val.toNat_lt)
  | chipSn sn hsn =>
    cases g <;> cases hg
    rfl
  | bootLogUartBaudrate baudrate =>
    cases g <;> cases hg
    exact congrArg Value.num (le_leBytes 1 _ hf)
  | bootLogEn val =>
    cases g <;> cases hg
    exact congrArg Value.num (le_leBytes 1 _ val.toNat_lt)
  | bootDelayMs val =>
    cases g <;> cases hg
    exact congrArg Value.num (le_leBytes 2 _ val.toNat_lt)
  | bootDelayEn val =>
    cases g <;> cases hg
    exact congrArg Value.num (le_leBytes 1 _ val.toNat_lt)

theorem Setter.roundTrips {s : Setter} (hf : s.Fits) {d : Dev} (h : Readable base d.flash) :
    s.RoundTrips base d := by
  obtain ⟨d', he, hr, -, hb, hk⟩ := s.run_stores h
  rw [Setter.RoundTrips, he]
  refine ⟨fun g hg => ?_, fun g hg => ?_⟩
  · rw [g.run_readable hr, hg, hb, Setter.decode_bytes hf hg]
  · rw [g.run_readable hr, g.run_readable h, hk _ hg]

/-- One byte is stored, so a baud rate beyond 255 does not come back. -/
theorem baudrate_not_roundTrips {baudrate : UInt32} (hb : 256 ≤ baudrate.toNat) {d : Dev}
    (h : Readable base d.flash) : ¬ (Setter.bootLogUartBaudrate baudrate).RoundTrips base d := by
  obtain ⟨d', he, hr, -, hs, -⟩ := (Setter.bootLogUartBaudrate baudrate).run_stores h
  intro hrt
  have hg := hrt.1 .bootLogUartBaudrate rfl
  rw [he, Getter.run_readable _ hr] at hg
  have hv : le (stored base nv5BootLogUartBrOffset nv5BootLogUartBrLen d'.flash) = baudrate.toNat := by
    simpa [Getter.decode, Setter.value, Getter.field, Field.offset, Field.len] using hg
  have hlt : le (leBytes 1 baudrate.toNat) < 256 := by
    have h8 := (UInt8.ofNat baudrate.toNat).toNat_lt
    simpa [le, leBytes] using h8
  have hs' : stored base nv5BootLogUartBrOffset nv5BootLogUartBrLen d'.flash =
      leBytes 1 baudrate.toNat := hs
  rw [hs'] at hv
  omega

/-- After `ln_nvds_init` on any content and any sequence of setters, the next setter succeeds;
its getter then returns the value set and every other getter what it returned before exactly
if the value fits the bytes reserved for it, which only a baud rate beyond 255 does not. -/
theorem setters_roundTrip_iff (base : ℕ) (f : Flash) (ss : List Setter) (s : Setter) :
    (s.run base (afterSetters base f ss)).1 = .ok ∧
      (s.RoundTrips base (afterSetters base f ss) ↔ s.Fits) := by
  have h := @afterSetters_readable base f ss
  obtain ⟨d', he, -, -⟩ := s.run_stores h
  refine ⟨by rw [he], fun hrt => ?_, fun hf => Setter.roundTrips hf h⟩
  cases s with
  | bootLogUartBaudrate baudrate =>
    by_contra hf
    exact baudrate_not_roundTrips (Nat.le_of_not_lt hf) h hrt
  | _ => trivial

/-- 115200 set on a freshly formatted area reads back as another rate. -/
theorem baudrate_115200_not_roundTrip :
    ((Setter.bootLogUartBaudrate 115200).run 0x1FD000 (afterSetters 0x1FD000 (fun _ => 0xFF) [])).1 = .ok ∧
      ¬ (Setter.bootLogUartBaudrate 115200).RoundTrips 0x1FD000
        (afterSetters 0x1FD000 (fun _ => 0xFF) []) := by
  have h := @afterSetters_readable 0x1FD000 (fun _ => 0xFF) []
  obtain ⟨d', he, -, -⟩ := (Setter.bootLogUartBaudrate 115200).run_stores h
  exact ⟨by rw [he], baudrate_not_roundTrips (by decide) h⟩

end

end Ln882x.Nvds
