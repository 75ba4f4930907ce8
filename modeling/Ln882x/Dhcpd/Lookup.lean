import Ln882x.Dhcpd.Options

/-! What `dhcpd_parse_option` finds, against the option stream of the packet: the
options field up to its end, then the file field and the name field if the overload
option says so. The loop is a walk over one field after the other. It reads the two
other fields at twice their offset, so there the walk is over the wrong bytes. -/

namespace Ln882x.Dhcpd

open Nor

/-! ### Fields -/

def dhcpCodes : Tlv.Codes := ⟨dhoPad, dhoEnd⟩

/-- The overload option met last. -/
def noteOverload (mem : Memory) (overload : UInt8) (q : ℕ) : UInt8 :=
  if mem q = dhoDhcpOptionOverload then mem (q + 2) else overload

/-- The options of the bytes from `start` to `limit`, up to the code. -/
def fieldScan (mem : Memory) (code : Option UInt8) (start limit : ℕ) (overload : UInt8) : Tlv.Walk UInt8 :=
  Tlv.scan dhcpCodes mem (fun c => code = some c) (noteOverload mem) limit start overload

/-- The index of the value of an option and its length, if it lies inside its field and a byte follows. -/
def insideField (mem : Memory) (q limit : ℕ) : Option (ℕ × UInt8) :=
  if q + 2 + (mem (q + 1)).toNat ≥ limit then none else some (q + 2, mem (q + 1))

def fieldValue (mem : Memory) (limit : ℕ) : Tlv.Walk UInt8 → Option (ℕ × UInt8)
  | .hit q => insideField mem q limit
  | .ended _ => none
  | .ranOff => none

/-- The rest of the option stream behind the options field: a field without an end is the last one. -/
def overloadLookup (mem : Memory) (code overload : UInt8) : Option (ℕ × UInt8) :=
  let sname :=
    if overloadsSname overload then
      fieldValue mem (dhcpSnamePos + dhcpSnameLen)
        (fieldScan mem (some code) dhcpSnamePos (dhcpSnamePos + dhcpSnameLen) overload)
    else none
  if overloadsFile overload then
    match fieldScan mem (some code) dhcpFilePos (dhcpFilePos + dhcpFileLen) overload with
    | .hit q => insideField mem q (dhcpFilePos + dhcpFileLen)
    | .ended _ => sname
    | .ranOff => none
  else sname

/-- The first occurrence of a code in the option stream of a packet. -/
def streamLookup (mem : Memory) (packetLen : ℕ) (code : UInt8) : Option (ℕ × UInt8) :=
  match fieldScan mem (some code) dhcpOptsPos packetLen 0 with
  | .hit q => insideField mem q packetLen
  | .ended overload => overloadLookup mem code overload
  | .ranOff => none

/-- The same lookup in the bytes that the loop reads for the two other fields. -/
def shiftedLookup (mem : Memory) (code overload : UInt8) : Option (ℕ × UInt8) :=
  if overloadsFile overload then
    fieldValue mem (2 * dhcpFilePos + dhcpFileLen)
      (fieldScan mem (some code) (2 * dhcpFilePos) (2 * dhcpFilePos + dhcpFileLen) overload)
  else if overloadsSname overload then
    fieldValue mem (2 * dhcpSnamePos + dhcpSnameLen)
      (fieldScan mem (some code) (2 * dhcpSnamePos) (2 * dhcpSnamePos + dhcpSnameLen) overload)
  else none

/-! ### The loop as a walk -/

section Loop
variable {mem : Memory} {code : Option UInt8}

/-- How the loop is left at the hit of a walk. -/
def parsedAt (mem : Memory) (q limit : ℕ) : Parsed :=
  if q + 2 + (mem (q + 1)).toNat ≥ limit then .tooLong (mem (q + 1)) else .found (mem (q + 1)) (q + 2)

/-- How the loop is left by a walk over a field that is the last one. -/
def parsedLast (mem : Memory) (limit : ℕ) : Tlv.Walk UInt8 → Parsed
  | .hit q => parsedAt mem q limit
  | .ended _ => .done
  | .ranOff => .failed

/-- How the loop is left by a walk over the options field. -/
def parsedFirst (mem : Memory) (code : Option UInt8) (limit : ℕ) : Tlv.Walk UInt8 → Parsed
  | .hit q => parsedAt mem q limit
  | .ended overload =>
    if overloadsFile overload then
      parsedLast mem (2 * dhcpFilePos + dhcpFileLen)
        (fieldScan mem code (2 * dhcpFilePos) (2 * dhcpFilePos + dhcpFileLen) overload)
    else if overloadsSname overload then
      parsedLast mem (2 * dhcpSnamePos + dhcpSnameLen)
        (fieldScan mem code (2 * dhcpSnamePos) (2 * dhcpSnamePos + dhcpSnameLen) overload)
    else .done
  | .ranOff => .failed

/-- How the loop is left from a scan. -/
def parsedFrom (mem : Memory) (code : Option UInt8) (s : Scan) : Parsed :=
  if s.currFlag = .option then
    parsedFirst mem code (s.optionptr + s.len) (fieldScan mem code (s.byte 0) (s.optionptr + s.len) s.overload)
  else parsedLast mem (s.optionptr + s.len) (fieldScan mem code (s.byte 0) (s.optionptr + s.len) s.overload)

theorem parsedFrom_congr {s t : Scan} (hflag : t.currFlag = s.currFlag) (hlimit : t.optionptr + t.len = s.optionptr + s.len)
    (hscan : fieldScan mem code (s.byte 0) (s.optionptr + s.len) s.overload =
      fieldScan mem code (t.byte 0) (s.optionptr + s.len) t.overload) :
    parsedFrom mem code s = parsedFrom mem code t := by
  rw [parsedFrom, parsedFrom, hflag, hlimit, hscan]

/-- A hit ends the loop in any field. -/
theorem parsedFrom_hit {s : Scan} {q : ℕ}
    (h : fieldScan mem code (s.byte 0) (s.optionptr + s.len) s.overload = .hit q) :
    parsedFrom mem code s = parsedAt mem q (s.optionptr + s.len) := by
  rw [parsedFrom, h]
  split_ifs
  · rfl
  · rfl

theorem parsedFrom_ranOff {s : Scan}
    (h : fieldScan mem code (s.byte 0) (s.optionptr + s.len) s.overload = .ranOff) :
    parsedFrom mem code s = .failed := by
  rw [parsedFrom, h]
  split_ifs
  · rfl
  · rfl

/-- One round of the loop is one step of the walk, or the change to another field. -/
theorem parseRound_parsedFrom (mem : Memory) (code : Option UInt8) (s : Scan) :
    match parseRound mem code s with
    | .inl t => parsedFrom mem code s = parsedFrom mem code t
    | .inr r => parsedFrom mem code s = r := by
  have hone : s.byte 0 + 1 = s.byte 1 := rfl
  have htwo : s.byte 0 + 2 = s.byte 2 := rfl
  have hbyte (i : ℕ) : s.byte i = s.optionptr + s.offset + i := rfl
  unfold parseRound
  dsimp only
  split_ifs with hlimit hcode hlong hpad hover hlong hend hfile hsname
  · exact parsedFrom_ranOff (Tlv.scan_ranOff (by rw [hbyte]; omega))
  · have hhit : fieldScan mem code (s.byte 0) (s.optionptr + s.len) s.overload = .hit (s.byte 0) :=
      Tlv.scan_hit (by rw [hbyte]; omega) (decide_eq_true hcode)
    rw [parsedFrom_hit hhit, parsedAt, hone, if_pos (by rw [hbyte]; omega)]
  · have hhit : fieldScan mem code (s.byte 0) (s.optionptr + s.len) s.overload = .hit (s.byte 0) :=
      Tlv.scan_hit (by rw [hbyte]; omega) (decide_eq_true hcode)
    rw [parsedFrom_hit hhit, parsedAt, hone, htwo, if_neg (by rw [hbyte]; omega)]
  all_goals
    have hlt : s.byte 0 < s.optionptr + s.len := by
      rw [hbyte]
      omega
    have hmiss : ¬decide (code = some (mem (s.byte 0))) = true := by simpa using hcode
  · exact parsedFrom_congr rfl rfl (Tlv.scan_pad hlt hmiss hpad)
  all_goals
    have hpad' : mem (s.byte 0) ≠ dhcpCodes.pad := hpad
  · have hstop : mem (s.byte 0) ≠ dhcpCodes.stop := by
      rw [hover]
      decide
    refine parsedFrom_ranOff ((Tlv.scan_next hlt hmiss hpad' hstop).trans (Tlv.scan_ranOff ?_))
    rw [hone, hbyte]
    omega
  · have hstop : mem (s.byte 0) ≠ dhcpCodes.stop := by
      rw [hover]
      decide
    refine parsedFrom_congr rfl rfl ((Tlv.scan_next hlt hmiss hpad' hstop).trans ?_)
    rw [hone, noteOverload, if_pos hover, htwo, hbyte]
    show fieldScan mem code _ _ _ = fieldScan mem code (s.optionptr + (s.offset + 2 + _) + 0) _ _
    congr 1
    omega
  · have hstop : fieldScan mem code (s.byte 0) (s.optionptr + s.len) s.overload = .ended s.overload :=
      Tlv.scan_stop hlt hmiss hpad' hend
    rw [parsedFrom, if_pos hfile.1, hstop, parsedFirst, if_pos hfile.2]
    rfl
  · have hstop : fieldScan mem code (s.byte 0) (s.optionptr + s.len) s.overload = .ended s.overload :=
      Tlv.scan_stop hlt hmiss hpad' hend
    have hno : ¬overloadsFile s.overload = true := fun h => hfile ⟨hsname.1, h⟩
    rw [parsedFrom, if_pos hsname.1, hstop, parsedFirst, if_neg hno, if_pos hsname.2]
    rfl
  · have hstop : fieldScan mem code (s.byte 0) (s.optionptr + s.len) s.overload = .ended s.overload :=
      Tlv.scan_stop hlt hmiss hpad' hend
    rw [parsedFrom, hstop]
    by_cases hflag : s.currFlag = .option
    · have hno : ¬overloadsFile s.overload = true := fun h => hfile ⟨hflag, h⟩
      have hno' : ¬overloadsSname s.overload = true := fun h => hsname ⟨hflag, h⟩
      rw [if_pos hflag, parsedFirst, if_neg hno, if_neg hno']
    · rw [if_neg hflag]
      rfl
  · refine parsedFrom_congr rfl rfl ((Tlv.scan_next hlt hmiss hpad' hend).trans ?_)
    rw [hone, noteOverload, if_neg hover, hbyte]
    show fieldScan mem code _ _ _ = fieldScan mem code (s.optionptr + (s.offset + 2 + _) + 0) _ _
    congr 1
    omega

theorem rounds_parsedFrom {n : ℕ} {s : Scan} {r : Parsed} (h : rounds (parseRound mem code) n s = .inr r) :
    r = parsedFrom mem code s := by
  induction n generalizing s with
  | zero => cases h
  | succ n ih =>
    have hround := parseRound_parsedFrom mem code s
    cases hs : parseRound mem code s with
    | inl t =>
      rw [hs] at hround
      rw [rounds_inl hs] at h
      rw [ih h]
      exact hround.symm
    | inr r' =>
      rw [hs] at hround
      rw [rounds_inr hs] at h
      cases h
      exact hround.symm

/-- The loop is the walk over the options field and what follows from it. -/
theorem parseLoop_eq (mem : Memory) (code : Option UInt8) (packetLen : ℕ) :
    parseLoop mem code packetLen = parsedFirst mem code packetLen (fieldScan mem code dhcpOptsPos packetLen 0) := by
  have hflag : (parseStart packetLen).currFlag = .option := rfl
  rw [rounds_parsedFrom (parseLoop_ends mem code packetLen), parsedFrom, if_pos hflag]
  show parsedFirst mem code (0 + packetLen) (fieldScan mem code (0 + 240 + 0) (0 + packetLen) 0) = _
  rw [Nat.zero_add]
  rfl

end Loop

/-! ### Lookups -/

section Lookup
variable {mem : Memory} {packetLen : ℕ} {code : UInt8}

/-- What the loop found, as a value. -/
def Parsed.value : Parsed → Option (ℕ × UInt8)
  | .found len value => some (value, len)
  | _ => none

/-- The lookup of a new option. -/
def foundOption (mem : Memory) (packetLen : ℕ) (code : UInt8) : Bool × Option DhcpOption :=
  dhcpdParseOption mem packetLen (some (newOption code)) false

theorem foundOption_of_parsed (hcookie : CookieRight mem) {parsed : Parsed}
    (h : parseLoop mem (some code) packetLen = parsed) :
    match parsed.value with
    | some (value, len) => foundOption mem packetLen code = (true, some ⟨code, len, some value⟩)
    | none => (foundOption mem packetLen code).1 = false := by
  have hcode : (some (newOption code)).map DhcpOption.code = some code := rfl
  unfold foundOption dhcpdParseOption
  rw [if_neg (not_not.mpr hcookie), hcode, h]
  cases parsed with
  | tooLong len => rfl
  | found len value => rfl
  | failed => rfl
  | done => rfl

theorem parsedAt_value (mem : Memory) (q limit : ℕ) : (parsedAt mem q limit).value = insideField mem q limit := by
  unfold parsedAt insideField
  split_ifs
  · rfl
  · rfl

theorem parsedLast_value (mem : Memory) (limit : ℕ) (w : Tlv.Walk UInt8) : (parsedLast mem limit w).value = fieldValue mem limit w := by
  cases w with
  | hit q => exact parsedAt_value mem q limit
  | ended overload => rfl
  | ranOff => rfl

/-- The lookup is the one in the option stream, but for the bytes it takes for the two other fields. -/
theorem parseLoop_value (mem : Memory) (packetLen : ℕ) (code : UInt8) :
    (parseLoop mem (some code) packetLen).value =
      match fieldScan mem (some code) dhcpOptsPos packetLen 0 with
      | .hit q => insideField mem q packetLen
      | .ended overload => shiftedLookup mem code overload
      | .ranOff => none := by
  rw [parseLoop_eq]
  cases fieldScan mem (some code) dhcpOptsPos packetLen 0 with
  | hit q => exact parsedAt_value mem q packetLen
  | ended overload =>
    dsimp only
    rw [parsedFirst, shiftedLookup]
    split_ifs
    · exact parsedLast_value _ _ _
    · exact parsedLast_value _ _ _
    · rfl
  | ranOff => rfl

/-- The lookup of a code is exact: it finds the first occurrence in the option stream, or nothing. -/
def LookupExact (mem : Memory) (packetLen : ℕ) (code : UInt8) : Prop :=
  match streamLookup mem packetLen code with
  | some (value, len) => foundOption mem packetLen code = (true, some ⟨code, len, some value⟩)
  | none => (foundOption mem packetLen code).1 = false

theorem lookupExact_iff_value (hcookie : CookieRight mem) :
    LookupExact mem packetLen code ↔ (parseLoop mem (some code) packetLen).value = streamLookup mem packetLen code := by
  have hfound := foundOption_of_parsed hcookie (rfl : parseLoop mem (some code) packetLen = _)
  unfold LookupExact
  cases hv : (parseLoop mem (some code) packetLen).value with
  | none =>
    rw [hv] at hfound
    cases hs : streamLookup mem packetLen code with
    | none => exact iff_of_true hfound rfl
    | some v =>
      refine iff_of_false ?_ (fun h => (nomatch h))
      intro h
      rw [h] at hfound
      cases hfound
  | some v =>
    rw [hv] at hfound
    cases hs : streamLookup mem packetLen code with
    | none =>
      refine iff_of_false ?_ (fun h => (nomatch h))
      intro h
      rw [hfound] at h
      cases h
    | some v' =>
      obtain ⟨value, len⟩ := v
      obtain ⟨value', len'⟩ := v'
      dsimp only at hfound ⊢
      rw [hfound]
      simp only [Prod.mk.injEq, Option.some.injEq, DhcpOption.mk.injEq, true_and]
      exact and_comm

end Lookup

def bytesFrom (bytes : List UInt8) : Memory := fun i => bytes.getD i 0

/-- A packet with the file field and the options given, and zeros elsewhere. -/
def packetWith (file options : List UInt8) : List UInt8 :=
  List.replicate dhcpFilePos 0 ++ file ++ List.replicate (dhcpFileLen - file.length) 0 ++ dhcpMagicCookie ++ options

end Ln882x.Dhcpd
