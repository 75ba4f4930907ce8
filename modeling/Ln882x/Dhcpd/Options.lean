import Ln882x.Dhcpd.Server
import Ln882x.Nor.Loop
import Ln882x.Tlv.Walk

/-! The options of a packet, `components/net/dhcpd/dhcp_packet.c`, and how
`dhcpd_dispatch` looks at a datagram. Memory is given from the first byte of the
receive buffer on, whatever lies behind the datagram. Beside each function stands the
list of its accesses. The check of a datagram hands over a null option, which
`dhcpd_parse_option` follows at its end; what it finds there is a parameter. The
packet dump for debugging is left out. -/

namespace Ln882x.Dhcpd

open Nor

/-- The bytes from the start of a packet on. -/
abbrev Memory := ℕ → UInt8

def bootRequest : UInt8 := 1

def bootpAbsoluteMinLen : ℕ := 236

def dhcpMagicCookieLen : ℕ := 4

/-- `DHCP_MAGIC_COOKIE_U32`, in network byte order. -/
def dhcpMagicCookie : List UInt8 := [0x63, 0x82, 0x53, 0x63]

def dhcpSnamePos : ℕ := 44

def dhcpSnameLen : ℕ := 64

def dhcpFilePos : ℕ := 108

def dhcpFileLen : ℕ := 128

def dhcpOptsPos : ℕ := 240

def dhoPad : UInt8 := 0

def dhoSubnet : UInt8 := 1

def dhoRouters : UInt8 := 3

def dhoDomainNameServers : UInt8 := 6

def dhoHostName : UInt8 := 12

def dhoDhcpRequestedAddress : UInt8 := 50

def dhoDhcpLeaseTime : UInt8 := 51

def dhoDhcpOptionOverload : UInt8 := 52

def dhoDhcpMessageType : UInt8 := 53

def dhoDhcpServerIdentifier : UInt8 := 54

def dhoDhcpRenewalTime : UInt8 := 58

def dhoDhcpRebindingTime : UInt8 := 59

def dhoEnd : UInt8 := 255

/-- `dhcp_option_t`; the value is an index into the packet. -/
structure DhcpOption where
  code : UInt8
  len : UInt8
  value : Option ℕ
  deriving DecidableEq

inductive FieldFlag where
  | option | file | sname
  deriving DecidableEq

/-- The variables of the loop; `optionptr` is an index into the packet. -/
structure Scan where
  optionptr : ℕ
  len : ℕ
  offset : ℕ
  overload : UInt8
  currFlag : FieldFlag
  deriving DecidableEq

/-- The index of the byte `optionptr[offset + i]`. -/
def Scan.byte (s : Scan) (i : ℕ) : ℕ := s.optionptr + s.offset + i

/-- How the loop is left: an option that does not fit, the option looked for, the end of a
field without `DHO_END`, or the last `DHO_END`. -/
inductive Parsed where
  | tooLong (len : UInt8)
  | found (len : UInt8) (value : ℕ)
  | failed
  | done
  deriving DecidableEq

/-- `OVERLOAD_BIT_FILE` and `OVERLOAD_BIT_SNAME`. -/
def overloadsFile (overload : UInt8) : Bool := overload &&& 1 ≠ 0

def overloadsSname (overload : UInt8) : Bool := overload &&& 2 ≠ 0

section Loop
variable (mem : Memory) (code : Option UInt8)

/-- A round of the loop of `dhcpd_parse_option`; the code is missing if the option is null. -/
def parseRound (s : Scan) : Scan ⊕ Parsed :=
  let c := mem (s.byte 0)
  let l := mem (s.byte 1)
  if s.offset ≥ s.len then .inr .failed
  else if code = some c then
    if s.offset + 2 + l.toNat ≥ s.len then .inr (.tooLong l) else .inr (.found l (s.byte 2))
  else if c = dhoPad then .inl { s with offset := s.offset + 1 }
  else if c = dhoDhcpOptionOverload then
    if s.offset + 2 + l.toNat ≥ s.len then .inr .failed
    else .inl { s with overload := mem (s.byte 2), offset := s.offset + 2 + l.toNat }
  else if c = dhoEnd then
    -- the fields are named twice: by the pointer and again by the offset
    if s.currFlag = .option ∧ overloadsFile s.overload then
      .inl ⟨dhcpFilePos, dhcpFilePos + dhcpFileLen, dhcpFilePos, s.overload, .file⟩
    else if s.currFlag = .option ∧ overloadsSname s.overload then
      .inl ⟨dhcpSnamePos, dhcpSnamePos + dhcpSnameLen, dhcpSnamePos, s.overload, .sname⟩
    else .inr .done
  else .inl { s with offset := s.offset + 2 + l.toNat }

def parseStart (packetLen : ℕ) : Scan := ⟨0, packetLen, dhcpOptsPos, 0, .option⟩

/-- More rounds than the loop ever takes. -/
def parseFuel (packetLen : ℕ) : ℕ := packetLen + 238

/-- How the loop is left. -/
def parseLoop (packetLen : ℕ) : Parsed :=
  match rounds (parseRound mem code) (parseFuel packetLen) (parseStart packetLen) with
  | .inl _ => .failed
  | .inr r => r

/-- The `memcmp` with the magic cookie. -/
def CookieRight : Prop := (List.range dhcpMagicCookieLen).map (fun i => mem (bootpAbsoluteMinLen + i)) = dhcpMagicCookie

instance : Decidable (CookieRight mem) := inferInstanceAs (Decidable (_ = _))

/-- `dhcpd_parse_option`; `nullValue` says whether a null option has a value. -/
def dhcpdParseOption (packetLen : ℕ) (option : Option DhcpOption) (nullValue : Bool) : Bool × Option DhcpOption :=
  if ¬CookieRight mem then (false, option)
  else
    match parseLoop mem (option.map DhcpOption.code) packetLen with
    | .tooLong len => (false, option.map fun o => { o with len := len })
    | .found len value => (true, option.map fun o => { o with len := len, value := some value })
    | .failed => (false, option)
    | .done =>
      match option with
      | some o => (o.value.isSome, option)
      | none => (nullValue, none)

end Loop

/-- `dhcpd_recv_packet_check`. -/
def dhcpdRecvPacketCheck (mem : Memory) (len : ℕ) (nullValue : Bool) : Bool :=
  if len < bootpAbsoluteMinLen + dhcpMagicCookieLen + 4 then false else (dhcpdParseOption mem len none nullValue).1

/-! ### Accesses -/

inductive Access where
  | read (i : ℕ)
  | null
  deriving DecidableEq

/-- An access to a byte of a datagram of `recvLen` bytes. -/
def Access.Fine (recvLen : ℕ) : Access → Prop
  | .read i => i < recvLen
  | .null => False

instance (recvLen : ℕ) : (a : Access) → Decidable (a.Fine recvLen)
  | .read i => inferInstanceAs (Decidable (i < recvLen))
  | .null => inferInstanceAs (Decidable False)

section Accesses
variable (mem : Memory) (code : Option UInt8)

def parseRoundAccesses (s : Scan) : List Access :=
  let c := mem (s.byte 0)
  let l := mem (s.byte 1)
  if s.offset ≥ s.len then []
  else if code = some c then [.read (s.byte 0), .read (s.byte 1)]
  else
    let compared : List Access := if code.isSome then [.read (s.byte 0)] else []
    let branch : List Access :=
      if c = dhoPad then []
      else if c = dhoDhcpOptionOverload then
        if s.offset + 2 + l.toNat ≥ s.len then [.read (s.byte 1)]
        else [.read (s.byte 1), .read (s.byte 2), .read (s.byte 1)]
      else if c = dhoEnd then []
      else [.read (s.byte 1)]
    compared ++ .read (s.byte 0) :: branch

def parseRoundsAccesses : ℕ → Scan → List Access
  | 0, _ => []
  | n + 1, s =>
    parseRoundAccesses mem code s ++
      match parseRound mem code s with
      | .inl t => parseRoundsAccesses n t
      | .inr _ => []

def cookieAccesses : List Access := (List.range dhcpMagicCookieLen).map fun i => .read (bootpAbsoluteMinLen + i)

def dhcpdParseOptionAccesses (packetLen : ℕ) : List Access :=
  if ¬CookieRight mem then cookieAccesses
  else
    let last : List Access := if parseLoop mem code packetLen = .done ∧ code = none then [.null] else []
    cookieAccesses ++ (parseRoundsAccesses mem code (parseFuel packetLen) (parseStart packetLen) ++ last)

def dhcpdRecvPacketCheckAccesses (len : ℕ) : List Access :=
  if len < bootpAbsoluteMinLen + dhcpMagicCookieLen + 4 then [] else dhcpdParseOptionAccesses mem none len

/-- The first `n` bytes of the value of an option are read. -/
def valueAccesses (option : Option DhcpOption) (n : ℕ) : List Access :=
  match option.bind DhcpOption.value with
  | some value => (List.range n).map fun i => .read (value + i)
  | none => [.null]

def newOption (code : UInt8) : DhcpOption := ⟨code, 0, none⟩

/-- The option handling of `do_request`: four bytes of the option, whatever its length, or else `ciaddr`. -/
def doRequestAccesses (recvLen : ℕ) : List Access :=
  let r := dhcpdParseOption mem recvLen (some (newOption dhoDhcpRequestedAddress)) false
  dhcpdParseOptionAccesses mem (some dhoDhcpRequestedAddress) recvLen ++
    if r.1 then valueAccesses r.2 4 else (List.range 4).map fun i => .read (12 + i)

def dhcpRequest : UInt8 := 3

/-- `dhcpd_dispatch` up to the handlers, and what `do_request` reads of the options. -/
def dhcpdDispatchAccesses (recvLen : ℕ) (nullValue : Bool) : List Access :=
  .read 0 ::
    if mem 0 ≠ bootRequest then []
    else
      let typed : List Access :=
        let r := dhcpdParseOption mem recvLen (some (newOption dhoDhcpMessageType)) false
        dhcpdParseOptionAccesses mem (some dhoDhcpMessageType) recvLen ++
          if r.1 then
            valueAccesses r.2 1 ++
              match r.2.bind DhcpOption.value with
              | some value => if mem value = dhcpRequest then doRequestAccesses mem recvLen else []
              | none => []
          else []
      dhcpdRecvPacketCheckAccesses mem recvLen ++ if dhcpdRecvPacketCheck mem recvLen nullValue then typed else []

end Accesses

/-! ### Rounds -/

section Rounds
variable {mem : Memory} {code : Option UInt8}

/-- What a scan has in front of it. -/
def Scan.weight (s : Scan) : ℕ := (if s.currFlag = .option then 237 else 0) + (s.len - s.offset)

theorem parseRound_weight {s t : Scan} (h : parseRound mem code s = .inl t) : t.weight < s.weight := by
  unfold parseRound at h
  dsimp only at h
  split_ifs at h with hlimit hcode hlong hpad hover hlong' hend hfile hsname
  all_goals cases h
  · dsimp only [Scan.weight]
    omega
  · dsimp only [Scan.weight]
    omega
  · have hs : s.weight = 237 + (s.len - s.offset) := by rw [Scan.weight, if_pos hfile.1]
    rw [hs]
    show 0 + (236 - 108) < _
    omega
  · have hs : s.weight = 237 + (s.len - s.offset) := by rw [Scan.weight, if_pos hsname.1]
    rw [hs]
    show 0 + (108 - 44) < _
    omega
  · dsimp only [Scan.weight]
    omega

/-- The loop ends: the rounds provided for are enough. -/
theorem parseLoop_ends (mem : Memory) (code : Option UInt8) (packetLen : ℕ) :
    rounds (parseRound mem code) (parseFuel packetLen) (parseStart packetLen) = .inr (parseLoop mem code packetLen) := by
  have hends : EndsIn (parseRound mem code) (parseFuel packetLen) (parseStart packetLen) := by
    refine EndsIn.of_measure (I := fun _ => True) Scan.weight (fun s t _ h => ⟨trivial, parseRound_weight h⟩) trivial ?_
    show 237 + (packetLen - 240) < packetLen + 238
    omega
  obtain ⟨r, hr⟩ := hends
  rw [parseLoop, hr]

end Rounds

end Ln882x.Dhcpd
