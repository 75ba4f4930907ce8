import Ln882x.Dhcpd.Lease
import Ln882x.Dhcpd.Lookup

/-! The bytes of a reply and what `dhcpd_parse_option` finds in them. The options are
written one behind the other and are read back one by one, so each is found whose code
no option in front of it has. The rebinding time is rounded down before it is multiplied;
a lease of two to seven seconds has a rebinding time of zero behind its renewal time. -/

namespace Ln882x.Dhcpd

open Tlv (Record encodeAll Holds)

/-! ### The packet -/

def bootReply : UInt8 := 2

def MsgType.code : MsgType → UInt8
  | .discover => 1
  | .offer => 2
  | .request => 3
  | .decline => 4
  | .ack => 5
  | .nak => 6
  | .release => 7
  | .inform => 8

/-- `dhcpd_htonl_copy`. -/
def dhcpdHtonlCopy (src : ℕ) : List UInt8 :=
  [UInt8.ofNat (src / 2 ^ 24), UInt8.ofNat (src / 2 ^ 16), UInt8.ofNat (src / 2 ^ 8), UInt8.ofNat src]

def ReplyOption.record : ReplyOption → Record
  | .messageType t => ⟨dhoDhcpMessageType, [t.code]⟩
  | .serverIdentifier ip => ⟨dhoDhcpServerIdentifier, ip.toList⟩
  | .leaseTime n => ⟨dhoDhcpLeaseTime, dhcpdHtonlCopy n⟩
  | .renewalTime n => ⟨dhoDhcpRenewalTime, dhcpdHtonlCopy n⟩
  | .rebindingTime n => ⟨dhoDhcpRebindingTime, dhcpdHtonlCopy n⟩
  | .routers ip => ⟨dhoRouters, ip.toList⟩
  | .subnet ip => ⟨dhoSubnet, ip.toList⟩
  | .domainNameServers ip => ⟨dhoDomainNameServers, ip.toList⟩
  | .hostName s => ⟨dhoHostName, s.toUTF8.data.toList⟩

/-- The fields up to the cookie. -/
def Reply.header (r : Reply) : List UInt8 :=
  [bootReply, r.htype, r.hlen, 0] ++ r.xid.toList ++ [0, 0] ++ r.flags.toList ++ r.ciaddr.toList ++ r.yiaddr.toList ++
    zeroIp.toList ++ zeroIp.toList ++ r.mac.toList ++ r.chaddrRest.toList ++
    (r.sname.toUTF8.data.toList ++ List.replicate (dhcpSnameLen - r.sname.utf8ByteSize) 0) ++ List.replicate dhcpFileLen 0

/-- The end of the options, and the pad up to the length of the packet. -/
def Reply.trailer (r : Reply) : List UInt8 :=
  dhoPad :: List.replicate (r.sendPktLen - (dhcpOptsPos + (r.options.map ReplyOption.size).sum + 2)) dhoPad

/-- What is sent. -/
def Reply.bytes (r : Reply) : List UInt8 :=
  r.header ++ dhcpMagicCookie ++ (encodeAll (r.options.map ReplyOption.record) ++ dhoEnd :: r.trailer)

/-! ### Reading a packet -/

/-- The value of the option that `dhcpd_parse_option` finds in a packet. -/
def optionBytes (packet : List UInt8) (code : UInt8) : Option (List UInt8) :=
  match foundOption (bytesFrom packet) packet.length code with
  | (true, some ⟨_, len, some value⟩) => some ((packet.drop value).take len.toNat)
  | _ => none

/-- A number in network byte order. -/
def netNat (bytes : List UInt8) : ℕ := bytes.foldl (fun n b => n * 256 + b.toNat) 0

def optionNat (packet : List UInt8) (code : UInt8) : Option ℕ := (optionBytes packet code).map netNat

/-- A field of `struct dhcp_packet`, by its offset and its length. -/
def packetField (packet : List UInt8) (pos len : ℕ) : List UInt8 := (packet.drop pos).take len

def xidField (packet : List UInt8) : List UInt8 := packetField packet 4 4

def yiaddrField (packet : List UInt8) : List UInt8 := packetField packet 16 4

def chaddrField (packet : List UInt8) : List UInt8 := packetField packet 28 16

/-! ### What a reply has to say -/

/-- The address that the pool has for the client. -/
def allocatedIp (c : Ctrl) (req : Request) : Option Ip :=
  (dhcpdIpAllocate c.serverConfig.clientMax c.ipPool req.mac true).map Prod.fst

/-- The handler comes to build a reply: the message is of a kind that is answered, names an
address if it is a request, and the pool has an entry. -/
def Builds (c : Ctrl) (req : Request) : Prop :=
  (req.msgType = .discover ∨ req.msgType = .inform ∨ req.msgType = .request ∧ confirmIpaddr req ≠ none) ∧
    allocatedIp c req ≠ none

/-- The client requests another address than it is given. -/
def Refused (c : Ctrl) (req : Request) : Prop := req.msgType = .request ∧ allocatedIp c req ≠ confirmIpaddr req

instance (c : Ctrl) (req : Request) : Decidable (Refused c req) := inferInstanceAs (Decidable (_ ∧ _))

def intendedType (c : Ctrl) (req : Request) : MsgType :=
  if req.msgType = .discover then .offer else if Refused c req then .nak else .ack

/-- The address of the pool entry of a client. -/
def heldIp (c : Ctrl) (mac : Mac) : Option Ip := do
  let i ← getIpItem c.serverConfig.clientMax c.ipPool mac
  let item ← c.ipPool[i]?
  return item.ip

/-- The times of an offer or acknowledgement: the lease is the configured one, and the renewal
and the rebinding come in their order before its end. -/
def TimesInOrder (lease : ℕ) (packet : List UInt8) : Prop :=
  optionNat packet dhoDhcpLeaseTime = some lease ∧
    ∃ renewal rebinding, optionNat packet dhoDhcpRenewalTime = some renewal ∧
      optionNat packet dhoDhcpRebindingTime = some rebinding ∧ renewal ≤ rebinding ∧ rebinding ≤ lease

/-- A packet reads back as the reply to a request; `c'` is the state after it. -/
structure ParsesBack (c : Ctrl) (req : Request) (c' : Ctrl) (packet : List UInt8) : Prop where
  length_le : packet.length ≤ dhcpMaxMtu
  four_dvd : 4 ∣ packet.length
  messageType : optionBytes packet dhoDhcpMessageType = some [(intendedType c req).code]
  serverIdentifier : optionBytes packet dhoDhcpServerIdentifier = some c.serverConfig.server.toList
  times : intendedType c req ≠ .nak → TimesInOrder c.serverConfig.lease packet
  held : intendedType c req = .ack → (heldIp c' req.mac).map Vector.toList = some (yiaddrField packet)
  refused : intendedType c req = .nak → yiaddrField packet = zeroIp.toList ∧ optionBytes packet dhoDhcpLeaseTime = none
  xid : xidField packet = req.xid.toList
  chaddr : chaddrField packet = req.mac.toList ++ req.chaddrRest.toList

/-! ### The layout -/

section Layout
variable {r : Reply}

theorem ReplyOption.length_record (o : ReplyOption) : o.record.encode.length = o.size := by
  rw [Tlv.Record.length_encode]
  have hip (ip : Ip) : 2 + ip.toList.length = 6 := by rw [Vector.length_toList]
  cases o with
  | messageType t => rfl
  | serverIdentifier ip => exact hip ip
  | leaseTime n => rfl
  | renewalTime n => rfl
  | rebindingTime n => rfl
  | routers ip => exact hip ip
  | subnet ip => exact hip ip
  | domainNameServers ip => exact hip ip
  | hostName s => rfl

theorem length_encodeAll_record (options : List ReplyOption) :
    (encodeAll (options.map ReplyOption.record)).length = (options.map ReplyOption.size).sum := by
  induction options with
  | nil => rfl
  | cons o options ih =>
    rw [List.map_cons, Tlv.encodeAll_cons, List.length_append, o.length_record, ih]
    rfl

theorem length_header (hname : r.sname.utf8ByteSize ≤ dhcpSnameLen) : r.header.length = bootpAbsoluteMinLen := by
  have hutf8 : r.sname.toUTF8.data.toList.length = r.sname.utf8ByteSize := rfl
  unfold Reply.header
  simp only [List.length_append, List.length_cons, List.length_nil, List.length_replicate, Vector.length_toList, hutf8]
  rw [Nat.add_sub_cancel' hname]
  rfl

/-- The options stand at their place. -/
theorem length_front (hname : r.sname.utf8ByteSize ≤ dhcpSnameLen) : (r.header ++ dhcpMagicCookie).length = dhcpOptsPos := by
  rw [List.length_append, length_header hname]
  rfl

theorem length_bytes (hname : r.sname.utf8ByteSize ≤ dhcpSnameLen) : r.bytes.length = r.sendPktLen := by
  unfold Reply.bytes
  rw [List.length_append, length_front hname, List.length_append, List.length_cons, Reply.trailer, List.length_cons,
    List.length_replicate, length_encodeAll_record, Reply.sendPktLen]
  show 240 + _ = _
  have hpos : dhcpOptsPos = 240 := rfl
  rw [hpos]
  omega

/-- A packet holds its bytes. -/
theorem holds_bytesFrom (xs ys : List UInt8) : Holds (bytesFrom (xs ++ ys)) xs.length ys := by
  intro i hi
  unfold bytesFrom
  rw [List.getD_eq_getElem?_getD, List.getElem?_append_right (by omega), Nat.add_sub_cancel_left, List.getElem?_eq_getElem hi]
  rfl

theorem cookieRight_bytes (hname : r.sname.utf8ByteSize ≤ dhcpSnameLen) : CookieRight (bytesFrom r.bytes) := by
  have hholds : Holds (bytesFrom r.bytes) bootpAbsoluteMinLen dhcpMagicCookie := by
    have hall := holds_bytesFrom r.header (dhcpMagicCookie ++ (encodeAll (r.options.map ReplyOption.record) ++ dhoEnd :: r.trailer))
    rw [← List.append_assoc, length_header hname] at hall
    exact hall.left
  unfold CookieRight
  apply List.ext_getElem
  · rw [List.length_map, List.length_range]
    rfl
  · intro i _ hi
    rw [List.getElem_map, List.getElem_range]
    exact hholds i hi

/-! ### Lookups in a reply -/

/-- The parts of a reply that a lookup rests on. -/
structure Parsable (r : Reply) : Prop where
  name : r.sname.utf8ByteSize ≤ dhcpSnameLen
  size_lt : ∀ n ∈ r.options.map ReplyOption.size, n < 258
  nodup : (r.options.map fun o => o.record.code).Nodup

/-- No option of a reply is a mark or an overload. -/
theorem ReplyOption.record_code_ne (o : ReplyOption) :
    o.record.code ≠ dhoPad ∧ o.record.code ≠ dhoEnd ∧ o.record.code ≠ dhoDhcpOptionOverload := by
  have hmem : o.record.code ∈ [dhoDhcpMessageType, dhoDhcpServerIdentifier, dhoDhcpLeaseTime, dhoDhcpRenewalTime,
      dhoDhcpRebindingTime, dhoRouters, dhoSubnet, dhoDomainNameServers, dhoHostName] := by
    cases o <;> simp [ReplyOption.record]
  generalize o.record.code = code at hmem
  revert code
  decide +kernel

/-- The options of a reply stand behind the cookie. -/
theorem holds_options (hname : r.sname.utf8ByteSize ≤ dhcpSnameLen) :
    Holds (bytesFrom r.bytes) dhcpOptsPos (encodeAll (r.options.map ReplyOption.record) ++ dhoEnd :: r.trailer) := by
  have hall := holds_bytesFrom (r.header ++ dhcpMagicCookie) (encodeAll (r.options.map ReplyOption.record) ++ dhoEnd :: r.trailer)
  rwa [length_front hname] at hall

theorem Parsable.fits (h : Parsable r) {o : ReplyOption} (ho : o ∈ r.options) : o.record.Fits dhcpCodes := by
  have hsize := h.size_lt o.size (List.mem_map_of_mem ho)
  rw [← o.length_record, Tlv.Record.length_encode] at hsize
  exact ⟨o.record_code_ne.1, o.record_code_ne.2.1, by omega⟩

theorem Parsable.fits_record (h : Parsable r) : ∀ x ∈ r.options.map ReplyOption.record, x.Fits dhcpCodes := by
  intro x hx
  obtain ⟨o, ho, rfl⟩ := List.mem_map.mp hx
  exact h.fits ho

theorem take_drop_of_holds {packet bytes : List UInt8} {q : ℕ} (h : Holds (bytesFrom packet) q bytes)
    (hlen : q + bytes.length ≤ packet.length) : (packet.drop q).take bytes.length = bytes := by
  apply List.ext_getElem
  · rw [List.length_take, List.length_drop]
    omega
  · intro i _ hi
    have hlt : q + i < packet.length := by omega
    have hbyte : bytesFrom packet (q + i) = packet[q + i] := by
      rw [bytesFrom, List.getD_eq_getElem?_getD, List.getElem?_eq_getElem hlt]
      rfl
    rw [List.getElem_take, List.getElem_drop, ← hbyte]
    exact h i hi

/-- The walk over the options of a reply passes the options in front of the one looked for. -/
theorem Parsable.fieldScan_hit (h : Parsable r) {before after : List ReplyOption} {o : ReplyOption}
    (hsplit : r.options = before ++ o :: after) :
    fieldScan (bytesFrom r.bytes) (some o.record.code) dhcpOptsPos r.bytes.length 0 =
      .hit (dhcpOptsPos + (encodeAll (before.map ReplyOption.record)).length) := by
  have hholds := holds_options h.name
  have hnodup := h.nodup
  have hfits := h.fits_record
  have hlen : dhcpOptsPos + (encodeAll (r.options.map ReplyOption.record)).length < r.bytes.length := by
    unfold Reply.bytes
    rw [List.length_append, length_front h.name, List.length_append, List.length_cons]
    omega
  rw [hsplit, List.map_append, List.map_cons] at hholds hnodup hfits hlen
  rw [Tlv.encodeAll_append, Tlv.encodeAll_cons] at hholds hlen
  rw [List.append_assoc, List.append_assoc] at hholds
  rw [List.length_append] at hlen
  refine Tlv.scan_records_hit (fun b hb => hfits b (List.mem_append_left _ hb)) hholds (by omega) ?_ (decide_eq_true rfl)
  intro b hb heq
  have hcode : o.record.code = b.code := Option.some.inj (of_decide_eq_true heq)
  obtain ⟨x, hx, rfl⟩ := List.mem_map.mp hb
  have hdisjoint := (List.nodup_append.mp hnodup).2.2
  exact hdisjoint _ (List.mem_map.mpr ⟨x, hx, rfl⟩) _ List.mem_cons_self hcode.symm

theorem optionBytes_of_found {packet : List UInt8} {code len : UInt8} {value : ℕ} (hcookie : CookieRight (bytesFrom packet))
    (h : parseLoop (bytesFrom packet) (some code) packet.length = .found len value) :
    optionBytes packet code = some ((packet.drop value).take len.toNat) := by
  have hfound : foundOption (bytesFrom packet) packet.length code = (true, some ⟨code, len, some value⟩) :=
    foundOption_of_parsed hcookie h
  rw [optionBytes, hfound]

theorem optionBytes_of_done {packet : List UInt8} {code : UInt8} (hcookie : CookieRight (bytesFrom packet))
    (h : parseLoop (bytesFrom packet) (some code) packet.length = .done) : optionBytes packet code = none := by
  have hfound : (foundOption (bytesFrom packet) packet.length code).1 = false := foundOption_of_parsed hcookie h
  unfold optionBytes
  generalize foundOption (bytesFrom packet) packet.length code = result at hfound
  obtain ⟨found, option⟩ := result
  cases hfound
  rfl

/-- Every option of a reply is found. -/
theorem Parsable.optionBytes_some (h : Parsable r) {o : ReplyOption} (ho : o ∈ r.options) :
    optionBytes r.bytes o.record.code = some o.record.value := by
  obtain ⟨before, after, hsplit⟩ := List.append_of_mem ho
  have hscan := h.fieldScan_hit hsplit
  have hholds := holds_options h.name
  have hlen : r.bytes.length = dhcpOptsPos + ((encodeAll (r.options.map ReplyOption.record)).length + (r.trailer.length + 1)) := by
    unfold Reply.bytes
    rw [List.length_append, length_front h.name, List.length_append, List.length_cons]
  rw [hsplit, List.map_append, List.map_cons, Tlv.encodeAll_append, Tlv.encodeAll_cons] at hholds hlen
  rw [List.append_assoc, List.append_assoc] at hholds
  rw [List.length_append, List.length_append, o.record.length_encode] at hlen
  generalize hq : dhcpOptsPos + (encodeAll (before.map ReplyOption.record)).length = q at hscan
  have hrecord : Holds (bytesFrom r.bytes) q o.record.encode := by
    rw [← hq]
    exact hholds.right.left
  have hl : bytesFrom r.bytes (q + 1) = UInt8.ofNat o.record.value.length := hrecord.tail.head
  have hnat : (bytesFrom r.bytes (q + 1)).toNat = o.record.value.length := by
    rw [hl, UInt8.toNat_ofNat', Nat.mod_eq_of_lt (h.fits ho).length_lt]
  have hparsed : parseLoop (bytesFrom r.bytes) (some o.record.code) r.bytes.length =
      .found (bytesFrom r.bytes (q + 1)) (q + 2) := by
    rw [parseLoop_eq, hscan]
    show parsedAt _ q _ = _
    rw [parsedAt, hnat, if_neg (by omega)]
  have hvalue : Holds (bytesFrom r.bytes) (q + 2) o.record.value := hrecord.tail.tail
  rw [optionBytes_of_found (cookieRight_bytes h.name) hparsed, hnat, take_drop_of_holds hvalue (by omega)]

/-- The same, for an option given by what it writes. -/
theorem Parsable.optionBytes_record (h : Parsable r) {code : UInt8} {value : List UInt8} (o : ReplyOption) (ho : o ∈ r.options)
    (hrecord : o.record = ⟨code, value⟩) : optionBytes r.bytes code = some value := by
  have hfound := h.optionBytes_some ho
  rwa [hrecord] at hfound

/-- No other option is found. -/
theorem Parsable.optionBytes_none (h : Parsable r) {code : UInt8} (hno : ∀ o ∈ r.options, o.record.code ≠ code)
    (hend : code ≠ dhoEnd) : optionBytes r.bytes code = none := by
  have hlen : dhcpOptsPos + (encodeAll (r.options.map ReplyOption.record)).length < r.bytes.length := by
    unfold Reply.bytes
    rw [List.length_append, length_front h.name, List.length_append, List.length_cons]
    omega
  have hscan : fieldScan (bytesFrom r.bytes) (some code) dhcpOptsPos r.bytes.length 0 = .ended 0 := by
    refine Tlv.scan_records_ended h.fits_record (by decide) (holds_options h.name) hlen ?_ ?_ ?_
    · intro x hx heq
      obtain ⟨o, ho, rfl⟩ := List.mem_map.mp hx
      exact hno o ho (Option.some.inj (of_decide_eq_true heq)).symm
    · intro heq
      exact hend (Option.some.inj (of_decide_eq_true heq))
    · intro x hx p overload hp
      obtain ⟨o, ho, rfl⟩ := List.mem_map.mp hx
      rw [noteOverload, hp, if_neg o.record_code_ne.2.2]
  have hparsed : parseLoop (bytesFrom r.bytes) (some code) r.bytes.length = .done := by
    rw [parseLoop_eq, hscan]
    rfl
  exact optionBytes_of_done (cookieRight_bytes h.name) hparsed

end Layout

/-! ### The two kinds of reply -/

section Kinds
variable {c c' : Ctrl} {req : Request} {r : Reply} {m : Mac} {ip : Ip} {t : MsgType}

theorem netNat_dhcpdHtonlCopy {n : ℕ} (h : n < 2 ^ 32) : netNat (dhcpdHtonlCopy n) = n := by
  show (((0 * 256 + _) * 256 + _) * 256 + _) * 256 + _ = n
  simp only [UInt8.toNat_ofNat']
  omega

theorem parsable_leaseReply (cfg : ServerConfig) (req : Request) (t : MsgType) (ip : Ip) : Parsable (leaseReply cfg req t ip) where
  name := by
    show "LN-DHCP-Server".utf8ByteSize ≤ dhcpSnameLen
    decide
  size_lt := by
    show ∀ n ∈ [3, 6, 6, 6, 6, 6, 6, 6, 2 + "LN882x-SoftAP".utf8ByteSize], n < 258
    decide
  nodup := by
    show List.Nodup [dhoDhcpMessageType, dhoDhcpServerIdentifier, dhoDhcpLeaseTime, dhoDhcpRenewalTime, dhoDhcpRebindingTime,
      dhoRouters, dhoSubnet, dhoDomainNameServers, dhoHostName]
    decide

theorem parsable_nakReply (cfg : ServerConfig) (req : Request) : Parsable (nakReply cfg req) where
  name := by
    show "LN-DHCP-Server".utf8ByteSize ≤ dhcpSnameLen
    decide
  size_lt := by
    show ∀ n ∈ [3, 6, 2 + "LN882x-SoftAP".utf8ByteSize], n < 258
    decide
  nodup := by
    show List.Nodup [dhoDhcpMessageType, dhoDhcpServerIdentifier, dhoHostName]
    decide

/-! ### Fields -/

theorem packetField_eq {packet xs ys : List UInt8} {pos len : ℕ} (h : xs ++ ys <+: packet) (hpos : xs.length = pos)
    (hlen : ys.length = len) : packetField packet pos len = ys := by
  obtain ⟨zs, rfl⟩ := h
  rw [packetField, List.append_assoc, ← hpos, List.drop_left, ← hlen, List.take_left]

theorem xidField_bytes (r : Reply) : xidField r.bytes = r.xid.toList := by
  have hfront : ([bootReply, r.htype, r.hlen, 0] : List UInt8).length = 4 := rfl
  refine packetField_eq ?_ hfront Vector.length_toList
  unfold Reply.bytes Reply.header
  simp only [List.append_assoc, List.prefix_append_right_inj, List.prefix_append]

theorem yiaddrField_bytes (r : Reply) : yiaddrField r.bytes = r.yiaddr.toList := by
  have hfront : ([bootReply, r.htype, r.hlen, 0] ++ r.xid.toList ++ [0, 0] ++ r.flags.toList ++ r.ciaddr.toList).length = 16 := by
    simp only [List.length_append, Vector.length_toList]
    rfl
  refine packetField_eq ?_ hfront Vector.length_toList
  unfold Reply.bytes Reply.header
  simp only [List.append_assoc, List.prefix_append_right_inj, List.prefix_append]

theorem chaddrField_bytes (r : Reply) : chaddrField r.bytes = r.mac.toList ++ r.chaddrRest.toList := by
  have hfront : ([bootReply, r.htype, r.hlen, 0] ++ r.xid.toList ++ [0, 0] ++ r.flags.toList ++ r.ciaddr.toList ++
      r.yiaddr.toList ++ zeroIp.toList ++ zeroIp.toList).length = 28 := by
    simp only [List.length_append, Vector.length_toList]
    rfl
  have hlen : (r.mac.toList ++ r.chaddrRest.toList).length = 16 := by
    rw [List.length_append, Vector.length_toList, Vector.length_toList]
  refine packetField_eq ?_ hfront hlen
  unfold Reply.bytes Reply.header
  simp only [List.append_assoc, List.prefix_append_right_inj, List.prefix_append]

/-! ### What is said in a reply -/

theorem timesInOrder_leaseReply {cfg : ServerConfig} (hword : cfg.lease < 2 ^ 32) :
    TimesInOrder cfg.lease (leaseReply cfg req t ip).bytes ↔ cfg.lease / 2 ≤ cfg.lease / 8 * 7 := by
  have hparse := parsable_leaseReply cfg req t ip
  have hfind : ∀ code n, n < 2 ^ 32 → ∀ o ∈ leaseOptions cfg, o.record = ⟨code, dhcpdHtonlCopy n⟩ →
      optionNat (leaseReply cfg req t ip).bytes code = some n := by
    intro code n hn o ho hrecord
    have hmem : o ∈ (leaseReply cfg req t ip).options := List.mem_append_left _ (List.mem_append_right _ ho)
    rw [optionNat, hparse.optionBytes_record o hmem hrecord, Option.map_some, netNat_dhcpdHtonlCopy hn]
  have hlease : optionNat (leaseReply cfg req t ip).bytes dhoDhcpLeaseTime = some cfg.lease :=
    hfind dhoDhcpLeaseTime cfg.lease hword (.leaseTime cfg.lease) (by simp [leaseOptions]) rfl
  have hrenewal : optionNat (leaseReply cfg req t ip).bytes dhoDhcpRenewalTime = some (cfg.lease / 2) :=
    hfind dhoDhcpRenewalTime (cfg.lease / 2) (by omega) (.renewalTime (cfg.lease / 2)) (by simp [leaseOptions]) rfl
  have hrebinding : optionNat (leaseReply cfg req t ip).bytes dhoDhcpRebindingTime = some (cfg.lease / 8 * 7) :=
    hfind dhoDhcpRebindingTime (cfg.lease / 8 * 7) (by omega) (.rebindingTime (cfg.lease / 8 * 7)) (by simp [leaseOptions]) rfl
  rw [TimesInOrder, hrenewal, hrebinding]
  constructor
  · rintro ⟨-, _, _, ⟨⟩, ⟨⟩, hle, -⟩
    exact hle
  · exact fun hle => ⟨hlease, _, _, rfl, rfl, hle, by omega⟩

/-- How a reply comes about; `c'` is the state after it. -/
inductive Replied (c : Ctrl) (req : Request) (c' : Ctrl) : Reply → Prop
  | lease {ip : Ip} : intendedType c req ≠ .nak → heldIp c' req.mac = some ip →
      Replied c req c' (leaseReply c.serverConfig req (intendedType c req) ip)
  | nak : intendedType c req = .nak → Replied c req c' (nakReply c.serverConfig req)

theorem intendedType_eq_nak_iff : intendedType c req = .nak ↔ Refused c req := by
  unfold intendedType
  split_ifs with hdiscover hrefused
  · exact iff_of_false (by decide) fun h => absurd (hdiscover.symm.trans h.1) (by decide)
  · exact iff_of_true rfl hrefused
  · exact iff_of_false (by decide) hrefused

theorem Replied.parsesBack_iff (h : Replied c req c' r) (hlease : 1 ≤ c.serverConfig.lease)
    (hword : c.serverConfig.lease < 2 ^ 32) :
    ParsesBack c req c' r.bytes ↔ Refused c req ∨ c.serverConfig.lease = 1 ∨ 8 ≤ c.serverConfig.lease := by
  cases h with
  | @lease ip ht hheld =>
    have hparse := parsable_leaseReply c.serverConfig req (intendedType c req) ip
    have hlen : (leaseReply c.serverConfig req (intendedType c req) ip).bytes.length = 304 :=
      (length_bytes hparse.name).trans (sendPktLen_leaseReply _ _ _ _)
    have htype : optionBytes (leaseReply c.serverConfig req (intendedType c req) ip).bytes dhoDhcpMessageType =
        some [(intendedType c req).code] :=
      hparse.optionBytes_record (.messageType (intendedType c req)) List.mem_cons_self rfl
    have hserver : optionBytes (leaseReply c.serverConfig req (intendedType c req) ip).bytes dhoDhcpServerIdentifier =
        some c.serverConfig.server.toList :=
      hparse.optionBytes_record (.serverIdentifier c.serverConfig.server) (List.mem_cons_of_mem _ List.mem_cons_self) rfl
    have hrefused : ¬Refused c req := fun h => ht (intendedType_eq_nak_iff.mpr h)
    rw [or_iff_right hrefused]
    constructor
    · intro h
      have hle := (timesInOrder_leaseReply hword).mp (h.times ht)
      omega
    · intro hcond
      refine ⟨?_, ?_, htype, hserver, ?_, ?_, fun hnak => absurd hnak ht,
        xidField_bytes _, chaddrField_bytes _⟩
      · rw [hlen]
        decide
      · rw [hlen]
        decide
      · exact fun _ => (timesInOrder_leaseReply hword).mpr (by omega)
      · intro _
        rw [hheld, yiaddrField_bytes]
        rfl
  | nak ht =>
    have hparse := parsable_nakReply c.serverConfig req
    have hlen : (nakReply c.serverConfig req).bytes.length = 268 :=
      (length_bytes hparse.name).trans (sendPktLen_nakReply _ _)
    have htype : optionBytes (nakReply c.serverConfig req).bytes dhoDhcpMessageType = some [MsgType.nak.code] :=
      hparse.optionBytes_record (.messageType .nak) List.mem_cons_self rfl
    have hserver : optionBytes (nakReply c.serverConfig req).bytes dhoDhcpServerIdentifier =
        some c.serverConfig.server.toList :=
      hparse.optionBytes_record (.serverIdentifier c.serverConfig.server) (List.mem_cons_of_mem _ List.mem_cons_self) rfl
    refine iff_of_true ?_ (.inl (intendedType_eq_nak_iff.mp ht))
    refine ⟨?_, ?_, ?_, hserver, fun hne => absurd ht hne, ?_, fun _ => ⟨yiaddrField_bytes _, ?_⟩,
      xidField_bytes _, chaddrField_bytes _⟩
    · rw [hlen]
      decide
    · rw [hlen]
      decide
    · rw [ht]
      exact htype
    · intro hack
      rw [ht] at hack
      cases hack
    · refine hparse.optionBytes_none ?_ (by decide)
      show ∀ o ∈ [ReplyOption.messageType .nak, .serverIdentifier c.serverConfig.server, hostNameOption], _
      intro o ho
      simp only [List.mem_cons, List.not_mem_nil, or_false] at ho
      rcases ho with rfl | rfl | rfl
      · decide
      · show dhoDhcpServerIdentifier ≠ dhoDhcpLeaseTime
        decide
      · decide

/-! ### The handlers -/

/-- No entry in front of the chosen one belongs to the client. -/
theorem getNextUsableIpItem_first {n i : ℕ} {pool : List IpItem} (h : getNextUsableIpItem n pool m = some i) :
    i < (active n pool).length ∧ ∀ (j : ℕ) (hj : j < (active n pool).length), j < i → (active n pool)[j].mac ≠ m := by
  have hlt : i < (active n pool).length := by
    rcases getNextUsableIpItem_spec n pool m with ⟨k, item, hk, hu⟩ | ⟨hnone, -⟩
    · rw [h] at hk
      cases hk
      exact hu.lt
    · rw [h] at hnone
      cases hnone
  refine ⟨hlt, ?_⟩
  unfold getNextUsableIpItem at h
  rw [nextUsableLoop_eq] at h
  cases hmac : (active n pool).findIdx? fun item => decide (item.mac = m) with
  | some k =>
    rw [hmac] at h
    obtain ⟨hk, -, hbefore⟩ := List.findIdx?_eq_some_iff_getElem.mp hmac
    have hik : 0 + k = i := Option.some.inj h
    intro j hj hji heq
    exact hbefore j (by omega) (decide_eq_true heq)
  | none =>
    intro j hj _ heq
    have hno := List.findIdx?_eq_none_iff.mp hmac _ (List.getElem_mem hj)
    rw [heq] at hno
    simp at hno

/-- The client holds what was allocated to it. -/
theorem heldIp_allocate {pre : Bool} {pool : List IpItem}
    (h : dhcpdIpAllocate c.serverConfig.clientMax c.ipPool m pre = some (ip, pool)) :
    heldIp { c with ipPool := pool } m = some ip := by
  unfold dhcpdIpAllocate at h
  obtain ⟨i, hi, h⟩ := Option.bind_eq_some_iff.mp h
  obtain ⟨item, hget, h⟩ := Option.bind_eq_some_iff.mp h
  cases h
  obtain ⟨hlt, hfirst⟩ := getNextUsableIpItem_first hi
  have hpool : i < c.ipPool.length := (List.getElem?_eq_some_iff.mp hget).1
  have hset (x : IpItem) : active c.serverConfig.clientMax (c.ipPool.set i x) = (active c.serverConfig.clientMax c.ipPool).set i x :=
    List.take_set
  have hfind : getIpItem c.serverConfig.clientMax
      (c.ipPool.set i { item with mac := m, allocted := item.allocted || pre }) m = some i := by
    unfold getIpItem
    rw [hset, List.findIdx?_eq_some_iff_getElem]
    refine ⟨by rwa [List.length_set], ?_, ?_⟩
    · rw [List.getElem_set_self]
      exact decide_eq_true rfl
    · intro j hji
      rw [List.getElem_set_ne (by omega)]
      have hne := hfirst j (by omega) hji
      simpa using hne
  unfold heldIp
  rw [hfind]
  show Option.bind ((c.ipPool.set i _)[i]?) _ = _
  rw [List.getElem?_set_self hpool]
  rfl

/-- The address does not depend on whether it is allocated. -/
theorem dhcpdIpAllocate_fst (c : Ctrl) (req : Request) (pre : Bool) :
    (dhcpdIpAllocate c.serverConfig.clientMax c.ipPool req.mac pre).map Prod.fst = allocatedIp c req := by
  unfold allocatedIp dhcpdIpAllocate
  cases getNextUsableIpItem c.serverConfig.clientMax c.ipPool req.mac with
  | none => rfl
  | some i =>
    show Option.map _ (Option.bind c.ipPool[i]? _) = Option.map _ (Option.bind c.ipPool[i]? _)
    cases c.ipPool[i]? with
    | none => rfl
    | some item => rfl

theorem allocate_of_allocatedIp (h : allocatedIp c req = some ip) (pre : Bool) :
    ∃ pool, dhcpdIpAllocate c.serverConfig.clientMax c.ipPool req.mac pre = some (ip, pool) := by
  rw [← dhcpdIpAllocate_fst c req pre] at h
  obtain ⟨⟨_, pool⟩, hpool, rfl⟩ := Option.map_eq_some_iff.mp h
  exact ⟨pool, hpool⟩

theorem allocate_of_allocatedIp_none (h : allocatedIp c req = none) (pre : Bool) :
    dhcpdIpAllocate c.serverConfig.clientMax c.ipPool req.mac pre = none := by
  rw [← dhcpdIpAllocate_fst c req pre] at h
  exact Option.map_eq_none_iff.mp h

/-- A message for which a reply is built gets it. -/
theorem dhcpdDispatch_builds (h : Builds c req) :
    ∃ r, (dhcpdDispatch c req).2 = some r ∧ Replied c req (dhcpdDispatch c req).1 r := by
  obtain ⟨hkind, hsome⟩ := h
  obtain ⟨ip, hip⟩ := Option.ne_none_iff_exists'.mp hsome
  have hnot : req.msgType ≠ .request → ¬Refused c req := fun hne h => hne h.1
  rcases hkind with hdiscover | hinform | ⟨hrequest, hconfirm⟩
  · obtain ⟨pool, hpool⟩ := allocate_of_allocatedIp hip false
    have hintended : intendedType c req = .offer := if_pos hdiscover
    have hreplied : Replied c req { c with ipPool := pool } (leaseReply c.serverConfig req (intendedType c req) ip) :=
      .lease (by rw [hintended]; decide) (heldIp_allocate hpool)
    unfold dhcpdDispatch doDiscover
    rw [hdiscover, hpool]
    dsimp only
    rw [checked_leaseReply]
    rw [hintended] at hreplied
    exact ⟨_, rfl, hreplied⟩
  · obtain ⟨pool, hpool⟩ := allocate_of_allocatedIp hip false
    have hintended : intendedType c req = .ack := by
      rw [intendedType, if_neg (by rw [hinform]; decide), if_neg (hnot (by rw [hinform]; decide))]
    have hreplied : Replied c req { c with ipPool := pool } (leaseReply c.serverConfig req (intendedType c req) ip) :=
      .lease (by rw [hintended]; decide) (heldIp_allocate hpool)
    unfold dhcpdDispatch doInform
    rw [hinform, hpool]
    dsimp only
    rw [checked_leaseReply]
    rw [hintended] at hreplied
    exact ⟨_, rfl, hreplied⟩
  · obtain ⟨pool, hpool⟩ := allocate_of_allocatedIp hip true
    obtain ⟨confirm, hc⟩ := Option.ne_none_iff_exists'.mp hconfirm
    unfold dhcpdDispatch doRequest
    rw [hrequest, hc, hpool]
    dsimp only
    split_ifs with hne
    · have hrefused : Refused c req := by
        refine ⟨hrequest, ?_⟩
        rw [hip, hc]
        exact fun heq => hne (Option.some.inj heq)
      rw [checked_nakReply]
      exact ⟨_, rfl, .nak (intendedType_eq_nak_iff.mpr hrefused)⟩
    · obtain rfl : ip = confirm := not_not.mp hne
      have hintended : intendedType c req = .ack := by
        rw [intendedType, if_neg (by rw [hrequest]; decide), if_neg fun h => h.2 (hip.trans hc.symm)]
      have hreplied : Replied c req { c with ipPool := pool } (leaseReply c.serverConfig req (intendedType c req) ip) :=
        .lease (by rw [hintended]; decide) (heldIp_allocate hpool)
      rw [checked_leaseReply]
      rw [hintended] at hreplied
      exact ⟨_, rfl, hreplied⟩

/-- Other messages get no reply. -/
theorem dhcpdDispatch_silent (h : ¬Builds c req) : (dhcpdDispatch c req).2 = none := by
  by_cases hsome : allocatedIp c req = none
  · have hpool := allocate_of_allocatedIp_none hsome
    unfold dhcpdDispatch
    cases req.msgType with
    | discover =>
      dsimp only
      rw [doDiscover, hpool false]
    | request =>
      dsimp only
      rw [doRequest, hpool true]
      cases confirmIpaddr req <;> rfl
    | inform =>
      dsimp only
      rw [doInform, hpool false]
    | _ => rfl
  · have hkind := fun hk => h ⟨hk, hsome⟩
    unfold dhcpdDispatch
    cases ht : req.msgType with
    | discover => exact absurd (.inl ht) hkind
    | request =>
      have hc : confirmIpaddr req = none := by
        by_contra hne
        exact hkind (.inr (.inr ⟨ht, hne⟩))
      dsimp only
      rw [doRequest, hc]
    | inform => exact absurd (.inr (.inl ht)) hkind
    | _ => rfl

end Kinds

/-! ### Replies -/

/-- A message for which a reply is built gets it, and every reply reads back. -/
def RepliesParseBack (c : Ctrl) (req : Request) : Prop :=
  (Builds c req → (dhcpdDispatch c req).2 ≠ none) ∧
    ∀ r, (dhcpdDispatch c req).2 = some r → ParsesBack c req (dhcpdDispatch c req).1 r.bytes

/-- A reply reads back exactly if it is a refusal or the lease is not one of two to seven seconds. -/
theorem repliesParseBack_iff (c : Ctrl) (req : Request) (hlease : 1 ≤ c.serverConfig.lease)
    (hword : c.serverConfig.lease < 2 ^ 32) :
    RepliesParseBack c req ↔
      (Builds c req → Refused c req ∨ c.serverConfig.lease = 1 ∨ 8 ≤ c.serverConfig.lease) := by
  by_cases hbuilds : Builds c req
  · obtain ⟨r, hr, hreplied⟩ := dhcpdDispatch_builds hbuilds
    have hback := hreplied.parsesBack_iff hlease hword
    unfold RepliesParseBack
    rw [hr, ← hback]
    constructor
    · exact fun h _ => h.2 r rfl
    · intro h
      refine ⟨fun _ hnone => (nomatch hnone), ?_⟩
      rintro _ ⟨⟩
      exact h hbuilds
  · have hnone := dhcpdDispatch_silent hbuilds
    refine iff_of_true ⟨fun h => absurd h hbuilds, fun r hr => ?_⟩ fun h => absurd h hbuilds
    rw [hnone] at hr
    cases hr

/-- An offer of the access point's server. -/
theorem repliesParseBack_softAp :
    RepliesParseBack (dhcpdStart softApConfig ipPoolZero) (clientMsg .discover 1 none) :=
  (repliesParseBack_iff _ _ (by decide) (by decide)).mpr fun _ => .inr (.inr (by decide))

/-- A lease of two seconds: the offer has a renewal time of one second and a rebinding time of none. -/
theorem not_repliesParseBack :
    ¬RepliesParseBack (dhcpdStart { softApConfig with lease := 2 } ipPoolZero) (clientMsg .discover 1 none) := by
  rintro ⟨-, hback⟩
  have hbuilds : Builds (dhcpdStart { softApConfig with lease := 2 } ipPoolZero) (clientMsg .discover 1 none) :=
    ⟨.inl rfl, by decide⟩
  obtain ⟨r, hr, hreplied⟩ := dhcpdDispatch_builds hbuilds
  rcases (hreplied.parsesBack_iff (by decide) (by decide)).mp (hback r hr) with hrefused | hone | height
  · exact absurd hrefused.1 (by decide)
  · exact absurd hone (by decide)
  · exact absurd height (by decide)

end Ln882x.Dhcpd
