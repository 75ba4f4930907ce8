import Mathlib

/-! The DHCP server of `components/net/dhcpd`: the address pool of
`ip_allocator.c` and the message handlers of `dhcpd.c`. A request is given by
the fields of its packet that the handlers read and by what
`dhcpd_parse_option` finds in it; a reply by the fields and the options that the
handlers write. -/

namespace Ln882x.Dhcpd

/-! ### Addresses -/

/-- The first six bytes of `chaddr`. -/
abbrev Mac := Vector UInt8 6

/-- `ip4_addr_t`, in network byte order. -/
abbrev Ip := Vector UInt8 4

def zeroMac : Mac := Vector.replicate 6 0

def zeroIp : Ip := Vector.replicate 4 0

def Ip.toNat (ip : Ip) : ℕ := ((ip[0].toNat * 256 + ip[1].toNat) * 256 + ip[2].toNat) * 256 + ip[3].toNat

/-- The last byte, which numbers the hosts of a /24. -/
def Ip.host (ip : Ip) : UInt8 := ip[3]

/-- An address in the /24 of another one. -/
def Ip.withHost (ip : Ip) (host : UInt8) : Ip := #v[ip[0], ip[1], ip[2], host]

/-! ### The address pool -/

/-- `dhcpd_ip_item_t`. -/
structure IpItem where
  allocted : Bool
  mac : Mac
  ip : Ip
  deriving DecidableEq

def dhcpdIpPoolSize : ℕ := 4

def isMacAllZero (mac : Mac) : Bool := mac = zeroMac

/-- The loop of `get_next_usable_ip_item` over the entries from number `i` on: the number of
the entry with the address, or the two candidates. -/
def nextUsableLoop (staAddr : Mac) : List IpItem → ℕ → Option ℕ → Option ℕ → ℕ ⊕ Option ℕ × Option ℕ
  | [], _, usable, usable2 => .inr (usable, usable2)
  | item :: items, i, usable, usable2 =>
    if item.mac = staAddr then .inl i
    else
      nextUsableLoop staAddr items (i + 1)
        (if usable = none ∧ item.allocted = false ∧ isMacAllZero item.mac then some i else usable)
        (if usable2 = none ∧ item.allocted = false then some i else usable2)

/-- The entries in use: `MIN(DHCPD_IP_POOL_SIZE, dhcp_client_max)` of them. -/
def active (clientMax : ℕ) (ipPool : List IpItem) : List IpItem := ipPool.take (min dhcpdIpPoolSize clientMax)

def getNextUsableIpItem (clientMax : ℕ) (ipPool : List IpItem) (staAddr : Mac) : Option ℕ :=
  match nextUsableLoop staAddr (active clientMax ipPool) 0 none none with
  | .inl i => some i
  | .inr (usable, usable2) => usable <|> usable2

def getIpItem (clientMax : ℕ) (ipPool : List IpItem) (staAddr : Mac) : Option ℕ :=
  (active clientMax ipPool).findIdx? fun item => item.mac = staAddr

/-- The address and the pool with the entry bound to the client; `none` is
`DHCPD_ERR_IP_USE_UP`. -/
def dhcpdIpAllocate (clientMax : ℕ) (ipPool : List IpItem) (mac : Mac) (preAllocated : Bool) :
    Option (Ip × List IpItem) := do
  let i ← getNextUsableIpItem clientMax ipPool mac
  let item ← ipPool[i]?
  return (item.ip, ipPool.set i { item with mac := mac, allocted := item.allocted || preAllocated })

/-- The source follows the null pointer if the client has no entry; here the pool stays. -/
def dhcpdIpRelease (clientMax : ℕ) (ipPool : List IpItem) (mac : Mac) : List IpItem :=
  match getIpItem clientMax ipPool mac with
  | some i => ipPool.modify i fun item => { item with allocted := false }
  | none => ipPool

/-! ### Messages -/

/-- The message types the server knows. -/
inductive MsgType where
  | discover | offer | request | decline | ack | nak | release | inform
  deriving DecidableEq

/-- A packet of a client. The message type is that of its option 53, the requested address
that of its option 50. -/
structure Request where
  msgType : MsgType
  htype : UInt8
  hlen : UInt8
  xid : Vector UInt8 4
  flags : Vector UInt8 2
  ciaddr : Ip
  mac : Mac
  chaddrRest : Vector UInt8 10
  requestedAddress : Option Ip
  deriving DecidableEq

/-- The options of a reply. -/
inductive ReplyOption where
  | messageType (t : MsgType)
  | serverIdentifier (ip : Ip)
  | leaseTime (n : ℕ)
  | renewalTime (n : ℕ)
  | rebindingTime (n : ℕ)
  | routers (ip : Ip)
  | subnet (ip : Ip)
  | domainNameServers (ip : Ip)
  | hostName (s : String)
  deriving DecidableEq

/-- The bytes of an option, its code and its length included. -/
def ReplyOption.size : ReplyOption → ℕ
  | .messageType _ => 3
  | .hostName s => 2 + s.utf8ByteSize
  | _ => 6

/-- A packet to a client; `siaddr`, `giaddr`, `hops`, `secs` and `file` are zero. -/
structure Reply where
  msgType : MsgType
  htype : UInt8
  hlen : UInt8
  xid : Vector UInt8 4
  flags : Vector UInt8 2
  ciaddr : Ip
  yiaddr : Ip
  mac : Mac
  chaddrRest : Vector UInt8 10
  sname : String
  options : List ReplyOption
  deriving DecidableEq

/-- The length of the packet, rounded up to four. -/
def Reply.sendPktLen (r : Reply) : ℕ := (240 + (r.options.map ReplyOption.size).sum + 2 + 3) / 4 * 4

def dhcpMaxMtu : ℕ := 608

/-- `server_config_t`. -/
structure ServerConfig where
  server : Ip
  port : ℕ
  lease : ℕ
  renew : ℕ
  ipStart : Ip
  ipEnd : Ip
  clientMax : ℕ
  deriving DecidableEq

/-- The part of `dhcpd_ctrl_t` that the handlers use. -/
structure Ctrl where
  serverConfig : ServerConfig
  ipPool : List IpItem
  deriving DecidableEq

/-- The pool entries that `dhcpd_start` prepares. The hardware addresses stay. -/
def dhcpdStart (cfg : ServerConfig) (ipPool : List IpItem) : Ctrl :=
  ⟨cfg, ipPool.mapIdx fun i item =>
    if i < min dhcpdIpPoolSize cfg.clientMax then
      { item with
        allocted := false
        ip := #v[cfg.server[0], cfg.server[1], cfg.server[2], cfg.ipStart[3] + UInt8.ofNat i] }
    else item⟩

/-- `g_dhcpd_ctrl` before the first start. -/
def ipPoolZero : List IpItem := List.replicate dhcpdIpPoolSize ⟨false, zeroMac, zeroIp⟩

def dhcpHostNetmask : Ip := #v[255, 255, 255, 0]

def dhcpHostDns1 : Ip := #v[114, 114, 114, 114]

/-- The reply all handlers write, with the address given. -/
def mkReply (req : Request) (t : MsgType) (yiaddr : Ip) (options : List ReplyOption) : Reply :=
  ⟨t, req.htype, req.hlen, req.xid, req.flags, req.ciaddr, yiaddr, req.mac, req.chaddrRest, "LN-DHCP-Server", options⟩

/-- The times and addresses of an offer or acknowledgement. -/
def leaseOptions (cfg : ServerConfig) : List ReplyOption :=
  [.leaseTime cfg.lease, .renewalTime (cfg.lease / 2), .rebindingTime (cfg.lease / 8 * 7), .routers cfg.server,
    .subnet dhcpHostNetmask, .domainNameServers dhcpHostDns1]

def hostNameOption : ReplyOption := .hostName "LN882x-SoftAP"

def leaseReply (cfg : ServerConfig) (req : Request) (t : MsgType) (yiaddr : Ip) : Reply :=
  mkReply req t yiaddr ([.messageType t, .serverIdentifier cfg.server] ++ leaseOptions cfg ++ [hostNameOption])

def nakReply (cfg : ServerConfig) (req : Request) : Reply :=
  mkReply req .nak zeroIp [.messageType .nak, .serverIdentifier cfg.server, hostNameOption]

/-- A reply longer than `max_mtu` is not sent. -/
def checked (r : Reply) : Option Reply := if r.sendPktLen > dhcpMaxMtu then none else some r

def doDiscover (c : Ctrl) (req : Request) : Ctrl × Option Reply :=
  match dhcpdIpAllocate c.serverConfig.clientMax c.ipPool req.mac false with
  | none => (c, none)
  | some (ip, ipPool) => ({ c with ipPool := ipPool }, checked (leaseReply c.serverConfig req .offer ip))

/-- The address a request asks for. -/
def confirmIpaddr (req : Request) : Option Ip :=
  match req.requestedAddress with
  | some ip => some ip
  | none => if req.ciaddr ≠ zeroIp then some req.ciaddr else none

def doRequest (c : Ctrl) (req : Request) : Ctrl × Option Reply :=
  match confirmIpaddr req with
  | none => (c, none)
  | some confirm =>
    match dhcpdIpAllocate c.serverConfig.clientMax c.ipPool req.mac true with
    | none => (c, none)
    | some (ip, ipPool) =>
      if ip ≠ confirm then
        ({ c with ipPool := dhcpdIpRelease c.serverConfig.clientMax ipPool req.mac },
          checked (nakReply c.serverConfig req))
      else ({ c with ipPool := ipPool }, checked (leaseReply c.serverConfig req .ack confirm))

def doInform (c : Ctrl) (req : Request) : Ctrl × Option Reply :=
  match dhcpdIpAllocate c.serverConfig.clientMax c.ipPool req.mac false with
  | none => (c, none)
  | some (ip, ipPool) => ({ c with ipPool := ipPool }, checked (leaseReply c.serverConfig req .ack ip))

/-- Releases and declines are not supported. -/
def dhcpdDispatch (c : Ctrl) (req : Request) : Ctrl × Option Reply :=
  match req.msgType with
  | .discover => doDiscover c req
  | .request => doRequest c req
  | .inform => doInform c req
  | _ => (c, none)

/-- What the server sends in answer to a list of messages. -/
def serve : Ctrl → List Request → List (Option Reply)
  | _, [] => []
  | c, req :: reqs => (dhcpdDispatch c req).2 :: serve (dhcpdDispatch c req).1 reqs

/-- The state after a list of messages. -/
def serveState : Ctrl → List Request → Ctrl
  | c, [] => c
  | c, req :: reqs => serveState (dhcpdDispatch c req).1 reqs

end Ln882x.Dhcpd
