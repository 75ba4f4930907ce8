import Mathlib.Data.Int.Notation
import Ln882x.Kv.Store

/-! The system parameters. Eleven values of different types are kept in one
untyped store under string keys: a setter hands the bytes of its variable to
`ln_kv_set`, a getter lets `ln_kv_get` copy them into the caller's variable. The
store itself is taken to be a map. A host name is stored without its terminating
zero and is copied back without one, so the caller's buffer holds the name only
if it had a zero at the right place before. -/

namespace Ln882x.Sysparam

open Nor Kv

/-! ### The store as a map -/

abbrev KvMap := String → Option Bytes

/-- The numbers of `kv_err_t`. -/
def kvErrCode : KvErr → ℤ
  | .none => 0
  | .bufTooShort => 10
  | .blkStatusError => 11
  | .flashEraseFailed => 30
  | .flashReadFailed => 31
  | .flashWriteFailed => 32
  | .gcNothing => 40
  | .internalError => 50
  | .insufficientSpace => 51
  | .nextLoop => 60
  | .notExist => 61
  | .noWriteableBlk => 62
  | .outOfMemory => 70
  | .posFixFailed => 80
  | .sizeExceeded => 90

def lnKvSet (key : String) (value : Bytes) (kv : KvMap) : KvErr × KvMap :=
  (.none, Function.update kv key (some value))

/-- The error code and the caller's buffer after the call. -/
def lnKvGet (key : String) (buf : Bytes) (bufSize : ℕ) (kv : KvMap) : KvErr × Bytes :=
  match kv key with
  | none => (.notExist, buf)
  | some v => if bufSize < v.length then (.bufTooShort, buf) else (.none, v ++ buf.drop v.length)

/-! ### Types and constants -/

/-- `wifi_interface_enum_t`. -/
inductive WifiInterface where
  | stationIf | softApIf | monitorIf | wifiIfNum
  deriving DecidableEq

/-- Enumerations are kept as their numbers, since a getter reads one from raw bytes. -/
def wifiModeStation : ℕ := 0

def wifiModeMax : ℕ := 4

def ctryCodeCn : ℕ := 0

def ctryCodeMax : ℕ := 4

def wifiAuthOpen : ℕ := 0

def wifiAuthWpa2Psk : ℕ := 3

def macAddressLen : ℕ := 6

def ssidMaxLen : ℕ := 33

def passwordMaxLen : ℕ := 64

def netifHostnameLenMax : ℕ := 8

/-- What the compiler chooses: the width of an enumeration. -/
structure Abi where
  enumSize : ℕ
  enum_pos : 0 < enumSize

def alignUp (n a : ℕ) : ℕ := (n + a - 1) / a * a

namespace Abi

variable (abi : Abi)

/-! The members of `wifi_ap_config_t` from `authmode` on. -/

def authmodeOffset : ℕ := alignUp (ssidMaxLen + passwordMaxLen + 2) abi.enumSize

def ssidHiddenOffset : ℕ := abi.authmodeOffset + abi.enumSize

def beaconIntervalOffset : ℕ := alignUp (abi.ssidHiddenOffset + 2) 2

/-- `sizeof(wifi_config_t)`, a union of the two configurations. -/
def wifiConfigSize : ℕ :=
  alignUp (max (abi.beaconIntervalOffset + 4) (ssidMaxLen + passwordMaxLen + macAddressLen + 2))
    (max 2 abi.enumSize)

end Abi

/-- `sizeof(tcpip_ip_info_t)`. -/
def ipInfoSize : ℕ := 12

/-- `sizeof(server_config_t)`. -/
def serverConfigSize : ℕ := 28

def zeros (n : ℕ) : Bytes := List.replicate n 0

/-- `data` is assigned to the member at `off`. -/
def assign (off : ℕ) (data : Bytes) (img : Bytes) : Bytes :=
  img.take off ++ data ++ img.drop (off + data.length)

def cString (s : String) : Bytes := s.toList.map fun c => UInt8.ofNat c.toNat

def strlen (s : Bytes) : ℕ := (s.takeWhile (· ≠ 0)).length

/-! ### Setters and getters -/

section

/-- A setter of one interface's value: other interfaces are accepted and ignored. -/
def setByIf (key apKey : String) (ifIndex : WifiInterface) (value : Bytes) (kv : KvMap) : ℤ × KvMap :=
  match ifIndex with
  | .stationIf => let (ret, kv) := lnKvSet key value kv; (-1 * kvErrCode ret, kv)
  | .softApIf => let (ret, kv) := lnKvSet apKey value kv; (-1 * kvErrCode ret, kv)
  | _ => (0, kv)

/-- A getter of one interface's value: the result and the caller's variable after the call. -/
def getByIf (key apKey : String) (len : ℕ) (ifIndex : WifiInterface) (buf : Bytes) (kv : KvMap) :
    ℤ × Bytes :=
  match ifIndex with
  | .stationIf => let (ret, buf) := lnKvGet key buf len kv; (-1 * kvErrCode ret, buf)
  | .softApIf => let (ret, buf) := lnKvGet apKey buf len kv; (-1 * kvErrCode ret, buf)
  | _ => (0, buf)

variable (abi : Abi) (ifIndex : WifiInterface) (kv : KvMap)

def systemParameterSetMacaddr (macaddr : Bytes) : ℤ × KvMap :=
  setByIf "kv_addr" "kv_ap_addr" ifIndex (macaddr.take macAddressLen) kv

def systemParameterGetMacaddr (macaddr : Bytes) : ℤ × Bytes :=
  getByIf "kv_addr" "kv_ap_addr" macAddressLen ifIndex macaddr kv

def systemParameterSetConfig (config : Bytes) : ℤ × KvMap :=
  setByIf "kv_wifi_cfg" "kv_ap_cfg" ifIndex (config.take abi.wifiConfigSize) kv

def systemParameterGetConfig (config : Bytes) : ℤ × Bytes :=
  getByIf "kv_wifi_cfg" "kv_ap_cfg" abi.wifiConfigSize ifIndex config kv

def systemParameterSetIpConfig (ipConfig : Bytes) : ℤ × KvMap :=
  setByIf "kv_ip_info" "kv_ap_ip_info" ifIndex (ipConfig.take ipInfoSize) kv

def systemParameterGetIpConfig (ipConfig : Bytes) : ℤ × Bytes :=
  getByIf "kv_ip_info" "kv_ap_ip_info" ipInfoSize ifIndex ipConfig kv

def systemParameterSetWifiMode (wifiMode : ℕ) : ℤ × KvMap :=
  let (ret, kv) := lnKvSet "kv_mode" (leBytes abi.enumSize wifiMode) kv
  (-1 * kvErrCode ret, kv)

/-- A value that is not there leaves the variable at `WIFI_MODE_MAX`. -/
def systemParameterGetWifiMode : ℕ :=
  le (lnKvGet "kv_mode" (leBytes abi.enumSize wifiModeMax) abi.enumSize kv).2

def systemParameterSetCountryCode (ccode : ℕ) : ℤ × KvMap :=
  let (ret, kv) := lnKvSet "kv_ccode" (leBytes abi.enumSize ccode) kv
  (-1 * kvErrCode ret, kv)

def systemParameterGetCountryCode : ℕ :=
  le (lnKvGet "kv_ccode" (leBytes abi.enumSize ctryCodeMax) abi.enumSize kv).2

/-- The terminating zero of the name is not stored. -/
def systemParameterSetHostname (hostname : Bytes) : ℤ × KvMap :=
  setByIf "kv_hostname" "kv_ap_hname" ifIndex (hostname.take (strlen hostname)) kv

def systemParameterGetHostname (hostname : Bytes) : ℤ × Bytes :=
  getByIf "kv_hostname" "kv_ap_hname" netifHostnameLenMax ifIndex hostname kv

def systemParameterSetDhcpdConfig (serverConfig : Bytes) : ℤ × KvMap :=
  let (ret, kv) := lnKvSet "kv_server_cfg" (serverConfig.take serverConfigSize) kv
  (-1 * kvErrCode ret, kv)

def systemParameterGetDhcpdConfig (serverConfig : Bytes) : ℤ × Bytes :=
  let (ret, buf) := lnKvGet "kv_server_cfg" serverConfig serverConfigSize kv
  (-1 * kvErrCode ret, buf)

end

/-! ### Defaults -/

def wifiApSsidDefault : Bytes := cString "LN8826"

def wifiApPasswordDefault : Bytes := cString "12345678"

def staHostname : Bytes := cString "wifi_sta"

def apHostname : Bytes := cString "wifi_ap"

def dhcpdIpLeaseTime : ℕ := 2880

def dhcpdIpRenewTime : ℕ := 2880

def dhcpdListenPort : ℕ := 67

def wifiApChannelDefault : ℕ := 7

def wifiApMaxConnectionDefault : ℕ := 3

def wifiApBeaconIntervalDefault : ℕ := 100

def systemParameterGetWifiConfigDefault (abi : Abi) (ifIndex : WifiInterface) : Bytes :=
  let config := zeros abi.wifiConfigSize
  if ifIndex = .stationIf then
    -- `channel` follows the three names of the station's configuration
    assign (ssidMaxLen + passwordMaxLen + macAddressLen) [1, 0] config
  else
    let len := min wifiApPasswordDefault.length passwordMaxLen
    let authmode := if 0 < strlen (wifiApPasswordDefault.take len) then wifiAuthWpa2Psk else wifiAuthOpen
    config
    |> assign (ssidMaxLen + passwordMaxLen) [UInt8.ofNat wifiApSsidDefault.length]
    |> assign 0 wifiApSsidDefault
    |> assign ssidMaxLen (wifiApPasswordDefault.take len)
    |> assign abi.authmodeOffset (leBytes abi.enumSize authmode)
    |> assign (ssidMaxLen + passwordMaxLen + 1) [UInt8.ofNat wifiApChannelDefault]
    |> assign abi.ssidHiddenOffset [0]
    |> assign (abi.ssidHiddenOffset + 1) [UInt8.ofNat wifiApMaxConnectionDefault]
    |> assign abi.beaconIntervalOffset (leBytes 2 wifiApBeaconIntervalDefault)

/-- Address, netmask and gateway. -/
def systemParameterGetIpConfigDefault (ifIndex : WifiInterface) : Bytes :=
  if ifIndex = .stationIf then [192, 168, 1, 20] ++ [255, 255, 255, 0] ++ [192, 168, 1, 1]
  else [192, 168, 1, 1] ++ [255, 255, 255, 0] ++ [192, 168, 1, 1]

def systemParameterGetDhcpdConfigDefault : Bytes :=
  zeros serverConfigSize
  |> assign 0 [192, 168, 1, 1]
  |> assign 4 (leBytes 2 dhcpdListenPort)
  |> assign 8 (leBytes 4 dhcpdIpLeaseTime)
  |> assign 12 (leBytes 4 dhcpdIpRenewTime)
  |> assign 16 [192, 168, 1, 100]
  |> assign 20 [192, 168, 1, 102]
  |> assign 24 [UInt8.ofNat wifiApMaxConnectionDefault]

def systemParameterGetHostnameDefault (ifIndex : WifiInterface) (hostname : Bytes) : Bytes :=
  if ifIndex = .stationIf then assign 0 staHostname hostname else assign 0 apHostname hostname

/-! ### Start-up -/

/-- Each parameter whose getter fails is set to its default. The two addresses are
what `ln_generate_random_mac` gives. The variables of the getters were cleared before,
and the result is that of the last getter. -/
def systemParameterInit (abi : Abi) (mac apMac : Bytes) (kv : KvMap) : ℤ × KvMap :=
  let kv := if wifiModeMax = systemParameterGetWifiMode abi kv then
    (systemParameterSetWifiMode abi kv wifiModeStation).2 else kv
  let kv := if ctryCodeMax = systemParameterGetCountryCode abi kv then
    (systemParameterSetCountryCode abi kv ctryCodeCn).2 else kv
  let ret := (systemParameterGetMacaddr .stationIf kv (zeros macAddressLen)).1
  let kv := if ret < 0 then (systemParameterSetMacaddr .stationIf kv mac).2 else kv
  let ret := (systemParameterGetMacaddr .softApIf kv (zeros macAddressLen)).1
  let kv := if ret < 0 then (systemParameterSetMacaddr .softApIf kv apMac).2 else kv
  let got := systemParameterGetHostname .stationIf kv (zeros (netifHostnameLenMax + 1))
  let kv := if got.1 < 0 then
    (systemParameterSetHostname .stationIf kv (systemParameterGetHostnameDefault .stationIf got.2)).2
    else kv
  let got := systemParameterGetHostname .softApIf kv (zeros (netifHostnameLenMax + 1))
  let kv := if got.1 < 0 then
    (systemParameterSetHostname .softApIf kv (systemParameterGetHostnameDefault .softApIf got.2)).2
    else kv
  let ret := (systemParameterGetConfig abi .stationIf kv (zeros abi.wifiConfigSize)).1
  let kv := if ret < 0 then
    (systemParameterSetConfig abi .stationIf kv (systemParameterGetWifiConfigDefault abi .stationIf)).2
    else kv
  let ret := (systemParameterGetConfig abi .softApIf kv (zeros abi.wifiConfigSize)).1
  let kv := if ret < 0 then
    (systemParameterSetConfig abi .softApIf kv (systemParameterGetWifiConfigDefault abi .softApIf)).2
    else kv
  let ret := (systemParameterGetIpConfig .stationIf kv (zeros ipInfoSize)).1
  let kv := if ret < 0 then
    (systemParameterSetIpConfig .stationIf kv (systemParameterGetIpConfigDefault .stationIf)).2 else kv
  let ret := (systemParameterGetIpConfig .softApIf kv (zeros ipInfoSize)).1
  let kv := if ret < 0 then
    (systemParameterSetIpConfig .softApIf kv (systemParameterGetIpConfigDefault .softApIf)).2 else kv
  let ret := (systemParameterGetDhcpdConfig kv (zeros serverConfigSize)).1
  let kv := if ret < 0 then
    (systemParameterSetDhcpdConfig kv systemParameterGetDhcpdConfigDefault).2 else kv
  (ret, kv)

end Ln882x.Sysparam
