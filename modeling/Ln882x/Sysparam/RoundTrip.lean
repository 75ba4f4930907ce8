import Ln882x.Sysparam.Parameters

/-! Round trips of the system parameters, over all orders of setters and start-ups.
The invariant is that the bytes of the last setter are in the store under the key
of its parameter: another parameter has another key, and start-up leaves a value
alone that its getter accepts. The getters of fixed size then return what was set.
A host name comes back followed by what the buffer held behind it. -/

namespace Ln882x.Sysparam

open Nor Kv

/-! ### Parameters and calls -/

/-- The two interfaces that have parameters of their own. -/
inductive Iface where
  | sta | ap
  deriving DecidableEq

def Iface.index : Iface → WifiInterface
  | .sta => .stationIf
  | .ap => .softApIf

/-- The first key for the station, the second for the access point. -/
def Iface.key (key apKey : String) : Iface → String
  | .sta => key
  | .ap => apKey

inductive Param where
  | wifiMode | countryCode | dhcpdConfig
  | macaddr (i : Iface)
  | hostname (i : Iface)
  | config (i : Iface)
  | ipConfig (i : Iface)
  deriving DecidableEq

abbrev Image (n : ℕ) := {bs : Bytes // bs.length = n}

/-- A host name the buffers can hold. -/
structure HostName where
  bytes : Bytes
  pos : 0 < bytes.length
  le_max : bytes.length ≤ netifHostnameLenMax
  nonzero : 0 ∉ bytes

/-- A call of a setter with a value of its parameter's type. -/
inductive Setter (abi : Abi) where
  | wifiMode (mode : ℕ) (hmode : mode < wifiModeMax)
  | countryCode (ccode : ℕ) (hccode : ccode < ctryCodeMax)
  | dhcpdConfig (serverConfig : Image serverConfigSize)
  | macaddr (i : Iface) (macaddr : Image macAddressLen)
  | hostname (i : Iface) (name : HostName)
  | config (i : Iface) (config : Image abi.wifiConfigSize)
  | ipConfig (i : Iface) (ipConfig : Image ipInfoSize)

inductive Call (abi : Abi) where
  | set (c : Setter abi)
  | init (mac apMac : Image macAddressLen)

namespace Param

def key : Param → String
  | .wifiMode => "kv_mode"
  | .countryCode => "kv_ccode"
  | .dhcpdConfig => "kv_server_cfg"
  | .macaddr i => i.key "kv_addr" "kv_ap_addr"
  | .hostname i => i.key "kv_hostname" "kv_ap_hname"
  | .config i => i.key "kv_wifi_cfg" "kv_ap_cfg"
  | .ipConfig i => i.key "kv_ip_info" "kv_ap_ip_info"

theorem key_injective : Function.Injective key := by
  rintro (_ | _ | _ | ⟨⟨⟩⟩ | ⟨⟨⟩⟩ | ⟨⟨⟩⟩ | ⟨⟨⟩⟩) (_ | _ | _ | ⟨⟨⟩⟩ | ⟨⟨⟩⟩ | ⟨⟨⟩⟩ | ⟨⟨⟩⟩) <;>
    simp [key, Iface.key]

variable (abi : Abi)

/-- The size of the variable a getter fills; the host name's has room for a zero. -/
def bufLen : Param → ℕ
  | .wifiMode | .countryCode => 0
  | .dhcpdConfig => serverConfigSize
  | .macaddr _ => macAddressLen
  | .hostname _ => netifHostnameLenMax + 1
  | .config _ => abi.wifiConfigSize
  | .ipConfig _ => ipInfoSize

/-- What the getter returns and leaves in `buf`. -/
def get (buf : Bytes) (kv : KvMap) : Param → ℤ × Bytes
  | .wifiMode => (systemParameterGetWifiMode abi kv, [])
  | .countryCode => (systemParameterGetCountryCode abi kv, [])
  | .dhcpdConfig => systemParameterGetDhcpdConfig kv buf
  | .macaddr i => systemParameterGetMacaddr i.index kv buf
  | .hostname i => systemParameterGetHostname i.index kv buf
  | .config i => systemParameterGetConfig abi i.index kv buf
  | .ipConfig i => systemParameterGetIpConfig i.index kv buf

/-- The test by which start-up finds that a parameter has no value. -/
def Unset (kv : KvMap) : Param → Prop
  | .wifiMode => wifiModeMax = systemParameterGetWifiMode abi kv
  | .countryCode => ctryCodeMax = systemParameterGetCountryCode abi kv
  | p => (p.get abi (zeros (p.bufLen abi)) kv).1 < 0

/-- A getter looks at no key but its own. -/
theorem get_congr {p : Param} {kv kv' : KvMap} (h : kv p.key = kv' p.key) (buf : Bytes) :
    p.get abi buf kv = p.get abi buf kv' := by
  rcases p with _ | _ | _ | ⟨⟨⟩⟩ | ⟨⟨⟩⟩ | ⟨⟨⟩⟩ | ⟨⟨⟩⟩ <;>
    simp only [key, Iface.key] at h <;>
    simp only [get, Iface.index, systemParameterGetWifiMode, systemParameterGetCountryCode,
      systemParameterGetDhcpdConfig, systemParameterGetMacaddr, systemParameterGetHostname,
      systemParameterGetConfig, systemParameterGetIpConfig, getByIf, lnKvGet, h]

theorem unset_congr {p : Param} {kv kv' : KvMap} (h : kv p.key = kv' p.key) :
    p.Unset abi kv ↔ p.Unset abi kv' := by
  cases p with
  | wifiMode | countryCode =>
    have hget := congrArg Prod.fst (get_congr abi h [])
    simp only [get, Nat.cast_inj] at hget
    simp only [Unset, hget]
  | dhcpdConfig | macaddr | hostname | config | ipConfig => simp only [Unset, get_congr abi h]

end Param

namespace Setter

variable {abi : Abi}

def param : Setter abi → Param
  | .wifiMode _ _ => .wifiMode
  | .countryCode _ _ => .countryCode
  | .dhcpdConfig _ => .dhcpdConfig
  | .macaddr i _ => .macaddr i
  | .hostname i _ => .hostname i
  | .config i _ => .config i
  | .ipConfig i _ => .ipConfig i

/-- The bytes that reach the store. -/
def value : Setter abi → Bytes
  | .wifiMode mode _ => leBytes abi.enumSize mode
  | .countryCode ccode _ => leBytes abi.enumSize ccode
  | .dhcpdConfig v | .macaddr _ v | .config _ v | .ipConfig _ v => v
  | .hostname _ name => name.bytes

def run (kv : KvMap) : Setter abi → ℤ × KvMap
  | .wifiMode mode _ => systemParameterSetWifiMode abi kv mode
  | .countryCode ccode _ => systemParameterSetCountryCode abi kv ccode
  | .dhcpdConfig v => systemParameterSetDhcpdConfig kv v
  | .macaddr i v => systemParameterSetMacaddr i.index kv v
  | .hostname i name => systemParameterSetHostname i.index kv (name.bytes ++ [0])
  | .config i v => systemParameterSetConfig abi i.index kv v
  | .ipConfig i v => systemParameterSetIpConfig i.index kv v

/-- The C string at the start of `buf` is `name`. -/
def HoldsString (buf name : Bytes) : Prop := ∃ rest, buf = name ++ 0 :: rest

/-- The getter of the setter's parameter returns the value that was set. -/
def Reads (buf : Bytes) (kv : KvMap) : Setter abi → Prop
  | .wifiMode mode _ => systemParameterGetWifiMode abi kv = mode
  | .countryCode ccode _ => systemParameterGetCountryCode abi kv = ccode
  | .dhcpdConfig v => systemParameterGetDhcpdConfig kv buf = (0, v.1)
  | .macaddr i v => systemParameterGetMacaddr i.index kv buf = (0, v.1)
  | .hostname i name => (systemParameterGetHostname i.index kv buf).1 = 0 ∧
      HoldsString (systemParameterGetHostname i.index kv buf).2 name.bytes
  | .config i v => systemParameterGetConfig abi i.index kv buf = (0, v.1)
  | .ipConfig i v => systemParameterGetIpConfig i.index kv buf = (0, v.1)

/-- The getter of a host name finds a zero in the buffer right behind the name. -/
def Terminated (buf : Bytes) : Setter abi → Prop
  | .hostname _ name => buf[name.bytes.length]? = some 0
  | _ => True

end Setter

/-! ### One call -/

theorem setByIf_index (key apKey : String) (i : Iface) (value : Bytes) (kv : KvMap) :
    setByIf key apKey i.index value kv
      = ((0 : ℤ), Function.update kv (i.key key apKey) (some value)) := by
  cases i <;> rfl

theorem lnKvGet_eq {key : String} {kv : KvMap} {v : Bytes} {size : ℕ} (h : kv key = some v)
    (hlen : v.length ≤ size) (buf : Bytes) :
    lnKvGet key buf size kv = (.none, v ++ buf.drop v.length) := by
  rw [lnKvGet, h]
  exact if_neg (Nat.not_lt.mpr hlen)

theorem getByIf_index {key apKey : String} {i : Iface} {kv : KvMap} {v : Bytes} {len : ℕ}
    (h : kv (i.key key apKey) = some v) (hlen : v.length ≤ len) (buf : Bytes) :
    getByIf key apKey len i.index buf kv = ((0 : ℤ), v ++ buf.drop v.length) := by
  cases i <;> simp only [Iface.key] at h <;> simp [getByIf, Iface.index, lnKvGet_eq h hlen, kvErrCode]

/-- A variable of the size of the value is overwritten. -/
theorem append_drop_image {n : ℕ} {buf : Bytes} (v : Image n) (hbuf : buf.length = n) :
    v.1 ++ buf.drop v.1.length = v.1 := by
  rw [List.drop_eq_nil_of_le (by rw [hbuf, v.2]), List.append_nil]

theorem getByIf_image {key apKey : String} {i : Iface} {kv : KvMap} {n : ℕ} {v : Image n} {buf : Bytes}
    (h : kv (i.key key apKey) = some v.1) (hbuf : buf.length = n) :
    getByIf key apKey n i.index buf kv = ((0 : ℤ), v.1) := by
  rw [getByIf_index h v.2.le, append_drop_image v hbuf]

/-- A small number is read back into a variable of an enumeration. -/
theorem lnKvGet_enum {abi : Abi} {key : String} {kv : KvMap} {x : ℕ} (hx : x < 256) (m : ℕ)
    (h : kv key = some (leBytes abi.enumSize x)) :
    le (lnKvGet key (leBytes abi.enumSize m) abi.enumSize kv).2 = x := by
  have hlt : x < 256 ^ abi.enumSize := by
    have := Nat.pow_le_pow_right (n := 256) (by decide) abi.enum_pos
    omega
  rw [lnKvGet_eq h (length_leBytes _ _).le,
    append_drop_image ⟨leBytes abi.enumSize x, length_leBytes _ _⟩ (length_leBytes _ _)]
  exact le_leBytes _ _ hlt

theorem strlen_append_zero {name : Bytes} (h : 0 ∉ name) : strlen (name ++ [0]) = name.length := by
  have hall : ∀ b ∈ name, b ≠ 0 := by
    rintro b hb rfl
    exact h hb
  rw [strlen, List.takeWhile_append_of_pos (by simpa using hall)]
  simp

namespace Setter

variable {abi : Abi} {kv : KvMap}

/-- A setter stores its bytes under the key of its parameter. -/
theorem run_eq (c : Setter abi) (kv : KvMap) :
    c.run kv = (0, Function.update kv c.param.key (some c.value)) := by
  cases c with
  | wifiMode | countryCode => rfl
  | dhcpdConfig v =>
    rw [run, systemParameterSetDhcpdConfig, List.take_of_length_le v.2.le]
    rfl
  | macaddr i v =>
    rw [run, systemParameterSetMacaddr, setByIf_index, List.take_of_length_le v.2.le]
    rfl
  | hostname i name =>
    rw [run, systemParameterSetHostname, setByIf_index, strlen_append_zero name.nonzero,
      List.take_left]
    rfl
  | config i v =>
    rw [run, systemParameterSetConfig, setByIf_index, List.take_of_length_le v.2.le]
    rfl
  | ipConfig i v =>
    rw [run, systemParameterSetIpConfig, setByIf_index, List.take_of_length_le v.2.le]
    rfl

/-- The getter of a parameter whose last setter was `c`: it succeeds, and a host name is
the only one whose buffer matters. -/
theorem reads_iff (c : Setter abi) (h : kv c.param.key = some c.value)
    (buf : Image (c.param.bufLen abi)) : c.Reads buf kv ↔ c.Terminated buf := by
  obtain ⟨buf, hbuf⟩ := buf
  cases c with
  | wifiMode mode hmode =>
    have hlt : mode < 256 := lt_trans hmode (by decide)
    exact iff_of_true (lnKvGet_enum hlt wifiModeMax h) trivial
  | countryCode ccode hccode =>
    have hlt : ccode < 256 := lt_trans hccode (by decide)
    exact iff_of_true (lnKvGet_enum hlt ctryCodeMax h) trivial
  | dhcpdConfig v =>
    have hget : lnKvGet "kv_server_cfg" buf serverConfigSize kv = (.none, v.1) := by
      rw [← append_drop_image v hbuf]
      exact lnKvGet_eq h v.2.le buf
    simp [Reads, Terminated, systemParameterGetDhcpdConfig, hget, kvErrCode]
  | macaddr i v => exact iff_of_true (getByIf_image (v := v) h hbuf) trivial
  | hostname i name =>
    have hget : systemParameterGetHostname i.index kv buf
        = (0, name.bytes ++ buf.drop name.bytes.length) := getByIf_index h name.le_max buf
    simp only [Reads, Terminated, hget, HoldsString, true_and, List.append_cancel_left_eq]
    rw [← List.head?_drop, List.head?_eq_some_iff]
  | config i v => exact iff_of_true (getByIf_image (v := v) h hbuf) trivial
  | ipConfig i v => exact iff_of_true (getByIf_image (v := v) h hbuf) trivial

/-- A value that a setter stored passes the test of start-up. -/
theorem not_unset (c : Setter abi) (h : kv c.param.key = some c.value) : ¬ c.param.Unset abi kv := by
  have hfree (n : ℕ) : (zeros n).length = n := List.length_replicate
  cases c with
  | wifiMode mode hmode =>
    have hget : systemParameterGetWifiMode abi kv = mode :=
      lnKvGet_enum (lt_trans hmode (by decide)) wifiModeMax h
    simp only [Param.Unset, param, hget]
    omega
  | countryCode ccode hccode =>
    have hget : systemParameterGetCountryCode abi kv = ccode :=
      lnKvGet_enum (lt_trans hccode (by decide)) ctryCodeMax h
    simp only [Param.Unset, param, hget]
    omega
  | dhcpdConfig v =>
    have hget : lnKvGet "kv_server_cfg" (zeros serverConfigSize) serverConfigSize kv
        = (.none, v.1 ++ _) := lnKvGet_eq h v.2.le _
    simp [Param.Unset, param, Param.get, Param.bufLen, systemParameterGetDhcpdConfig, hget, kvErrCode]
  | macaddr i v =>
    have hget : systemParameterGetMacaddr i.index kv (zeros macAddressLen) = (0, v.1) :=
      getByIf_image h (hfree _)
    simp [Param.Unset, param, Param.get, Param.bufLen, hget]
  | hostname i name =>
    have hget : systemParameterGetHostname i.index kv (zeros (netifHostnameLenMax + 1))
        = (0, name.bytes ++ _) := getByIf_index h name.le_max _
    simp [Param.Unset, param, Param.get, Param.bufLen, hget]
  | config i v =>
    have hget : systemParameterGetConfig abi i.index kv (zeros abi.wifiConfigSize) = (0, v.1) :=
      getByIf_image h (hfree _)
    simp [Param.Unset, param, Param.get, Param.bufLen, hget]
  | ipConfig i v =>
    have hget : systemParameterGetIpConfig i.index kv (zeros ipInfoSize) = (0, v.1) :=
      getByIf_image h (hfree _)
    simp [Param.Unset, param, Param.get, Param.bufLen, hget]

end Setter

/-! ### Start-up -/

/-- The bytes start-up stores for a parameter that has no value. -/
def Param.default (abi : Abi) (mac apMac : Bytes) (kv : KvMap) : Param → Bytes
  | .wifiMode => leBytes abi.enumSize wifiModeStation
  | .countryCode => leBytes abi.enumSize ctryCodeCn
  | .dhcpdConfig => systemParameterGetDhcpdConfigDefault.take serverConfigSize
  | .macaddr .sta => mac.take macAddressLen
  | .macaddr .ap => apMac.take macAddressLen
  | .hostname i =>
    let buf := systemParameterGetHostnameDefault i.index
      (systemParameterGetHostname i.index kv (zeros (netifHostnameLenMax + 1))).2
    buf.take (strlen buf)
  | .config i => (systemParameterGetWifiConfigDefault abi i.index).take abi.wifiConfigSize
  | .ipConfig i => (systemParameterGetIpConfigDefault i.index).take ipInfoSize

instance (abi : Abi) (kv : KvMap) (p : Param) : Decidable (p.Unset abi kv) := by
  cases p <;> unfold Param.Unset <;> infer_instance

/-- Start-up's treatment of one parameter. -/
def Param.provide (abi : Abi) (mac apMac : Bytes) (kv : KvMap) (p : Param) : KvMap :=
  if p.Unset abi kv then Function.update kv p.key (some (p.default abi mac apMac kv)) else kv

theorem systemParameterInit_eq (abi : Abi) (mac apMac : Bytes) (kv : KvMap) :
    (systemParameterInit abi mac apMac kv).2 =
      [.wifiMode, .countryCode, .macaddr .sta, .macaddr .ap, .hostname .sta, .hostname .ap, .config .sta,
        .config .ap, .ipConfig .sta, .ipConfig .ap, .dhcpdConfig].foldl (Param.provide abi mac apMac) kv := by
  unfold systemParameterInit
  lift_lets
  extract_lets kv1 kv2 _ kv3 _ kv4 _ kv5 _ kv6 _ kv7 _ kv8 _ kv9 _ kv10 _ kv11
  have h1 : kv1 = Param.provide abi mac apMac kv .wifiMode := rfl
  -- each value is forgotten before the next comparison, or unfolding repeats the earlier blocks
  clear_value kv1
  have h2 : kv2 = Param.provide abi mac apMac kv1 .countryCode := rfl
  clear_value kv2
  have h3 : kv3 = Param.provide abi mac apMac kv2 (.macaddr .sta) := rfl
  clear_value kv3
  have h4 : kv4 = Param.provide abi mac apMac kv3 (.macaddr .ap) := rfl
  clear_value kv4
  have h5 : kv5 = Param.provide abi mac apMac kv4 (.hostname .sta) := rfl
  clear_value kv5
  have h6 : kv6 = Param.provide abi mac apMac kv5 (.hostname .ap) := rfl
  clear_value kv6
  have h7 : kv7 = Param.provide abi mac apMac kv6 (.config .sta) := rfl
  clear_value kv7
  have h8 : kv8 = Param.provide abi mac apMac kv7 (.config .ap) := rfl
  clear_value kv8
  have h9 : kv9 = Param.provide abi mac apMac kv8 (.ipConfig .sta) := rfl
  clear_value kv9
  have h10 : kv10 = Param.provide abi mac apMac kv9 (.ipConfig .ap) := rfl
  clear_value kv10
  have h11 : kv11 = Param.provide abi mac apMac kv10 .dhcpdConfig := rfl
  simp only [List.foldl_cons, List.foldl_nil, ← h1, ← h2, ← h3, ← h4, ← h5, ← h6, ← h7, ← h8, ← h9,
    ← h10, ← h11]

variable {abi : Abi}

/-- A parameter that has a value keeps it. -/
theorem Param.provide_keeps {kv : KvMap} {p : Param} (h : ¬ p.Unset abi kv) (mac apMac : Bytes)
    (q : Param) : q.provide abi mac apMac kv p.key = kv p.key := by
  unfold Param.provide
  split
  · rename_i hq
    have hne : p ≠ q := by
      rintro rfl
      exact h hq
    exact Function.update_of_ne (fun hk => hne (Param.key_injective hk)) _ _
  · rfl

theorem Param.foldl_provide_keeps {p : Param} (mac apMac : Bytes) (l : List Param) {kv : KvMap}
    (h : ¬ p.Unset abi kv) : l.foldl (Param.provide abi mac apMac) kv p.key = kv p.key := by
  induction l generalizing kv with
  | nil => rfl
  | cons q l ih =>
    have hq := Param.provide_keeps h mac apMac q
    rw [List.foldl_cons, ih (mt (Param.unset_congr abi hq).mp h), hq]

theorem systemParameterInit_keeps {kv : KvMap} {p : Param} (h : ¬ p.Unset abi kv) (mac apMac : Bytes) :
    (systemParameterInit abi mac apMac kv).2 p.key = kv p.key := by
  rw [systemParameterInit_eq]
  exact Param.foldl_provide_keeps mac apMac _ h

/-! ### Runs -/

def Call.run (kv : KvMap) : Call abi → KvMap
  | .set c => (c.run kv).2
  | .init mac apMac => (systemParameterInit abi mac.1 apMac.1 kv).2

def run (calls : List (Call abi)) (kv : KvMap) : KvMap := calls.foldl Call.run kv

theorem run_append (before after : List (Call abi)) (kv : KvMap) :
    run (before ++ after) kv = run after (run before kv) := List.foldl_append

/-- A call that does not set the parameter of `c` leaves the bytes of `c` where they are. -/
theorem Call.run_stored {c : Setter abi} {kv : KvMap} (h : kv c.param.key = some c.value) (a : Call abi)
    (ha : ∀ c', a = .set c' → c'.param ≠ c.param) : a.run kv c.param.key = some c.value := by
  cases a with
  | set c' =>
    have hne : c.param.key ≠ c'.param.key := fun hk => ha c' rfl (Param.key_injective hk).symm
    rw [Call.run, Setter.run_eq]
    exact (Function.update_of_ne hne _ _).trans h
  | init mac apMac =>
    rw [Call.run, systemParameterInit_keeps (c.not_unset h), h]

theorem run_stored {c : Setter abi} (after : List (Call abi))
    (hlast : ∀ c', .set c' ∈ after → c'.param ≠ c.param) {kv : KvMap}
    (h : kv c.param.key = some c.value) : run after kv c.param.key = some c.value := by
  induction after generalizing kv with
  | nil => exact h
  | cons a after ih =>
    have ha := a.run_stored h fun c' hc' => hlast c' (hc' ▸ List.mem_cons_self)
    exact ih (fun c' hc' => hlast c' (List.mem_cons_of_mem a hc')) ha

/-- After every run from any store: the getter of a parameter returns what the last of its
setters set, a host name exactly if the caller's buffer has a zero right behind the name
before the call; no setter changes what the getter of another parameter returns; and
start-up leaves alone what was set. -/
theorem parameters_roundTrip_iff (kv : KvMap) (before after : List (Call abi)) (c : Setter abi)
    (buf : Image (c.param.bufLen abi)) (hlast : ∀ c', .set c' ∈ after → c'.param ≠ c.param) :
    (c.Reads buf (run (before ++ .set c :: after) kv) ↔ c.Terminated buf) ∧
    (∀ p ≠ c.param, ∀ b, p.get abi b (run (before ++ [.set c]) kv) = p.get abi b (run before kv)) ∧
    ∀ mac apMac b, c.param.get abi b (run (before ++ .set c :: after ++ [.init mac apMac]) kv)
      = c.param.get abi b (run (before ++ .set c :: after) kv) := by
  have hset (kv : KvMap) : (Call.set c).run kv c.param.key = some c.value := by
    rw [Call.run, Setter.run_eq]
    exact Function.update_self _ _ _
  have hstored : run (before ++ .set c :: after) kv c.param.key = some c.value := by
    rw [run_append]
    exact run_stored after hlast (hset _)
  refine ⟨c.reads_iff hstored buf, ?_, ?_⟩
  · intro p hp b
    apply Param.get_congr
    rw [run_append]
    show (c.run _).2 p.key = _
    rw [Setter.run_eq]
    exact Function.update_of_ne (fun hk => hp (Param.key_injective hk)) _ _
  · intro mac apMac b
    apply Param.get_congr
    rw [run_append]
    exact systemParameterInit_keeps (c.not_unset hstored) mac.1 apMac.1

def byteEnums : Abi := ⟨1, by decide⟩

/-- `"ab"`. -/
def shortName : HostName := ⟨[0x61, 0x62], by decide, by decide, by decide⟩

/-- `"bedrooms"`. -/
def longName : HostName :=
  ⟨[0x62, 0x65, 0x64, 0x72, 0x6F, 0x6F, 0x6D, 0x73], by decide, by decide, by decide⟩

def renamedCalls : List (Call byteEnums) :=
  [.set (.hostname .ap longName), .init ⟨zeros 6, rfl⟩ ⟨zeros 6, rfl⟩]

/-- The station's name is read into a clear buffer after the access point was named and
the device restarted. -/
theorem parameters_roundTrip_shortName :
    Setter.Reads (zeros 9)
      (run ([] ++ .set (.hostname .sta shortName) :: renamedCalls) fun _ => none)
      (.hostname .sta shortName : Setter byteEnums) := by
  refine (parameters_roundTrip_iff (fun _ => none) [] renamedCalls (.hostname .sta shortName)
    ⟨zeros 9, rfl⟩ ?_).1.mpr (show _ = _ by decide)
  intro c' hc'
  simp only [renamedCalls, List.mem_cons, Call.set.injEq, reduceCtorEq, List.not_mem_nil,
    or_false] at hc'
  rw [hc']
  decide

/-- A name of eight bytes and then one of two are set and read into the same buffer, which
was clear at first: the second call leaves `"abdrooms"` there. -/
theorem reused_buffer_not_roundTrip :
    let long : Setter byteEnums := .hostname .sta longName
    let short : Setter byteEnums := .hostname .sta shortName
    let buf := (systemParameterGetHostname .stationIf (run [.set long] fun _ => none) (zeros 9)).2
    ¬ short.Reads buf (run [.set long, .set short] fun _ => none) := by
  rintro long short buf ⟨-, rest, h⟩
  have hbuf : (systemParameterGetHostname .stationIf (run [.set long, .set short] fun _ => none) buf).2
      = [0x61, 0x62, 0x64, 0x72, 0x6F, 0x6F, 0x6D, 0x73, 0] := by decide
  have hget := hbuf.symm.trans h
  simp [shortName] at hget

end Ln882x.Sysparam
