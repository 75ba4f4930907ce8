import Ln882x.Dhcpd.Stability

/-! Starting and stopping the server. `dhcpd_start` raises its flag before it looks
at the configuration, so every failure but the first leaves the server running in
name. The addresses of the pool take the network of the server and count up from the
last byte of `ip_start`; `ip_end` is never looked at. -/

namespace Ln882x.Dhcpd

/-- What `dhcpd_start` returns. -/
inductive DhcpdErr where
  | none | invalidParam | state | osService
  deriving DecidableEq

/-- `g_dhcpd_ctrl`, with the flag that `dhcpd_is_running` returns. -/
structure Daemon where
  flag : Bool
  ctrl : Ctrl
  deriving DecidableEq

def serverConfigZero : ServerConfig := ⟨zeroIp, 0, 0, 0, zeroIp, zeroIp, 0⟩

def Daemon.zero : Daemon := ⟨false, serverConfigZero, ipPoolZero⟩

/-- The whole of `dhcpd_start`, with the configuration that the system parameters hold and
whether the thread is created. -/
def dhcpdStartCall (d : Daemon) (cfg : ServerConfig) (created : Bool) : Daemon × DhcpdErr :=
  if d.flag then ({ d with ctrl := { d.ctrl with serverConfig := cfg } }, .state)
  else if cfg.server = zeroIp ∨ cfg.port = 0 ∨ cfg.lease = 0 ∨ cfg.renew = 0 then
    (⟨true, { d.ctrl with serverConfig := cfg }⟩, .invalidParam)
  else (⟨true, dhcpdStart cfg d.ctrl.ipPool⟩, if created then .none else .osService)

def dhcpdStop (d : Daemon) : Daemon := if d.flag then { d with flag := false } else d

def dhcpdIsRunning (d : Daemon) : Bool := d.flag

inductive DaemonCall where
  | start (cfg : ServerConfig) (created : Bool)
  | stop
  deriving DecidableEq

def DaemonCall.run : DaemonCall → Daemon → Daemon
  | .start cfg created, d => (dhcpdStartCall d cfg created).1
  | .stop, d => dhcpdStop d

/-- The server after a history of calls. -/
def afterDaemonCalls (calls : List DaemonCall) : Daemon := calls.foldl (fun d call => call.run d) Daemon.zero

/-! ### Addresses -/

def Daemon.poolIps (d : Daemon) : List Ip := d.ctrl.items.map IpItem.ip

def poolSize (cfg : ServerConfig) : ℕ := min dhcpdIpPoolSize cfg.clientMax

/-- A pool address lies between the limits and is no address that a client must not get. -/
structure FitForClient (cfg : ServerConfig) (ip : Ip) : Prop where
  start_le : cfg.ipStart.toNat ≤ ip.toNat
  le_end : ip.toNat ≤ cfg.ipEnd.toNat
  ne_server : ip ≠ cfg.server
  ne_network : ip ≠ cfg.server.withHost 0
  ne_broadcast : ip ≠ cfg.server.withHost 255

/-- What a start promises: good addresses on success, and no change of the flag on failure. -/
def StartSound (d : Daemon) (cfg : ServerConfig) (created : Bool) : Prop :=
  ((dhcpdStartCall d cfg created).2 = .none →
    (dhcpdStartCall d cfg created).1.poolIps.length = poolSize cfg ∧
    (dhcpdStartCall d cfg created).1.poolIps.Nodup ∧
    ∀ ip ∈ (dhcpdStartCall d cfg created).1.poolIps, FitForClient cfg ip) ∧
  ((dhcpdStartCall d cfg created).2 ≠ .none → (dhcpdStartCall d cfg created).2 ≠ .state →
    dhcpdIsRunning (dhcpdStartCall d cfg created).1 = dhcpdIsRunning d)

def Accepted (cfg : ServerConfig) : Prop := cfg.server ≠ zeroIp ∧ cfg.port ≠ 0 ∧ cfg.lease ≠ 0 ∧ cfg.renew ≠ 0

/-- The hosts counted up from `ip_start` stay in the network of the server, between the
limits, and pass over the server itself. -/
def RangeFits (cfg : ServerConfig) : Prop :=
  poolSize cfg = 0 ∨
    (cfg.ipStart.toNat ≤ (cfg.server.withHost cfg.ipStart.host).toNat ∧
      (cfg.server.withHost cfg.ipStart.host).toNat + poolSize cfg ≤ cfg.ipEnd.toNat + 1 ∧
      1 ≤ cfg.ipStart.host.toNat ∧ cfg.ipStart.host.toNat + poolSize cfg ≤ 255 ∧
      (cfg.server.host.toNat < cfg.ipStart.host.toNat ∨ cfg.ipStart.host.toNat + poolSize cfg ≤ cfg.server.host.toNat))

variable {d : Daemon} {cfg : ServerConfig}

theorem Ip.withHost_injective (ip : Ip) {x y : UInt8} (h : ip.withHost x = ip.withHost y) : x = y := by
  have h3 : (ip.withHost x)[3] = (ip.withHost y)[3] := by rw [h]
  exact h3

theorem Ip.toNat_withHost (ip : Ip) (x : UInt8) : (ip.withHost x).toNat = (ip.withHost 0).toNat + x.toNat := by
  have hvalue (y : UInt8) : (ip.withHost y).toNat =
      ((ip[0].toNat * 256 + ip[1].toNat) * 256 + ip[2].toNat) * 256 + y.toNat := rfl
  rw [hvalue, hvalue, UInt8.toNat_zero, Nat.add_zero]

theorem Ip.withHost_self (ip : Ip) : ip.withHost ip.host = ip := by
  apply Vector.ext
  intro i hi
  match i, hi with
  | 0, _ => rfl
  | 1, _ => rfl
  | 2, _ => rfl
  | 3, _ => rfl

/-! ### The pool -/

theorem afterDaemonCalls_pool (calls : List DaemonCall) (d : Daemon) :
    (calls.foldl (fun d call => call.run d) d).ctrl.ipPool.length = d.ctrl.ipPool.length := by
  induction calls generalizing d with
  | nil => rfl
  | cons call calls ih =>
    rw [List.foldl_cons, ih]
    cases call with
    | start cfg created =>
      show (dhcpdStartCall d cfg created).1.ctrl.ipPool.length = _
      unfold dhcpdStartCall
      split_ifs <;> first | rfl | exact List.length_mapIdx
    | stop =>
      show (dhcpdStop d).ctrl.ipPool.length = _
      unfold dhcpdStop
      split_ifs <;> rfl

theorem length_afterDaemonCalls (calls : List DaemonCall) :
    (afterDaemonCalls calls).ctrl.ipPool.length = dhcpdIpPoolSize := afterDaemonCalls_pool calls Daemon.zero

/-- The addresses of a pool of full length. -/
theorem poolIps_dhcpdStart (flag : Bool) {pool : List IpItem} (hlen : pool.length = dhcpdIpPoolSize) :
    (Daemon.mk flag (dhcpdStart cfg pool)).poolIps =
      (List.range (poolSize cfg)).map fun i => cfg.server.withHost (cfg.ipStart.host + UInt8.ofNat i) := by
  apply List.ext_getElem?
  intro i
  have hactive : (active cfg.clientMax pool).length = poolSize cfg := by
    rw [active, List.length_take, hlen, poolSize]
    omega
  rw [Daemon.poolIps, List.getElem?_map, dhcpdStart_items, List.getElem?_map, Option.map_map]
  by_cases hi : i < poolSize cfg
  · rw [List.getElem?_range hi, List.getElem?_eq_getElem (by rw [hactive]; exact hi)]
    rfl
  · rw [List.getElem?_eq_none (by rw [hactive]; omega), List.getElem?_eq_none (by rw [List.length_range]; omega)]
    rfl

theorem poolSize_le (cfg : ServerConfig) : poolSize cfg ≤ 4 := Nat.min_le_left 4 cfg.clientMax

theorem toNat_host {i : ℕ} (hi : i < 4) : (cfg.ipStart.host + UInt8.ofNat i).toNat = (cfg.ipStart.host.toNat + i) % 256 := by
  rw [UInt8.toNat_add, UInt8.toNat_ofNat', Nat.mod_eq_of_lt (a := i) (by omega)]

/-- The addresses are fit for clients exactly if the range fits. -/
theorem forall_fit_iff : (∀ i < poolSize cfg, FitForClient cfg (cfg.server.withHost (cfg.ipStart.host + UInt8.ofNat i))) ↔
    RangeFits cfg := by
  have hfour := poolSize_le cfg
  have hstart := cfg.ipStart.host.toNat_lt
  have hserver := cfg.server.host.toNat_lt
  have hbase := Ip.toNat_withHost cfg.server cfg.ipStart.host
  have hvalue (i : ℕ) := Ip.toNat_withHost cfg.server (cfg.ipStart.host + UInt8.ofNat i)
  have hself := Ip.withHost_self cfg.server
  constructor
  · intro h
    by_cases hzero : poolSize cfg = 0
    · exact .inl hzero
    -- a host number reached by the count is the host of an address of the pool
    have hreach {x : UInt8} (hle : cfg.ipStart.host.toNat ≤ x.toNat) (hlt : x.toNat < cfg.ipStart.host.toNat + poolSize cfg) :
        FitForClient cfg (cfg.server.withHost x) := by
      have hx := x.toNat_lt
      have heq : cfg.ipStart.host + UInt8.ofNat (x.toNat - cfg.ipStart.host.toNat) = x := by
        apply UInt8.toNat_inj.mp
        rw [toNat_host (by omega)]
        omega
      have hfit := h (x.toNat - cfg.ipStart.host.toNat) (by omega)
      rwa [heq] at hfit
    have hlow : 1 ≤ cfg.ipStart.host.toNat := by
      by_contra hnot
      exact (hreach (x := 0) (by omega) (by rw [UInt8.toNat_zero]; omega)).ne_network rfl
    have hhigh : cfg.ipStart.host.toNat + poolSize cfg ≤ 255 := by
      by_contra hnot
      have h255 : (255 : UInt8).toNat = 255 := rfl
      exact (hreach (x := 255) (by omega) (by omega)).ne_broadcast rfl
    have hother : cfg.server.host.toNat < cfg.ipStart.host.toNat ∨ cfg.ipStart.host.toNat + poolSize cfg ≤ cfg.server.host.toNat := by
      by_contra hnot
      exact (hreach (x := cfg.server.host) (by omega) (by omega)).ne_server hself
    have hfirst := (h 0 (by omega)).start_le
    have hlast := (h (poolSize cfg - 1) (by omega)).le_end
    rw [hvalue, toNat_host (by omega), Nat.mod_eq_of_lt (by omega)] at hfirst hlast
    exact .inr ⟨by omega, by omega, hlow, hhigh, hother⟩
  · rintro (hzero | ⟨hfirst, hlast, hlow, hhigh, hother⟩) i hi
    · omega
    have hnat : (cfg.ipStart.host + UInt8.ofNat i).toNat = cfg.ipStart.host.toNat + i := by
      rw [toNat_host (by omega), Nat.mod_eq_of_lt (by omega)]
    have hne {x : UInt8} (hx : x.toNat ≠ cfg.ipStart.host.toNat + i) :
        cfg.server.withHost (cfg.ipStart.host + UInt8.ofNat i) ≠ cfg.server.withHost x := by
      intro heq
      rw [← Ip.withHost_injective _ heq, hnat] at hx
      exact hx rfl
    refine ⟨by rw [hvalue, hnat]; omega, by rw [hvalue, hnat]; omega, ?_, hne ?_, hne ?_⟩
    · rw [← hself]
      exact hne (by omega)
    · rw [UInt8.toNat_zero]
      omega
    · have h255 : (255 : UInt8).toNat = 255 := rfl
      omega

/-! ### The start -/

/-- A start of a server at rest. -/
theorem startSound_iff (hlen : d.ctrl.ipPool.length = dhcpdIpPoolSize) (created : Bool) :
    StartSound d cfg created ↔ d.flag = true ∨ Accepted cfg ∧ created = true ∧ RangeFits cfg := by
  unfold StartSound
  cases hflag : d.flag with
  | true =>
    have hcall : (dhcpdStartCall d cfg created).2 = .state := by
      rw [dhcpdStartCall, if_pos hflag]
    rw [hcall]
    exact iff_of_true ⟨fun h => (nomatch h), fun _ h => absurd rfl h⟩ (.inl rfl)
  | false =>
    have hstart : ¬d.flag = true := by
      rw [hflag]
      exact Bool.false_ne_true
    by_cases hacc : Accepted cfg
    · have hparams : ¬(cfg.server = zeroIp ∨ cfg.port = 0 ∨ cfg.lease = 0 ∨ cfg.renew = 0) := by
        obtain ⟨h1, h2, h3, h4⟩ := hacc
        rintro (h | h | h | h)
        · exact h1 h
        · exact h2 h
        · exact h3 h
        · exact h4 h
      rw [dhcpdStartCall, if_neg hstart, if_neg hparams]
      cases created with
      | true =>
        have hips : (Daemon.mk true (dhcpdStart cfg d.ctrl.ipPool)).poolIps =
            (List.range (poolSize cfg)).map fun i => cfg.server.withHost (cfg.ipStart.host + UInt8.ofNat i) :=
          poolIps_dhcpdStart true hlen
        have hnodup : (Daemon.mk true (dhcpdStart cfg d.ctrl.ipPool)).poolIps.Nodup := dhcpdStart_nodup cfg d.ctrl.ipPool
        have hforall : (∀ ip ∈ (Daemon.mk true (dhcpdStart cfg d.ctrl.ipPool)).poolIps, FitForClient cfg ip) ↔ RangeFits cfg := by
          rw [hips, ← forall_fit_iff]
          simp only [List.forall_mem_map, List.mem_range]
        constructor
        · rintro ⟨hgood, -⟩
          exact .inr ⟨hacc, rfl, hforall.mp (hgood rfl).2.2⟩
        · rintro (h | ⟨-, -, hfits⟩)
          · cases h
          · refine ⟨fun _ => ⟨?_, hnodup, hforall.mpr hfits⟩, fun h => absurd rfl h⟩
            rw [hips, List.length_map, List.length_range]
      | false =>
        refine iff_of_false ?_ ?_
        · rintro ⟨-, hflagged⟩
          have h := hflagged (fun h => (nomatch h)) (fun h => (nomatch h))
          rw [dhcpdIsRunning, dhcpdIsRunning, hflag] at h
          cases h
        · rintro (h | ⟨-, h, -⟩) <;> cases h
    · have hparams : cfg.server = zeroIp ∨ cfg.port = 0 ∨ cfg.lease = 0 ∨ cfg.renew = 0 := by
        by_contra hnot
        simp only [not_or] at hnot
        exact hacc hnot
      rw [dhcpdStartCall, if_neg hstart, if_pos hparams]
      refine iff_of_false ?_ ?_
      · rintro ⟨-, hflagged⟩
        have h := hflagged (fun h => (nomatch h)) (fun h => (nomatch h))
        rw [dhcpdIsRunning, dhcpdIsRunning, hflag] at h
        cases h
      · rintro (h | ⟨h, -, -⟩)
        · cases h
        · exact hacc h

/-- After any history, a start keeps its promises exactly if the server runs already, or the
configuration is accepted, the thread is created and the range fits. -/
theorem start_sound_iff (calls : List DaemonCall) (cfg : ServerConfig) (created : Bool) :
    StartSound (afterDaemonCalls calls) cfg created ↔
      dhcpdIsRunning (afterDaemonCalls calls) = true ∨ Accepted cfg ∧ created = true ∧ RangeFits cfg :=
  startSound_iff (length_afterDaemonCalls calls) created

/-- A refused configuration leaves the server running in name, and a good one that comes
later is refused as well; a range that ends too early is handed out all the same. -/
theorem start_not_sound :
    ¬StartSound (afterDaemonCalls []) { softApConfig with port := 0 } true ∧
    (dhcpdStartCall (afterDaemonCalls [.start { softApConfig with port := 0 } true]) softApConfig true).2 = .state ∧
    ¬StartSound (afterDaemonCalls []) { softApConfig with ipEnd := #v[192, 168, 4, 101] } true := by
  refine ⟨?_, by decide, ?_⟩
  · rintro ⟨-, hflag⟩
    have hsame := hflag (by decide) (by decide)
    revert hsame
    decide
  · rintro ⟨hips, -⟩
    have hfit := (hips (by decide)).2.2 #v[192, 168, 4, 102] (by decide)
    have hle := hfit.le_end
    revert hle
    decide

end Ln882x.Dhcpd
