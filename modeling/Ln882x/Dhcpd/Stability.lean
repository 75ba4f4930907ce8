import Ln882x.Dhcpd.Lease
import Mathlib.Data.Finset.Card
import Mathlib.Data.List.Dedup

/-! Stability of the addresses. While no more clients talk to the server than
it has entries, a new client always finds an entry that no client was ever
bound to. So no binding is taken over, and each client keeps the address of its
first offer. -/

namespace Ln882x.Dhcpd

variable {S : Finset Mac} {c c' : Ctrl} {req : Request} {reqs : List Request} {m m' : Mac} {a b : Ip} {o : Option Reply}
  {r : Reply}

/-! ### Bindings -/

/-- The client is bound to the address. -/
def Bound (c : Ctrl) (m : Mac) (a : Ip) : Prop := ∃ (i : ℕ) (x : IpItem), c.items[i]? = some x ∧ x.mac = m ∧ x.ip = a

theorem Sound.bound_ip (h : Sound c) (hm : m ≠ zeroMac) (ha : Bound c m a) (hb : Bound c m b) : a = b := by
  obtain ⟨i, x, hx, hxm, rfl⟩ := ha
  obtain ⟨j, y, hy, hym, rfl⟩ := hb
  have hij : i = j := h.macs i j x y hx hy (hxm.trans hym.symm) (by rw [hxm]; exact hm)
  subst hij
  rw [hx] at hy
  rw [Option.some.inj hy]

theorem Sound.bound_mac (h : Sound c) (ha : Bound c m a) (hb : Bound c m' a) : m = m' := by
  obtain ⟨i, x, hx, rfl, hxa⟩ := ha
  obtain ⟨j, y, hy, rfl, hya⟩ := hb
  have hij : i = j := h.ip_inj hx hy (hxa.trans hya.symm)
  subst hij
  rw [hx] at hy
  rw [Option.some.inj hy]

/-! ### Room for every client -/

/-- The state of a server that has an entry for each of its clients. -/
structure Roomy (S : Finset Mac) (c : Ctrl) : Prop extends Sound c where
  room : S.card ≤ c.items.length
  clients : ∀ x ∈ c.items, x.mac = zeroMac ∨ x.mac ∈ S
  unused : ∀ x ∈ c.items, x.mac = zeroMac → x.allocted = false

/-- A client without an entry finds one that was never bound. -/
theorem Roomy.exists_unused (h : Roomy S c) (hm : m ∈ S) (hno : ∀ x ∈ c.items, x.mac ≠ m) :
    ∃ x ∈ c.items, unusedItem x = true := by
  by_contra hall
  have hzero : ∀ x ∈ c.items, x.mac ≠ zeroMac := by
    intro x hx hxz
    apply hall
    refine ⟨x, hx, ?_⟩
    rw [unusedItem, h.unused x hx hxz, isMacAllZero, hxz]
    simp
  -- all entries are bound, to different clients other than this one
  have hnodup : (c.items.map IpItem.mac).Nodup := by
    rw [List.nodup_iff_pairwise_ne, List.pairwise_iff_getElem]
    intro i j hi hj hij heq
    rw [List.length_map] at hi hj
    rw [List.getElem_map, List.getElem_map] at heq
    have := h.macs i j _ _ (List.getElem?_eq_getElem hi) (List.getElem?_eq_getElem hj) heq
      (hzero _ (List.getElem_mem hi))
    omega
  have hsub : (c.items.map IpItem.mac).toFinset ⊆ S.erase m := by
    intro k hk
    rw [List.mem_toFinset, List.mem_map] at hk
    obtain ⟨x, hx, rfl⟩ := hk
    exact Finset.mem_erase.mpr ⟨hno x hx, (h.clients x hx).resolve_left (hzero x hx)⟩
  have hcard := Finset.card_le_card hsub
  rw [List.toFinset_card_of_nodup hnodup, List.length_map] at hcard
  have hlt := Finset.card_erase_lt_of_mem hm
  have := h.room
  omega

/-- A message the server answers: a discover or inform message, or a request for some address. -/
def Request.Valid (req : Request) : Prop :=
  req.mac ≠ zeroMac ∧ (req.msgType = .discover ∨ req.msgType = .inform ∨
    req.msgType = .request ∧ confirmIpaddr req ≠ none)

/-- How a message is handled if there is room: the entry is the client's or was never bound. -/
structure Seated (c : Ctrl) (req : Request) (c' : Ctrl) (r : Reply) (i : ℕ) (item : IpItem) (al : Bool) : Prop where
  usable : Usable c.items req.mac i item
  answer : Answer req item r.msgType al
  items : c'.items = c.items.set i ⟨al, req.mac, item.ip⟩
  mac : r.mac = req.mac
  yiaddr : r.msgType ≠ .nak → r.yiaddr = item.ip
  own : item.mac ≠ req.mac → item.mac = zeroMac

theorem Roomy.seated (h : Roomy S c) (hv : req.Valid) (hm : req.mac ∈ S) (hh : Handled c req c' o) :
    ∃ r i item al, o = some r ∧ Seated c req c' r i item al := by
  cases hh with
  | ignored hno =>
    obtain ⟨h1, h2, h3⟩ := hno
    rcases hv.2 with h | h | ⟨h, hc⟩
    · exact absurd h h1
    · exact absurd h h2
    · exact absurd (h3 h) hc
  | full hno hall =>
    obtain ⟨x, hx, hux⟩ := h.exists_unused hm hno
    rw [unusedItem, hall x hx] at hux
    contradiction
  | @bound _ i item t al r hu ha _ hset ht hmac hip =>
    subst ht
    refine ⟨r, i, item, al, rfl, hu, ha, hset, hmac, hip, fun hne => ?_⟩
    have hold := hu.old hne
    have hun := hold.2.2 (h.exists_unused hm hold.1)
    simp only [unusedItem, isMacAllZero, Bool.and_eq_true, decide_eq_true_eq] at hun
    exact hun.2

variable {i : ℕ} {item : IpItem} {al : Bool}

theorem Seated.bound (hs : Seated c req c' r i item al) : Bound c' req.mac item.ip := by
  refine ⟨i, ⟨al, req.mac, item.ip⟩, ?_, rfl, rfl⟩
  rw [hs.items, List.getElem?_set_self hs.usable.lt]

/-- No binding is taken over. -/
theorem Seated.keeps (hs : Seated c req c' r i item al) (hm : m ≠ zeroMac) (hb : Bound c m a) : Bound c' m a := by
  obtain ⟨j, x, hx, hxm, hxa⟩ := hb
  by_cases hij : i = j
  · subst hij
    rw [hs.usable.get] at hx
    obtain rfl := Option.some.inj hx
    have hreq : item.mac = req.mac := by
      by_contra hne
      exact hm (hxm.symm.trans (hs.own hne))
    rw [← hxm, ← hxa, hreq]
    exact hs.bound
  · refine ⟨j, x, ?_, hxm, hxa⟩
    rw [hs.items, List.getElem?_set_ne hij]
    exact hx

theorem Roomy.handled (h : Roomy S c) (hm : req.mac ∈ S) (hz : req.mac ≠ zeroMac) (hh : Handled c req c' o) :
    Roomy S c' := by
  have hsound := hh.sound h.toSound
  cases hh with
  | ignored => exact h
  | full => exact h
  | @bound _ i item t al r hu ha _ hset ht hmac hip =>
    have hmem : ∀ x ∈ c'.items, x ∈ c.items ∨ x = ⟨al, req.mac, item.ip⟩ := by
      intro x hx
      rw [hset] at hx
      exact List.mem_or_eq_of_mem_set hx
    refine ⟨hsound, ?_, fun x hx => ?_, fun x hx hxz => ?_⟩
    · rw [hset, List.length_set]
      exact h.room
    · rcases hmem x hx with hx | rfl
      · exact h.clients x hx
      · exact .inr hm
    · rcases hmem x hx with hx | rfl
      · exact h.unused x hx hxz
      · exact absurd hxz hz

/-- A bound client that asks for its address gets it. -/
theorem Seated.ack (hs : Seated c req c' r i item al) (h : Sound c) (hz : req.mac ≠ zeroMac) (hb : Bound c req.mac a)
    (ht : req.msgType = .request) (hc : confirmIpaddr req = some a) : r.msgType = .ack ∧ r.yiaddr = a := by
  have hip : item.ip = a := by
    obtain ⟨j, x, hx, hxm, -⟩ := id hb
    have hown : item.mac = req.mac := by
      by_contra hne
      exact (hs.usable.old hne).1 x (List.mem_of_getElem? hx) hxm
    exact h.bound_ip hz ⟨i, item, hs.usable.get, hown, rfl⟩ hb
  obtain ⟨t, ht'⟩ : ∃ t, r.msgType = t := ⟨_, rfl⟩
  have ha := hs.answer
  have hy := hs.yiaddr
  rw [ht'] at ha hy ⊢
  cases ha with
  | offer hd => rw [ht] at hd; contradiction
  | inform hd => rw [ht] at hd; contradiction
  | ack => exact ⟨rfl, (hy (by decide)).trans hip⟩
  | nak _ hc' hne =>
    rw [hc] at hc'
    exact absurd ((Option.some.inj hc').symm.trans hip.symm) hne

/-! ### Runs -/

theorem serve_getElem (c : Ctrl) (reqs : List Request) (j : ℕ) :
    (serve c reqs)[j]? = reqs[j]?.map fun req => (dhcpdDispatch (serveState c (reqs.take j)) req).2 := by
  induction reqs generalizing c j with
  | nil => simp [serve]
  | cons req reqs ih =>
    cases j with
    | zero => simp [serve, serveState]
    | succ j => simp [serve, serveState, ih]

theorem serveState_append (c : Ctrl) (l l' : List Request) :
    serveState c (l ++ l') = serveState (serveState c l) l' := by
  induction l generalizing c with
  | nil => rfl
  | cons req l ih => exact ih _

theorem Roomy.run (h : Roomy S c) (hv : ∀ req ∈ reqs, req.Valid ∧ req.mac ∈ S) : Roomy S (serveState c reqs) := by
  induction reqs generalizing c with
  | nil => exact h
  | cons req reqs ih =>
    obtain ⟨hreq, hmem⟩ := hv req (by simp)
    have hh := dhcpdDispatch_spec h.macs hreq.1
    exact ih (h.handled hmem hreq.1 hh) fun x hx => hv x (by simp [hx])

theorem Roomy.run_take (h : Roomy S c) (hv : ∀ req ∈ reqs, req.Valid ∧ req.mac ∈ S) (j : ℕ) :
    Roomy S (serveState c (reqs.take j)) := by
  apply h.run
  intro req hreq
  exact hv req (List.mem_of_mem_take hreq)

theorem Roomy.run_keeps (h : Roomy S c) (hv : ∀ req ∈ reqs, req.Valid ∧ req.mac ∈ S) (hm : m ≠ zeroMac)
    (hb : Bound c m a) : Bound (serveState c reqs) m a := by
  induction reqs generalizing c with
  | nil => exact hb
  | cons req reqs ih =>
    obtain ⟨hreq, hmem⟩ := hv req (by simp)
    have hh := dhcpdDispatch_spec h.macs hreq.1
    obtain ⟨r, i, item, al, -, hs⟩ := h.seated hreq hmem hh
    exact ih (h.handled hmem hreq.1 hh) (fun x hx => hv x (by simp [hx])) (hs.keeps hm hb)

/-- What the clients see of a run. -/
structure Stable (reqs : List Request) (answers : List (Option Reply)) : Prop where
  answered : ∀ (i : ℕ) (req : Request), reqs[i]? = some req → ∃ r, answers[i]? = some (some r) ∧ r.mac = req.mac
  same : ∀ (i j : ℕ) (r r' : Reply), answers[i]? = some (some r) → answers[j]? = some (some r') →
    r.msgType ≠ .nak → r'.msgType ≠ .nak → r.mac = r'.mac → r.yiaddr = r'.yiaddr
  distinct : ∀ (i j : ℕ) (r r' : Reply), answers[i]? = some (some r) → answers[j]? = some (some r') →
    r.msgType ≠ .nak → r'.msgType ≠ .nak → r.mac ≠ r'.mac → r.yiaddr ≠ r'.yiaddr
  acked : ∀ (i j : ℕ) (r : Reply) (req : Request), i < j → answers[i]? = some (some r) → r.msgType = .offer →
    reqs[j]? = some req → req.mac = r.mac → req.msgType = .request → confirmIpaddr req = some r.yiaddr →
    ∃ r', answers[j]? = some (some r') ∧ r'.msgType = .ack ∧ r'.yiaddr = r.yiaddr

/-- One message of a run. -/
theorem Roomy.at (h : Roomy S c) (hv : ∀ req ∈ reqs, req.Valid ∧ req.mac ∈ S) {j : ℕ} (hj : reqs[j]? = some req) :
    ∃ r i item al, (serve c reqs)[j]? = some (some r) ∧
      Seated (serveState c (reqs.take j)) req (serveState c (reqs.take (j + 1))) r i item al := by
  have hpre := h.run_take hv j
  obtain ⟨hreq, hmem⟩ := hv req (List.mem_of_getElem? hj)
  obtain ⟨r, i, item, al, ho, hs⟩ := hpre.seated hreq hmem (dhcpdDispatch_spec hpre.macs hreq.1)
  refine ⟨r, i, item, al, ?_, ?_⟩
  · rw [serve_getElem, hj, Option.map_some, ho]
  · rw [List.take_add_one, hj, Option.toList_some, serveState_append]
    exact hs

/-- An answer with an address leaves its client bound, as long as the run goes on. -/
theorem Roomy.answer_bound (h : Roomy S c) (hv : ∀ req ∈ reqs, req.Valid ∧ req.mac ∈ S) {j k : ℕ}
    (hj : (serve c reqs)[j]? = some (some r)) (hr : r.msgType ≠ .nak) (hjk : j < k) :
    r.mac ≠ zeroMac ∧ Bound (serveState c (reqs.take k)) r.mac r.yiaddr := by
  obtain ⟨req, hreq⟩ : ∃ req, reqs[j]? = some req := by
    rw [serve_getElem] at hj
    cases hreq : reqs[j]? with
    | none => rw [hreq] at hj; contradiction
    | some req => exact ⟨req, rfl⟩
  obtain ⟨r', i, item, al, hj', hs⟩ := h.at hv hreq
  rw [hj] at hj'
  obtain rfl := Option.some.inj (Option.some.inj hj')
  have hz := (hv req (List.mem_of_getElem? hreq)).1.1
  rw [hs.mac, hs.yiaddr hr]
  refine ⟨hz, ?_⟩
  have hsplit : reqs.take k = reqs.take (j + 1) ++ (reqs.take k).drop (j + 1) := by
    have htake := List.take_append_drop (j + 1) (reqs.take k)
    rw [List.take_take, Nat.min_eq_left (by omega)] at htake
    exact htake.symm
  rw [hsplit, serveState_append]
  have hnext := h.run_take hv (j + 1)
  refine hnext.run_keeps (fun x hx => hv x ?_) hz hs.bound
  exact List.mem_of_mem_take (List.mem_of_mem_drop hx)

theorem Roomy.stable (h : Roomy S c) (hv : ∀ req ∈ reqs, req.Valid ∧ req.mac ∈ S) : Stable reqs (serve c reqs) := by
  have hend : ∀ (i j : ℕ) (r r' : Reply), (serve c reqs)[i]? = some (some r) → (serve c reqs)[j]? = some (some r') →
      r.msgType ≠ .nak → r'.msgType ≠ .nak → r.mac ≠ zeroMac ∧ ∃ s, Sound s ∧ Bound s r.mac r.yiaddr ∧ Bound s r'.mac r'.yiaddr := by
    intro i j r r' hi hj hr hr'
    have hb := h.answer_bound hv hi hr (by omega : i < i + j + 1)
    have hb' := h.answer_bound hv hj hr' (by omega : j < i + j + 1)
    have hs := h.run_take hv (i + j + 1)
    exact ⟨hb.1, _, hs.toSound, hb.2, hb'.2⟩
  constructor
  · intro i req hi
    obtain ⟨r, _, _, _, hr, hs⟩ := h.at hv hi
    exact ⟨r, hr, hs.mac⟩
  · intro i j r r' hi hj hr hr' hmac
    obtain ⟨hz, s, hs, hb, hb'⟩ := hend i j r r' hi hj hr hr'
    rw [← hmac] at hb'
    exact hs.bound_ip hz hb hb'
  · intro i j r r' hi hj hr hr' hmac hip
    obtain ⟨-, s, hs, hb, hb'⟩ := hend i j r r' hi hj hr hr'
    rw [← hip] at hb'
    exact hmac (hs.bound_mac hb hb')
  · intro i j r req hij hi hr hj hmac ht hc
    obtain ⟨hz, hb⟩ := h.answer_bound hv hi (by rw [hr]; decide) hij
    rw [← hmac] at hz hb
    obtain ⟨r', _, _, _, hr', hs⟩ := h.at hv hj
    have hpre := h.run_take hv j
    obtain ⟨hack, hy⟩ := hs.ack hpre.toSound hz hb ht hc
    exact ⟨r', hr', hack, hy⟩

/-! ### The start -/

theorem dhcpdStart_items (cfg : ServerConfig) (pool : List IpItem) (i : ℕ) :
    (dhcpdStart cfg pool).items[i]? = ((active cfg.clientMax pool)[i]?).map fun item =>
      { item with
        allocted := false
        ip := cfg.server.withHost (cfg.ipStart.host + UInt8.ofNat i) } := by
  simp only [Ctrl.items, dhcpdStart, active, List.getElem?_take, List.getElem?_mapIdx]
  split_ifs with hi
  · rfl
  · rfl

theorem dhcpdStart_nodup (cfg : ServerConfig) (pool : List IpItem) :
    ((dhcpdStart cfg pool).items.map IpItem.ip).Nodup := by
  rw [List.nodup_iff_pairwise_ne, List.pairwise_iff_getElem]
  intro i j hi hj hij heq
  have hlen : (dhcpdStart cfg pool).items.length ≤ 4 := by
    simp only [Ctrl.items, active, dhcpdIpPoolSize, List.length_take]
    omega
  rw [List.length_map] at hi hj
  have hget : ∀ (k : ℕ) (hk : k < (dhcpdStart cfg pool).items.length),
      ((dhcpdStart cfg pool).items[k]).ip[3] = cfg.ipStart[3] + UInt8.ofNat k := by
    intro k hk
    have hitem := dhcpdStart_items cfg pool k
    rw [List.getElem?_eq_getElem hk] at hitem
    obtain ⟨x, -, hx⟩ := Option.map_eq_some_iff.mp hitem.symm
    rw [← hx]
    rfl
  rw [List.getElem_map, List.getElem_map] at heq
  have h3 := hget i hi
  rw [heq, hget j hj] at h3
  have hn := congrArg UInt8.toNat ((UInt8.add_right_inj _).mp h3)
  rw [UInt8.toNat_ofNat', UInt8.toNat_ofNat'] at hn
  omega

theorem roomy_dhcpdStart (cfg : ServerConfig) (pool : List IpItem) (hlen : pool.length = dhcpdIpPoolSize)
    (hmac : ∀ x ∈ active cfg.clientMax pool, x.mac = zeroMac) (hS : S.card ≤ min dhcpdIpPoolSize cfg.clientMax) :
    Roomy S (dhcpdStart cfg pool) := by
  have hmem : ∀ x ∈ (dhcpdStart cfg pool).items, x.mac = zeroMac ∧ x.allocted = false := by
    intro x hx
    obtain ⟨i, hi⟩ := List.mem_iff_getElem?.mp hx
    rw [dhcpdStart_items] at hi
    obtain ⟨y, hy, rfl⟩ := Option.map_eq_some_iff.mp hi
    exact ⟨hmac y (List.mem_of_getElem? hy), rfl⟩
  refine ⟨⟨macsDistinct_of_zero fun x hx => (hmem x hx).1, dhcpdStart_nodup cfg pool⟩, ?_, ?_, ?_⟩
  · have hitems : (dhcpdStart cfg pool).items.length = min dhcpdIpPoolSize cfg.clientMax := by
      simp only [Ctrl.items, active, dhcpdStart, List.length_take, List.length_mapIdx, hlen]
      omega
    omega
  · exact fun x hx => .inl (hmem x hx).1
  · exact fun x hx _ => (hmem x hx).2

/-- From a start with zeroed entries, with at most as many clients as the server has entries:
every message is answered, each client sees one address, two clients see two, and a request
for an offered address is acknowledged. -/
theorem addresses_stable (cfg : ServerConfig) (pool : List IpItem) (reqs : List Request)
    (hlen : pool.length = dhcpdIpPoolSize) (hmac : ∀ x ∈ active cfg.clientMax pool, x.mac = zeroMac)
    (hv : ∀ req ∈ reqs, req.Valid)
    (hclients : (reqs.map Request.mac).dedup.length ≤ min dhcpdIpPoolSize cfg.clientMax) :
    Stable reqs (serve (dhcpdStart cfg pool) reqs) := by
  have hroomy := roomy_dhcpdStart (S := (reqs.map Request.mac).toFinset) cfg pool hlen hmac
    (by rw [List.card_toFinset]; exact hclients)
  apply hroomy.stable
  intro req hreq
  exact ⟨hv req hreq, List.mem_toFinset.mpr (List.mem_map_of_mem hreq)⟩

/-- Two clients of a server with two entries; one of them is refused and asks again. -/
theorem addresses_stable_softAp :
    Stable [clientMsg .discover 1 none, clientMsg .inform 2 none, clientMsg .request 1 (some #v[192, 168, 4, 101]),
        clientMsg .request 1 (some #v[192, 168, 4, 100])]
      (serve (dhcpdStart { softApConfig with clientMax := 2 } ipPoolZero)
        [clientMsg .discover 1 none, clientMsg .inform 2 none, clientMsg .request 1 (some #v[192, 168, 4, 101]),
          clientMsg .request 1 (some #v[192, 168, 4, 100])]) := by
  refine addresses_stable _ ipPoolZero _ rfl (by decide) ?_ (by decide)
  simp only [List.forall_mem_cons, List.not_mem_nil, false_implies, implies_true, and_true]
  refine ⟨⟨by decide, .inl rfl⟩, ⟨by decide, .inr (.inl rfl)⟩, ⟨by decide, .inr (.inr ⟨rfl, by decide⟩)⟩,
    ⟨by decide, .inr (.inr ⟨rfl, by decide⟩)⟩⟩

end Ln882x.Dhcpd
