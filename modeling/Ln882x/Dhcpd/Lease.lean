import Ln882x.Dhcpd.Server

/-! Who holds which address. Every handler binds the client to one pool entry
and leaves the other entries alone; an entry that is allocated is bound to no
other client. An acknowledged request allocates the entry, an inform message
only names it. -/

namespace Ln882x.Dhcpd

variable {staAddr : Mac} {l : List IpItem} {c : Ctrl} {req : Request} {reqs : List Request} {m m' : Mac} {a : Ip}

/-! ### The search for an entry -/

/-- A candidate is kept, else the first later entry with the property. -/
def candidate (u : Option ℕ) (i : ℕ) (p : IpItem → Bool) (l : List IpItem) : Option ℕ :=
  u <|> (l.findIdx? p).map (i + ·)

theorem candidate_cons (u : Option ℕ) (i : ℕ) (p : IpItem → Bool) (item : IpItem) (l : List IpItem) :
    candidate (if u = none ∧ p item = true then some i else u) (i + 1) p l = candidate u i p (item :: l) := by
  unfold candidate
  rw [List.findIdx?_cons]
  cases u with
  | some k => simp
  | none =>
    cases hp : p item with
    | true => simp
    | false =>
      have hcomp : (fun k => i + k) ∘ (fun k => k + 1) = fun k => i + 1 + k := by
        funext k
        rw [Function.comp_apply]
        omega
      simp only [Bool.false_eq_true, and_false, if_false, Option.map_map, hcomp]

def unusedItem (item : IpItem) : Bool := !item.allocted && isMacAllZero item.mac

def freeItem (item : IpItem) : Bool := !item.allocted

theorem nextUsableLoop_eq (l : List IpItem) (i : ℕ) (u u2 : Option ℕ) : nextUsableLoop staAddr l i u u2 =
    match l.findIdx? fun item => item.mac = staAddr with
    | some k => .inl (i + k)
    | none => .inr (candidate u i unusedItem l, candidate u2 i freeItem l) := by
  induction l generalizing i u u2 with
  | nil => simp [nextUsableLoop, candidate]
  | cons item l ih =>
    unfold nextUsableLoop
    rw [List.findIdx?_cons]
    by_cases hmac : item.mac = staAddr
    · simp [hmac]
    · rw [if_neg hmac]
      have h1 : (if u = none ∧ item.allocted = false ∧ isMacAllZero item.mac = true then some i else u) =
          if u = none ∧ unusedItem item = true then some i else u := by simp [unusedItem]
      have h2 : (if u2 = none ∧ item.allocted = false then some i else u2) =
          if u2 = none ∧ freeItem item = true then some i else u2 := by simp [freeItem]
      rw [ih, h1, h2, candidate_cons, candidate_cons]
      cases hf : l.findIdx? fun item => decide (item.mac = staAddr) with
      | some k =>
        simp [hmac]
        omega
      | none => simp [hmac]

/-- What the chosen entry is. -/
structure Usable (l : List IpItem) (mac : Mac) (i : ℕ) (item : IpItem) : Prop where
  get : l[i]? = some item
  old : item.mac ≠ mac → (∀ x ∈ l, x.mac ≠ mac) ∧ item.allocted = false ∧
    ((∃ x ∈ l, unusedItem x = true) → unusedItem item = true)

theorem findIdx_get {p : IpItem → Bool} {k : ℕ} (h : l.findIdx? p = some k) : ∃ item, l[k]? = some item ∧ p item = true := by
  obtain ⟨hk, hp, -⟩ := List.findIdx?_eq_some_iff_getElem.mp h
  exact ⟨l[k], List.getElem?_eq_getElem hk, hp⟩

theorem getNextUsableIpItem_spec (n : ℕ) (pool : List IpItem) (mac : Mac) :
    (∃ i item, getNextUsableIpItem n pool mac = some i ∧ Usable (active n pool) mac i item) ∨
      getNextUsableIpItem n pool mac = none ∧ (∀ x ∈ active n pool, x.mac ≠ mac) ∧
        ∀ x ∈ active n pool, x.allocted = true := by
  unfold getNextUsableIpItem
  rw [nextUsableLoop_eq]
  cases hmac : (active n pool).findIdx? fun item => decide (item.mac = mac) with
  | some k =>
    obtain ⟨item, hget, hp⟩ := findIdx_get hmac
    refine .inl ⟨k, item, by simp, hget, fun hne => absurd (by simpa using hp) hne⟩
  | none =>
    have hno : ∀ x ∈ active n pool, x.mac ≠ mac := by simpa using hmac
    have hcand : ∀ p, candidate none 0 p (active n pool) = (active n pool).findIdx? p := by
      intro p
      simp [candidate]
    simp only [hcand]
    cases hu : (active n pool).findIdx? unusedItem with
    | some k =>
      obtain ⟨item, hget, hp⟩ := findIdx_get hu
      refine .inl ⟨k, item, by simp, hget, fun _ => ⟨hno, ?_, fun _ => hp⟩⟩
      simp only [unusedItem, Bool.and_eq_true, Bool.not_eq_true'] at hp
      exact hp.1
    | none =>
      have hnu : ∀ x ∈ active n pool, unusedItem x = false := by simpa using hu
      cases hf : (active n pool).findIdx? freeItem with
      | some k =>
        obtain ⟨item, hget, hp⟩ := findIdx_get hf
        refine .inl ⟨k, item, by simp, hget, fun _ => ⟨hno, by simpa [freeItem] using hp, ?_⟩⟩
        rintro ⟨x, hx, hux⟩
        rw [hnu x hx] at hux
        contradiction
      | none =>
        refine .inr ⟨by simp, hno, ?_⟩
        simpa [freeItem] using hf

/-! ### One message -/

/-- The entries that the server uses. -/
def Ctrl.items (c : Ctrl) : List IpItem := active c.serverConfig.clientMax c.ipPool

/-- No two entries are bound to the same client. -/
def MacsDistinct (l : List IpItem) : Prop :=
  ∀ (i j : ℕ) (x y : IpItem), l[i]? = some x → l[j]? = some y → x.mac = y.mac → x.mac ≠ zeroMac → i = j

/-- The type of the answer and whether the entry is allocated after it. -/
inductive Answer (req : Request) (item : IpItem) : MsgType → Bool → Prop
  | offer : req.msgType = .discover → Answer req item .offer item.allocted
  | inform : req.msgType = .inform → Answer req item .ack item.allocted
  | ack : req.msgType = .request → confirmIpaddr req = some item.ip → Answer req item .ack true
  | nak {ip : Ip} : req.msgType = .request → confirmIpaddr req = some ip → ip ≠ item.ip → Answer req item .nak false

/-- How a message is handled: it is none of the three, or no entry is left, or the client gets
an entry and an answer. -/
inductive Handled (c : Ctrl) (req : Request) : Ctrl → Option Reply → Prop
  | ignored : (req.msgType ≠ .discover ∧ req.msgType ≠ .inform ∧
      (req.msgType = .request → confirmIpaddr req = none)) → Handled c req c none
  | full : (∀ x ∈ c.items, x.mac ≠ req.mac) → (∀ x ∈ c.items, x.allocted = true) → Handled c req c none
  | bound {c' : Ctrl} {i : ℕ} {item : IpItem} {t : MsgType} {al : Bool} {r : Reply} : Usable c.items req.mac i item →
      Answer req item t al → c'.serverConfig = c.serverConfig → c'.items = c.items.set i ⟨al, req.mac, item.ip⟩ →
      r.msgType = t → r.mac = req.mac → (t ≠ .nak → r.yiaddr = item.ip) → Handled c req c' (some r)

theorem Usable.lt {i : ℕ} {item : IpItem} (h : Usable l m i item) : i < l.length :=
  (List.getElem?_eq_some_iff.mp h.get).1

theorem items_set (c : Ctrl) (i : ℕ) (x : IpItem) : ({ c with ipPool := c.ipPool.set i x } : Ctrl).items = c.items.set i x :=
  List.take_set

theorem sendPktLen_leaseReply (cfg : ServerConfig) (req : Request) (t : MsgType) (ip : Ip) :
    (leaseReply cfg req t ip).sendPktLen = 304 := by
  simp only [Reply.sendPktLen, leaseReply, mkReply, leaseOptions, hostNameOption, ReplyOption.size, List.map_append, List.map_cons,
    List.map_nil, List.sum_append, List.sum_cons, List.sum_nil]
  decide

theorem checked_leaseReply (cfg : ServerConfig) (req : Request) (t : MsgType) (ip : Ip) :
    checked (leaseReply cfg req t ip) = some (leaseReply cfg req t ip) := by
  rw [checked, sendPktLen_leaseReply]
  rfl

theorem sendPktLen_nakReply (cfg : ServerConfig) (req : Request) : (nakReply cfg req).sendPktLen = 268 := by
  simp only [Reply.sendPktLen, nakReply, mkReply, hostNameOption, ReplyOption.size, List.map_cons, List.map_nil,
    List.sum_cons, List.sum_nil]
  decide

theorem checked_nakReply (cfg : ServerConfig) (req : Request) :
    checked (nakReply cfg req) = some (nakReply cfg req) := by
  rw [checked, sendPktLen_nakReply]
  rfl

/-- An allocation binds the client to a usable entry, unless there is none. -/
theorem dhcpdIpAllocate_spec (c : Ctrl) (mac : Mac) (pre : Bool) :
    (∃ i item, Usable c.items mac i item ∧
      dhcpdIpAllocate c.serverConfig.clientMax c.ipPool mac pre =
        some (item.ip, c.ipPool.set i ⟨item.allocted || pre, mac, item.ip⟩)) ∨
      dhcpdIpAllocate c.serverConfig.clientMax c.ipPool mac pre = none ∧ (∀ x ∈ c.items, x.mac ≠ mac) ∧
        ∀ x ∈ c.items, x.allocted = true := by
  unfold dhcpdIpAllocate
  rcases getNextUsableIpItem_spec c.serverConfig.clientMax c.ipPool mac with ⟨i, item, hi, hu⟩ | ⟨hn, h1, h2⟩
  · have hget : c.ipPool[i]? = some item := by
      have hg := hu.get
      rw [active, List.getElem?_take] at hg
      split_ifs at hg
      exact hg
    refine .inl ⟨i, item, hu, ?_⟩
    simp [hi, hget]
  · refine .inr ⟨?_, h1, h2⟩
    simp [hn]

theorem MacsDistinct.set (h : MacsDistinct l) {i : ℕ} {item : IpItem} (hu : Usable l m i item) (al : Bool) :
    MacsDistinct (l.set i ⟨al, m, item.ip⟩) := by
  have hother : ∀ (j : ℕ) (x : IpItem), j ≠ i → l[j]? = some x → x.mac = m → m ≠ zeroMac → False := by
    intro j x hj hx hxm hm
    by_cases hi : item.mac = m
    · exact hj (h j i x item hx hu.get (hxm.trans hi.symm) (by rw [hxm]; exact hm))
    · exact (hu.old hi).1 x (List.mem_of_getElem? hx) hxm
  intro j k x y hx hy hxy hne
  rw [List.getElem?_set] at hx hy
  split_ifs at hx hy with hij hlt hik hik
  · exact hij.symm.trans hik
  · simp only [Option.some.injEq] at hx
    subst hx
    exact (hother k y (Ne.symm hik) hy hxy.symm hne).elim
  · simp only [Option.some.injEq] at hy
    subst hy
    exact (hother j x (Ne.symm hij) hx hxy fun hm => hne (hxy.trans hm)).elim
  · exact h j k x y hx hy hxy hne

/-- The entry just bound is the one that is released. -/
theorem dhcpdIpRelease_set {i : ℕ} {item : IpItem} (h : MacsDistinct c.items) (hu : Usable c.items m i item)
    (hm : m ≠ zeroMac) (al : Bool) :
    dhcpdIpRelease c.serverConfig.clientMax (c.ipPool.set i ⟨al, m, item.ip⟩) m =
      c.ipPool.set i ⟨false, m, item.ip⟩ := by
  have hset : active c.serverConfig.clientMax (c.ipPool.set i ⟨al, m, item.ip⟩) = c.items.set i ⟨al, m, item.ip⟩ :=
    List.take_set
  have hself : (c.items.set i ⟨al, m, item.ip⟩)[i]? = some ⟨al, m, item.ip⟩ := by
    rw [List.getElem?_set_self hu.lt]
  unfold dhcpdIpRelease getIpItem
  rw [hset]
  cases hf : (c.items.set i ⟨al, m, item.ip⟩).findIdx? fun x => decide (x.mac = m) with
  | none =>
    have hno := List.findIdx?_eq_none_iff.mp hf _ (List.mem_of_getElem? hself)
    simp at hno
  | some k =>
    obtain ⟨x, hx, hxm⟩ := findIdx_get hf
    have hk : k = i := h.set hu al k i x _ hx hself (by simpa using hxm) (by
      simp only [decide_eq_true_eq] at hxm
      rw [hxm]
      exact hm)
    subst hk
    dsimp only
    rw [List.modify_eq_set_getElem?]
    have hlt : k < c.ipPool.length := by
      have := hu.lt
      simp only [Ctrl.items, active, List.length_take] at this
      omega
    simp [hlt]

theorem dhcpdDispatch_spec (h : MacsDistinct c.items) (hm : req.mac ≠ zeroMac) :
    Handled c req (dhcpdDispatch c req).1 (dhcpdDispatch c req).2 := by
  unfold dhcpdDispatch
  cases ht : req.msgType with
  | discover =>
    dsimp only
    unfold doDiscover
    rcases dhcpdIpAllocate_spec c req.mac false with ⟨i, item, hu, ha⟩ | ⟨ha, h1, h2⟩
    · rw [ha]
      dsimp only
      rw [checked_leaseReply, Bool.or_false]
      exact .bound hu (.offer ht) rfl (items_set c i _) rfl rfl fun _ => rfl
    · rw [ha]
      exact .full h1 h2
  | request =>
    dsimp only
    unfold doRequest
    cases hc : confirmIpaddr req with
    | none => exact .ignored (by simp [ht, hc])
    | some confirm =>
      dsimp only
      rcases dhcpdIpAllocate_spec c req.mac true with ⟨i, item, hu, ha⟩ | ⟨ha, h1, h2⟩
      · rw [ha]
        dsimp only
        rw [Bool.or_true]
        split_ifs with hne
        · rw [checked_nakReply, dhcpdIpRelease_set h hu hm]
          exact .bound hu (.nak ht hc (Ne.symm hne)) rfl (items_set c i _) rfl rfl fun hno => absurd rfl hno
        · rw [not_not] at hne
          subst hne
          rw [checked_leaseReply]
          exact .bound hu (.ack ht hc) rfl (items_set c i _) rfl rfl fun _ => rfl
      · rw [ha]
        exact .full h1 h2
  | inform =>
    dsimp only
    unfold doInform
    rcases dhcpdIpAllocate_spec c req.mac false with ⟨i, item, hu, ha⟩ | ⟨ha, h1, h2⟩
    · rw [ha]
      dsimp only
      rw [checked_leaseReply, Bool.or_false]
      exact .bound hu (.inform ht) rfl (items_set c i _) rfl rfl fun _ => rfl
    · rw [ha]
      exact .full h1 h2
  | offer => exact .ignored (by simp [ht])
  | decline => exact .ignored (by simp [ht])
  | ack => exact .ignored (by simp [ht])
  | nak => exact .ignored (by simp [ht])
  | release => exact .ignored (by simp [ht])

/-! ### What a message keeps -/

variable {c' : Ctrl} {o : Option Reply} {r : Reply}

theorem Handled.distinct (hh : Handled c req c' o) (h : MacsDistinct c.items) : MacsDistinct c'.items := by
  cases hh with
  | ignored => exact h
  | full => exact h
  | bound hu _ _ hset =>
    rw [hset]
    exact h.set hu _

theorem Handled.ips (hh : Handled c req c' o) : c'.items.map IpItem.ip = c.items.map IpItem.ip := by
  cases hh with
  | ignored => rfl
  | full => rfl
  | @bound _ i item _ al _ hu _ _ hset =>
    rw [hset, List.map_set]
    apply List.ext_getElem?
    intro j
    rw [List.getElem?_set]
    split_ifs with hij hlt
    · subst hij
      rw [List.getElem?_map, hu.get]
      rfl
    · subst hij
      exact absurd (by simpa using hu.lt) hlt
    · rfl

/-- The state between two messages. -/
structure Sound (c : Ctrl) : Prop where
  macs : MacsDistinct c.items
  ips : (c.items.map IpItem.ip).Nodup

theorem Handled.sound (hh : Handled c req c' o) (h : Sound c) : Sound c' := by
  constructor
  · exact hh.distinct h.macs
  · rw [hh.ips]
    exact h.ips

theorem Sound.ip_inj (h : Sound c) {i j : ℕ} {x y : IpItem} (hx : c.items[i]? = some x) (hy : c.items[j]? = some y)
    (hxy : x.ip = y.ip) : i = j := by
  have hi : (c.items.map IpItem.ip)[i]? = some x.ip := by rw [List.getElem?_map, hx]; rfl
  have hj : (c.items.map IpItem.ip)[j]? = some x.ip := by rw [List.getElem?_map, hy, hxy]; rfl
  have hlt := (List.getElem?_eq_some_iff.mp hi).1
  exact (List.getElem?_inj hlt h.ips).mp (hi.trans hj.symm)

/-! ### Leases -/

/-- The client holds the address: its entry is allocated. -/
def Leased (c : Ctrl) (m : Mac) (a : Ip) : Prop :=
  ∃ (i : ℕ) (x : IpItem), c.items[i]? = some x ∧ x.mac = m ∧ x.allocted = true ∧ x.ip = a

/-- An inform message comes from a client that holds an address. -/
def InformLeased (c : Ctrl) (req : Request) : Prop :=
  req.msgType = .inform → ∃ x ∈ c.items, x.mac = req.mac ∧ x.allocted = true

theorem Handled.leased_ack (hh : Handled c req c' (some r)) (h : Sound c) (hm : req.mac ≠ zeroMac)
    (hi : InformLeased c req) (hr : r.msgType = .ack) : Leased c' r.mac r.yiaddr := by
  cases hh with
  | @bound _ i item t al _ hu ha _ hset ht hmac hip =>
    rw [hr] at ht
    subst ht
    have hal : al = true := by
      cases ha with
      | ack => rfl
      | inform hinf =>
        obtain ⟨x, hx, hxm, hxa⟩ := hi hinf
        by_cases him : item.mac = req.mac
        · obtain ⟨j, hj⟩ := List.mem_iff_getElem?.mp hx
          have hji := h.macs j i x item hj hu.get (hxm.trans him.symm) (by rw [hxm]; exact hm)
          subst hji
          rw [hu.get] at hj
          rw [Option.some.inj hj]
          exact hxa
        · exact absurd hxm ((hu.old him).1 x hx)
    refine ⟨i, ⟨al, req.mac, item.ip⟩, ?_, hmac.symm, hal, (hip (by decide)).symm⟩
    rw [hset, List.getElem?_set_self hu.lt]

/-- A message leaves a lease alone, unless it is answered to its holder. -/
theorem Handled.leased_cases (hh : Handled c req c' o) (hl : Leased c m a) :
    Leased c' m a ∨ ∃ r, o = some r ∧ r.msgType = .nak ∧ r.mac = m := by
  obtain ⟨j, x, hx, hxm, hxa, hxip⟩ := hl
  cases hh with
  | ignored => exact .inl ⟨j, x, hx, hxm, hxa, hxip⟩
  | full => exact .inl ⟨j, x, hx, hxm, hxa, hxip⟩
  | @bound _ i item t al r hu ha _ hset ht hmac hip =>
    by_cases hij : i = j
    · subst hij
      rw [hu.get] at hx
      obtain rfl := Option.some.inj hx
      have hreq : item.mac = req.mac := by
        by_contra hne
        rw [(hu.old hne).2.1] at hxa
        contradiction
      have hself : c'.items[i]? = some ⟨al, req.mac, item.ip⟩ := by rw [hset, List.getElem?_set_self hu.lt]
      have hkeep : al = true → Leased c' m a := fun hal => ⟨i, _, hself, hreq.symm.trans hxm, hal, hxip⟩
      cases ha with
      | offer => exact .inl (hkeep hxa)
      | inform => exact .inl (hkeep hxa)
      | ack => exact .inl (hkeep rfl)
      | nak => exact .inr ⟨r, rfl, ht, by rw [hmac, ← hreq, hxm]⟩
    · refine .inl ⟨j, x, ?_, hxm, hxa, hxip⟩
      rw [hset, List.getElem?_set_ne hij]
      exact hx

/-- The address of a lease is acknowledged to its holder only. -/
theorem Handled.ack_holder (hh : Handled c req c' (some r)) (h : Sound c) (hl : Leased c m a) (hr : r.msgType = .ack)
    (hra : r.yiaddr = a) : r.mac = m := by
  obtain ⟨j, x, hx, hxm, hxa, hxip⟩ := hl
  cases hh with
  | @bound _ i item t al _ hu ha _ hset ht hmac hip =>
    have hitem : item.ip = x.ip := by
      rw [hxip, ← hra]
      refine (hip ?_).symm
      rw [← ht, hr]
      decide
    have hij := h.ip_inj hu.get hx hitem
    subst hij
    rw [hu.get] at hx
    obtain rfl := Option.some.inj hx
    by_contra hne
    rw [hmac, ← hxm] at hne
    rw [(hu.old (Ne.symm hne)).2.1] at hxa
    contradiction

/-! ### Runs -/

/-- Every message meets a condition on the state it arrives in. -/
def Always (P : Ctrl → Request → Prop) : Ctrl → List Request → Prop
  | _, [] => True
  | c, req :: reqs => P c req ∧ Always P (dhcpdDispatch c req).1 reqs

/-- No address is acknowledged to a second client before the first was refused. -/
def LeasesUnique (answers : List (Option Reply)) : Prop :=
  ∀ (i j : ℕ) (r r' : Reply), i < j → answers[i]? = some (some r) → answers[j]? = some (some r') →
    r.msgType = .ack → r'.msgType = .ack → r.yiaddr = r'.yiaddr → r.mac ≠ r'.mac →
    ∃ k q, i < k ∧ k < j ∧ answers[k]? = some (some q) ∧ q.msgType = .nak ∧ q.mac = r.mac

/-- A leased address goes to another client only after its holder was refused. -/
theorem serve_leased {reqs : List Request} (h : Sound c) (hm : ∀ req ∈ reqs, req.mac ≠ zeroMac) (hl : Leased c m a)
    {j : ℕ} {r : Reply} (hj : (serve c reqs)[j]? = some (some r)) (hr : r.msgType = .ack) (hra : r.yiaddr = a)
    (hne : r.mac ≠ m) : ∃ k q, k < j ∧ (serve c reqs)[k]? = some (some q) ∧ q.msgType = .nak ∧ q.mac = m := by
  induction reqs generalizing c j with
  | nil => simp [serve] at hj
  | cons req reqs ih =>
    have hh := dhcpdDispatch_spec h.macs (hm req (by simp))
    cases j with
    | zero =>
      simp only [serve, List.getElem?_cons_zero, Option.some.injEq] at hj
      rw [hj] at hh
      exact absurd (hh.ack_holder h hl hr hra) hne
    | succ j =>
      simp only [serve, List.getElem?_cons_succ] at hj
      rcases hh.leased_cases hl with hl' | ⟨q, hq, hqt, hqm⟩
      · obtain ⟨k, q, hk, hq, hqt, hqm⟩ := ih (hh.sound h) (fun x hx => hm x (by simp [hx])) hl' hj
        exact ⟨k + 1, q, by omega, by simpa [serve] using hq, hqt, hqm⟩
      · exact ⟨0, q, by omega, by simp [serve, hq], hqt, hqm⟩

theorem serve_leasesUnique (h : Sound c) (hm : ∀ req ∈ reqs, req.mac ≠ zeroMac) (hi : Always InformLeased c reqs) :
    LeasesUnique (serve c reqs) := by
  induction reqs generalizing c with
  | nil =>
    intro i j r r' _ hr
    simp [serve] at hr
  | cons req reqs ih =>
    have hreq := hm req (by simp)
    have hrest : ∀ x ∈ reqs, x.mac ≠ zeroMac := fun x hx => hm x (by simp [hx])
    have hh := dhcpdDispatch_spec h.macs hreq
    intro i j r r' hij hr hr' ht ht' hip hne
    obtain ⟨j, rfl⟩ := Nat.exists_eq_add_of_lt (Nat.zero_lt_of_lt hij)
    rw [Nat.zero_add] at hij hr' ⊢
    simp only [serve, List.getElem?_cons_succ] at hr'
    cases i with
    | zero =>
      simp only [serve, List.getElem?_cons_zero, Option.some.injEq] at hr
      rw [hr] at hh
      have hl := hh.leased_ack h hreq hi.1 ht
      obtain ⟨k, q, hk, hq, hqt, hqm⟩ := serve_leased (hh.sound h) hrest hl hr' ht' hip.symm (Ne.symm hne)
      exact ⟨k + 1, q, by omega, by omega, by simpa [serve] using hq, hqt, hqm⟩
    | succ i =>
      simp only [serve, List.getElem?_cons_succ] at hr
      obtain ⟨k, q, h1, h2, hq, hqt, hqm⟩ := ih (hh.sound h) hrest hi.2 i j r r' (by omega) hr hr' ht ht' hip hne
      exact ⟨k + 1, q, by omega, by omega, by simpa [serve] using hq, hqt, hqm⟩

theorem serveState_sound (h : Sound c) (hm : ∀ req ∈ reqs, req.mac ≠ zeroMac) : Sound (serveState c reqs) := by
  induction reqs generalizing c with
  | nil => exact h
  | cons req reqs ih =>
    have hh := dhcpdDispatch_spec h.macs (hm req (by simp))
    exact ih (hh.sound h) fun x hx => hm x (by simp [hx])

/-- From a start with distinct addresses, as long as inform messages come from clients that
hold an address: every client has at most one entry, and no acknowledged address goes to a
second client before the first was refused. -/
theorem leases_unique (cfg : ServerConfig) (pool : List IpItem) (reqs : List Request)
    (hmacs : MacsDistinct (dhcpdStart cfg pool).items) (hips : ((dhcpdStart cfg pool).items.map IpItem.ip).Nodup)
    (hm : ∀ req ∈ reqs, req.mac ≠ zeroMac) (hi : Always InformLeased (dhcpdStart cfg pool) reqs) :
    (∀ k, MacsDistinct (serveState (dhcpdStart cfg pool) (reqs.take k)).items) ∧
      LeasesUnique (serve (dhcpdStart cfg pool) reqs) := by
  have hsound : Sound (dhcpdStart cfg pool) := ⟨hmacs, hips⟩
  constructor
  · intro k
    exact (serveState_sound hsound fun req hreq => hm req (List.mem_of_mem_take hreq)).macs
  · exact serve_leasesUnique hsound hm hi

/-- A server at 192.168.4.1 with addresses from 192.168.4.100 on. -/
def softApConfig : ServerConfig :=
  ⟨#v[192, 168, 4, 1], 67, 3600, 1800, #v[192, 168, 4, 100], #v[192, 168, 4, 103], 4⟩

/-- A message from the client with the last byte `n` of its hardware address. -/
def clientMsg (t : MsgType) (n : UInt8) (ask : Option Ip) : Request :=
  ⟨t, 1, 6, Vector.replicate 4 0, Vector.replicate 2 0, zeroIp, #v[2, 0, 0, 0, 0, n], Vector.replicate 10 0, ask⟩

theorem macsDistinct_of_zero (h : ∀ x ∈ l, x.mac = zeroMac) : MacsDistinct l := by
  intro i j x y hx _ _ hne
  exact absurd (h x (List.mem_of_getElem? hx)) hne

/-- A client that asked for its address and informs itself, and another that asks for it. -/
theorem leases_unique_softAp :
    LeasesUnique (serve (dhcpdStart softApConfig ipPoolZero)
      [clientMsg .discover 1 none, clientMsg .request 1 (some #v[192, 168, 4, 100]), clientMsg .inform 1 none,
        clientMsg .request 2 (some #v[192, 168, 4, 100])]) := by
  refine (leases_unique softApConfig ipPoolZero _ ?_ (by decide) (by decide) ?_).2
  · exact macsDistinct_of_zero (by decide)
  · refine ⟨fun h => ?_, fun h => ?_, fun _ => ?_, fun h => ?_, trivial⟩
    · exact absurd h (by decide)
    · exact absurd h (by decide)
    · exact ⟨⟨true, #v[2, 0, 0, 0, 0, 1], #v[192, 168, 4, 100]⟩, by decide, rfl, rfl⟩
    · exact absurd h (by decide)

/-- Inform messages of five clients: the first and the last are acknowledged the same address. -/
theorem leases_not_unique_inform : ¬ ∀ (cfg : ServerConfig) (reqs : List Request),
    ((dhcpdStart cfg ipPoolZero).items.map IpItem.ip).Nodup → (∀ req ∈ reqs, req.mac ≠ zeroMac) →
      LeasesUnique (serve (dhcpdStart cfg ipPoolZero) reqs) := by
  intro hall
  have h := hall softApConfig
    [clientMsg .inform 1 none, clientMsg .inform 2 none, clientMsg .inform 3 none, clientMsg .inform 4 none,
      clientMsg .inform 5 none] (by decide) (by decide)
  obtain ⟨k, q, hk, hk', hq, hqt, -⟩ := h 0 4 _ _ (by decide) rfl rfl rfl rfl rfl (by decide)
  have hack : ∀ k, k < 5 → ((serve (dhcpdStart softApConfig ipPoolZero)
      [clientMsg .inform 1 none, clientMsg .inform 2 none, clientMsg .inform 3 none, clientMsg .inform 4 none,
        clientMsg .inform 5 none])[k]?.bind id).map Reply.msgType = some .ack := by decide
  have hkack := hack k (by omega)
  rw [hq] at hkack
  simp [hqt] at hkack

end Ln882x.Dhcpd
