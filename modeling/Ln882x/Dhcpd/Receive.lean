import Ln882x.Dhcpd.Lookup

/-! What the receive path reads of a datagram. The check walks over the options with
a null option and follows it when the option list ends as it should, so a datagram is
handled without a stray access only if it is refused before that; and the walk itself
reads a length byte behind the datagram if a code is its last byte. -/

namespace Ln882x.Dhcpd

open Nor

variable {mem : Memory} {recvLen : ℕ}

/-! ### The condition -/

/-- What is read at a code of a field lies in the datagram. -/
def CodeRead (mem : Memory) (recvLen limit q : ℕ) : Prop :=
  q < recvLen ∧ (mem q ≠ dhoPad → mem q ≠ dhoEnd → q + 1 < recvLen) ∧
    (mem q = dhoDhcpOptionOverload → q + 2 + (mem (q + 1)).toNat < limit → q + 2 < recvLen)

/-- What a walk over the bytes from `start` to `limit` reads lies in the datagram. -/
def FieldRead (mem : Memory) (recvLen start limit : ℕ) : Prop :=
  Tlv.ScanMeets dhcpCodes mem (CodeRead mem recvLen limit) limit start

/-- The same of the bytes that are taken for the two other fields. -/
def OverloadRead (mem : Memory) (recvLen : ℕ) (overload : UInt8) : Prop :=
  if overloadsFile overload then FieldRead mem recvLen (2 * dhcpFilePos) (2 * dhcpFilePos + dhcpFileLen)
  else if overloadsSname overload then FieldRead mem recvLen (2 * dhcpSnamePos) (2 * dhcpSnamePos + dhcpSnameLen)
  else True

/-- The bytes that are taken for the two other fields run off without an end. -/
def OverloadRunsOff (mem : Memory) (overload : UInt8) : Prop :=
  if overloadsFile overload then
    fieldScan mem none (2 * dhcpFilePos) (2 * dhcpFilePos + dhcpFileLen) overload = .ranOff
  else if overloadsSname overload then
    fieldScan mem none (2 * dhcpSnamePos) (2 * dhcpSnamePos + dhcpSnameLen) overload = .ranOff
  else False

/-- The datagram is refused before its options come to a proper end, and nothing behind it is read. -/
def RefusedInside (mem : Memory) (recvLen : ℕ) : Prop :=
  0 < recvLen ∧
    (mem 0 ≠ bootRequest ∨ recvLen < bootpAbsoluteMinLen + dhcpMagicCookieLen + 4 ∨ ¬CookieRight mem ∨
      FieldRead mem recvLen dhcpOptsPos recvLen ∧
        ∀ overload, fieldScan mem none dhcpOptsPos recvLen 0 = .ended overload →
          OverloadRead mem recvLen overload ∧ OverloadRunsOff mem overload)

/-- Every loop over the options ends, nothing behind the datagram is read and no null pointer is followed. -/
def ReceiveSafe (mem : Memory) (recvLen : ℕ) (nullValue : Bool) : Prop :=
  (∀ code, Ends (parseRound mem code) (parseStart recvLen)) ∧
    ∀ a ∈ dhcpdDispatchAccesses mem recvLen nullValue, a.Fine recvLen

/-! ### The walk of the check -/

/-- What the loop reads from a scan on lies in the datagram. -/
def ReadsFrom (mem : Memory) (recvLen : ℕ) (s : Scan) : Prop :=
  FieldRead mem recvLen (s.byte 0) (s.optionptr + s.len) ∧
    (s.currFlag = .option → ∀ overload,
      fieldScan mem none (s.byte 0) (s.optionptr + s.len) s.overload = .ended overload → OverloadRead mem recvLen overload)

theorem readsFrom_of_last {s : Scan} (h : s.currFlag ≠ .option) :
    ReadsFrom mem recvLen s ↔ FieldRead mem recvLen (s.byte 0) (s.optionptr + s.len) :=
  and_iff_left fun hflag => absurd hflag h

/-- The rest of a field, when its first code has been read. -/
theorem readsFrom_step {s t : Scan} {reads : List Access} (hflag : t.currFlag = s.currFlag)
    (hread : (∀ a ∈ reads, a.Fine recvLen) ↔ CodeRead mem recvLen (s.optionptr + s.len) (s.byte 0))
    (hfield : FieldRead mem recvLen (s.byte 0) (s.optionptr + s.len) ↔
      CodeRead mem recvLen (s.optionptr + s.len) (s.byte 0) ∧ FieldRead mem recvLen (t.byte 0) (t.optionptr + t.len))
    (hscan : fieldScan mem none (s.byte 0) (s.optionptr + s.len) s.overload =
      fieldScan mem none (t.byte 0) (t.optionptr + t.len) t.overload) :
    ((∀ a ∈ reads, a.Fine recvLen) ∧ ReadsFrom mem recvLen t) ↔ ReadsFrom mem recvLen s := by
  rw [hread, ReadsFrom, ReadsFrom, hfield, hscan, hflag, and_assoc]

theorem fine_single {i : ℕ} : (∀ a ∈ [Access.read i], a.Fine recvLen) ↔ i < recvLen := by
  rw [List.forall_mem_singleton]
  exact Iff.rfl

theorem fine_cons {i : ℕ} {l : List Access} :
    (∀ a ∈ Access.read i :: l, a.Fine recvLen) ↔ i < recvLen ∧ ∀ a ∈ l, a.Fine recvLen := by
  rw [List.forall_mem_cons]
  exact Iff.rfl

/-- A round reads what the walk reads at its code, and goes on as the walk does. -/
theorem parseRound_reads (mem : Memory) (recvLen : ℕ) (s : Scan) :
    ((∀ a ∈ parseRoundAccesses mem none s, a.Fine recvLen) ∧
      match parseRound mem none s with
      | .inl t => ReadsFrom mem recvLen t
      | .inr _ => True) ↔ ReadsFrom mem recvLen s := by
  have hone : s.byte 0 + 1 = s.byte 1 := rfl
  have htwo : s.byte 0 + 2 = s.byte 2 := rfl
  have hbyte (i : ℕ) : s.byte i = s.optionptr + s.offset + i := rfl
  have hnil : ∀ a ∈ ([] : List Access), a.Fine recvLen := fun a ha => (nomatch ha)
  have hnone (c : UInt8) : ¬(none : Option UInt8) = some c := fun h => (nomatch h)
  have hmiss : ¬decide ((none : Option UInt8) = some (mem (s.byte 0))) = true := by
    rw [decide_eq_true_iff]
    exact hnone _
  unfold parseRoundAccesses parseRound
  dsimp only
  rw [if_neg (hnone _), if_neg (hnone _), Option.isSome_none, if_neg Bool.false_ne_true, List.nil_append]
  by_cases hlimit : s.offset ≥ s.len
  · rw [if_pos hlimit, if_pos hlimit]
    refine iff_of_true ⟨hnil, trivial⟩ ⟨Tlv.scanMeets_of_le (by rw [hbyte]; omega), fun _ overload hended => ?_⟩
    rw [fieldScan, Tlv.scan_ranOff (by rw [hbyte]; omega)] at hended
    cases hended
  rw [if_neg hlimit, if_neg hlimit]
  have hlt : s.byte 0 < s.optionptr + s.len := by
    rw [hbyte]
    omega
  by_cases hpad : mem (s.byte 0) = dhoPad
  · have hread : CodeRead mem recvLen (s.optionptr + s.len) (s.byte 0) ↔ s.byte 0 < recvLen := by
      refine and_iff_left ⟨fun h => absurd hpad h, fun h => ?_⟩
      rw [hpad] at h
      cases h
    rw [if_pos hpad, if_pos hpad]
    exact readsFrom_step rfl (fine_single.trans hread.symm) (Tlv.scanMeets_pad hlt hpad) (Tlv.scan_pad hlt hmiss hpad)
  rw [if_neg hpad, if_neg hpad]
  by_cases hover : mem (s.byte 0) = dhoDhcpOptionOverload
  · have hend : mem (s.byte 0) ≠ dhoEnd := by
      rw [hover]
      decide
    have hfield : Tlv.ScanMeets dhcpCodes mem (CodeRead mem recvLen (s.optionptr + s.len)) (s.optionptr + s.len) (s.byte 0) ↔ _ :=
      Tlv.scanMeets_next hlt hpad hend
    have hscan : fieldScan mem none (s.byte 0) (s.optionptr + s.len) s.overload = _ := Tlv.scan_next hlt hmiss hpad hend
    rw [if_pos hover, if_pos hover]
    by_cases hlong : s.offset + 2 + (mem (s.byte 1)).toNat ≥ s.len
    · have hread : CodeRead mem recvLen (s.optionptr + s.len) (s.byte 0) ↔ s.byte 0 < recvLen ∧ s.byte 1 < recvLen := by
        refine and_congr_right fun _ => ⟨fun h => h.1 hpad hend, fun h => ⟨fun _ _ => h, fun _ hlt' => ?_⟩⟩
        rw [hone, hbyte] at hlt'
        omega
      have hrest : s.optionptr + s.len ≤ s.byte 0 + 2 + (mem (s.byte 0 + 1)).toNat := by
        rw [hone, hbyte]
        omega
      rw [if_pos hlong, if_pos hlong, fine_cons, fine_single, ← hread, and_iff_left trivial, ReadsFrom, FieldRead, hfield,
        and_iff_left (Tlv.scanMeets_of_le hrest)]
      refine (and_iff_left fun _ overload hended => ?_).symm
      rw [hscan, Tlv.scan_ranOff hrest] at hended
      cases hended
    · have hread : CodeRead mem recvLen (s.optionptr + s.len) (s.byte 0) ↔
          s.byte 0 < recvLen ∧ s.byte 1 < recvLen ∧ s.byte 2 < recvLen ∧ s.byte 1 < recvLen := by
        refine and_congr_right fun _ => ⟨fun h => ?_, fun h => ⟨fun _ _ => h.1, fun _ _ => h.2.1⟩⟩
        have h1 : s.byte 1 < recvLen := h.1 hpad hend
        have h2 : s.byte 2 < recvLen := h.2 hover (by rw [hone, hbyte]; omega)
        exact ⟨h1, h2, h1⟩
      have hnext : s.byte 0 + 2 + (mem (s.byte 0 + 1)).toNat = s.optionptr + (s.offset + 2 + (mem (s.byte 1)).toNat) + 0 := by
        rw [hone, hbyte]
        omega
      rw [hnext] at hfield hscan
      rw [noteOverload, if_pos hover, htwo] at hscan
      rw [if_neg hlong, if_neg hlong]
      exact readsFrom_step rfl (by rw [fine_cons, fine_cons, fine_cons, fine_single, hread]) hfield hscan
  rw [if_neg hover, if_neg hover]
  have hnotover : ∀ limit, mem (s.byte 0) = dhoDhcpOptionOverload →
      s.byte 0 + 2 + (mem (s.byte 0 + 1)).toNat < limit → s.byte 0 + 2 < recvLen := fun _ h => absurd h hover
  by_cases hend : mem (s.byte 0) = dhoEnd
  · have hread : CodeRead mem recvLen (s.optionptr + s.len) (s.byte 0) ↔ s.byte 0 < recvLen :=
      and_iff_left ⟨fun _ h => absurd hend h, hnotover _⟩
    have hfield : Tlv.ScanMeets dhcpCodes mem (CodeRead mem recvLen (s.optionptr + s.len)) (s.optionptr + s.len) (s.byte 0) ↔ _ :=
      Tlv.scanMeets_stop hlt hpad hend
    have hscan : fieldScan mem none (s.byte 0) (s.optionptr + s.len) s.overload = .ended s.overload :=
      Tlv.scan_stop hlt hmiss hpad hend
    have hfrom : ReadsFrom mem recvLen s ↔
        s.byte 0 < recvLen ∧ (s.currFlag = .option → OverloadRead mem recvLen s.overload) := by
      rw [ReadsFrom, FieldRead, hfield, hread, hscan]
      refine and_congr_right fun _ => imp_congr_right fun _ => ⟨fun h => h _ rfl, ?_⟩
      rintro h _ ⟨⟩
      exact h
    rw [if_pos hend, if_pos hend, fine_single, hfrom]
    refine and_congr_right fun _ => ?_
    by_cases hfile : s.currFlag = .option ∧ overloadsFile s.overload = true
    · rw [if_pos hfile]
      dsimp only
      rw [readsFrom_of_last (by intro h; cases h), OverloadRead, if_pos hfile.2]
      exact ⟨fun h _ => h, fun h => h hfile.1⟩
    rw [if_neg hfile]
    by_cases hsname : s.currFlag = .option ∧ overloadsSname s.overload = true
    · have hno : ¬overloadsFile s.overload = true := fun h => hfile ⟨hsname.1, h⟩
      rw [if_pos hsname]
      dsimp only
      rw [readsFrom_of_last (by intro h; cases h), OverloadRead, if_neg hno, if_pos hsname.2]
      exact ⟨fun h _ => h, fun h => h hsname.1⟩
    · rw [if_neg hsname]
      refine iff_of_true trivial fun hflag => ?_
      have hno : ¬overloadsFile s.overload = true := fun h => hfile ⟨hflag, h⟩
      have hno' : ¬overloadsSname s.overload = true := fun h => hsname ⟨hflag, h⟩
      rw [OverloadRead, if_neg hno, if_neg hno']
      trivial
  · have hread : CodeRead mem recvLen (s.optionptr + s.len) (s.byte 0) ↔ s.byte 0 < recvLen ∧ s.byte 1 < recvLen :=
      and_congr_right fun _ => ⟨fun h => h.1 hpad hend, fun h => ⟨fun _ _ => h, hnotover _⟩⟩
    have hfield : Tlv.ScanMeets dhcpCodes mem (CodeRead mem recvLen (s.optionptr + s.len)) (s.optionptr + s.len) (s.byte 0) ↔ _ :=
      Tlv.scanMeets_next hlt hpad hend
    have hscan : fieldScan mem none (s.byte 0) (s.optionptr + s.len) s.overload = _ := Tlv.scan_next hlt hmiss hpad hend
    have hnext : s.byte 0 + 2 + (mem (s.byte 0 + 1)).toNat = s.optionptr + (s.offset + 2 + (mem (s.byte 1)).toNat) + 0 := by
      rw [hone, hbyte]
      omega
    rw [hnext] at hfield hscan
    rw [noteOverload, if_neg hover] at hscan
    rw [if_neg hend, if_neg hend]
    exact readsFrom_step rfl (by rw [fine_cons, fine_single, hread]) hfield hscan

theorem parseRounds_reads {n : ℕ} {s : Scan} {r : Parsed} (h : rounds (parseRound mem none) n s = .inr r) :
    (∀ a ∈ parseRoundsAccesses mem none n s, a.Fine recvLen) ↔ ReadsFrom mem recvLen s := by
  induction n generalizing s with
  | zero => cases h
  | succ n ih =>
    have hround := parseRound_reads mem recvLen s
    rw [parseRoundsAccesses, List.forall_mem_append, ← hround]
    refine and_congr_right fun _ => ?_
    cases hs : parseRound mem none s with
    | inl t =>
      rw [rounds_inl hs] at h
      exact ih h
    | inr r' => exact iff_of_true (fun a ha => (nomatch ha)) trivial

/-! ### The check -/

theorem fieldScan_none_ne_hit (start limit : ℕ) (overload : UInt8) (q : ℕ) : fieldScan mem none start limit overload ≠ .hit q := by
  intro h
  obtain ⟨-, -, hhit⟩ := Tlv.scan_hit_spec h
  cases hhit

/-- Without a code to look for, a last field ends or runs off. -/
theorem parsedLast_ne_done_iff {start limit : ℕ} {overload : UInt8} :
    parsedLast mem limit (fieldScan mem none start limit overload) ≠ .done ↔
      fieldScan mem none start limit overload = .ranOff := by
  cases h : fieldScan mem none start limit overload with
  | hit q => exact absurd h (fieldScan_none_ne_hit start limit overload q)
  | ended overload' => exact iff_of_false (fun hne => hne rfl) (fun heq => (nomatch heq))
  | ranOff => exact iff_of_true (fun heq => (nomatch heq)) rfl

/-- The check follows the null option unless its walk runs off. -/
theorem parseLoop_none_ne_done_iff : parseLoop mem none recvLen ≠ .done ↔
    ∀ overload, fieldScan mem none dhcpOptsPos recvLen 0 = .ended overload → OverloadRunsOff mem overload := by
  rw [parseLoop_eq]
  cases h : fieldScan mem none dhcpOptsPos recvLen 0 with
  | hit q => exact absurd h (fieldScan_none_ne_hit _ _ _ q)
  | ranOff => exact iff_of_true (fun heq => (nomatch heq)) fun _ heq => (nomatch heq)
  | ended overload =>
    have hruns : parsedFirst mem none recvLen (.ended overload) ≠ .done ↔ OverloadRunsOff mem overload := by
      rw [parsedFirst, OverloadRunsOff]
      split_ifs
      · exact parsedLast_ne_done_iff
      · exact parsedLast_ne_done_iff
      · exact iff_of_false (fun hne => hne rfl) id
    rw [hruns]
    constructor
    · rintro hr _ ⟨⟩
      exact hr
    · exact fun hall => hall overload rfl

theorem cookieAccesses_fine (hlen : bootpAbsoluteMinLen + dhcpMagicCookieLen + 4 ≤ recvLen) :
    ∀ a ∈ cookieAccesses, a.Fine recvLen := by
  intro a ha
  obtain ⟨i, hi, rfl⟩ := List.mem_map.mp ha
  rw [List.mem_range] at hi
  show bootpAbsoluteMinLen + i < recvLen
  omega

/-- The accesses of the check of a datagram that is long enough and has its cookie. -/
theorem parseOptionAccesses_fine_iff (hlen : bootpAbsoluteMinLen + dhcpMagicCookieLen + 4 ≤ recvLen)
    (hcookie : CookieRight mem) :
    (∀ a ∈ dhcpdParseOptionAccesses mem none recvLen, a.Fine recvLen) ↔
      FieldRead mem recvLen dhcpOptsPos recvLen ∧
        ∀ overload, fieldScan mem none dhcpOptsPos recvLen 0 = .ended overload →
          OverloadRead mem recvLen overload ∧ OverloadRunsOff mem overload := by
  have hstart : ReadsFrom mem recvLen (parseStart recvLen) ↔ FieldRead mem recvLen dhcpOptsPos recvLen ∧
      ∀ overload, fieldScan mem none dhcpOptsPos recvLen 0 = .ended overload → OverloadRead mem recvLen overload := by
    have hbyte : (parseStart recvLen).byte 0 = dhcpOptsPos := rfl
    have hlimit : (parseStart recvLen).optionptr + (parseStart recvLen).len = recvLen := Nat.zero_add recvLen
    rw [ReadsFrom, hbyte, hlimit]
    exact and_congr_right fun _ => ⟨fun h => h rfl, fun h _ => h⟩
  have hnull : (∀ a ∈ (if parseLoop mem none recvLen = .done ∧ (none : Option UInt8) = none then [Access.null] else []),
      a.Fine recvLen) ↔ parseLoop mem none recvLen ≠ .done := by
    by_cases hdone : parseLoop mem none recvLen = .done
    · rw [if_pos ⟨hdone, rfl⟩, List.forall_mem_singleton]
      exact iff_of_false id (fun hne => hne hdone)
    · rw [if_neg fun h => hdone h.1]
      exact iff_of_true (fun a ha => (nomatch ha)) hdone
  unfold dhcpdParseOptionAccesses
  rw [if_neg (not_not.mpr hcookie)]
  dsimp only
  rw [List.forall_mem_append, List.forall_mem_append, and_iff_right (cookieAccesses_fine hlen),
    parseRounds_reads (parseLoop_ends mem none recvLen), hnull, hstart, parseLoop_none_ne_done_iff, and_assoc]
  refine and_congr_right fun _ => ?_
  constructor
  · exact fun h overload hended => ⟨h.1 overload hended, h.2 overload hended⟩
  · exact fun h => ⟨fun overload hended => (h overload hended).1, fun overload hended => (h overload hended).2⟩

/-- Without a code to look for, the loop finds nothing. -/
theorem parseLoop_none (mem : Memory) (recvLen : ℕ) : parseLoop mem none recvLen = .done ∨ parseLoop mem none recvLen = .failed := by
  have hlast (start limit : ℕ) (overload : UInt8) :
      parsedLast mem limit (fieldScan mem none start limit overload) = .done ∨
        parsedLast mem limit (fieldScan mem none start limit overload) = .failed := by
    cases h : fieldScan mem none start limit overload with
    | hit q => exact absurd h (fieldScan_none_ne_hit start limit overload q)
    | ended overload' => exact .inl rfl
    | ranOff => exact .inr rfl
  rw [parseLoop_eq]
  cases h : fieldScan mem none dhcpOptsPos recvLen 0 with
  | hit q => exact absurd h (fieldScan_none_ne_hit _ _ _ q)
  | ranOff => exact .inr rfl
  | ended overload =>
    rw [parsedFirst]
    split_ifs
    · exact hlast _ _ _
    · exact hlast _ _ _
    · exact .inl rfl

/-- A check that does not follow the null option refuses the datagram. -/
theorem check_refuses (nullValue : Bool) (h : parseLoop mem none recvLen ≠ .done) :
    dhcpdRecvPacketCheck mem recvLen nullValue = false := by
  have hfailed : parseLoop mem none recvLen = .failed := (parseLoop_none mem recvLen).resolve_left h
  have hcode : (none : Option DhcpOption).map DhcpOption.code = none := rfl
  unfold dhcpdRecvPacketCheck dhcpdParseOption
  rw [hcode, hfailed]
  split_ifs
  · rfl
  · rfl
  · rfl

/-! ### The dispatch -/

/-- A datagram is received safely exactly if it is refused in time. -/
theorem receiveSafe_iff (mem : Memory) (recvLen : ℕ) (nullValue : Bool) :
    ReceiveSafe mem recvLen nullValue ↔ RefusedInside mem recvLen := by
  have hends : ∀ code, Ends (parseRound mem code) (parseStart recvLen) := fun code =>
    ⟨parseFuel recvLen, _, parseLoop_ends mem code recvLen⟩
  have hnil : ∀ a ∈ ([] : List Access), a.Fine recvLen := fun a ha => (nomatch ha)
  unfold ReceiveSafe RefusedInside dhcpdDispatchAccesses
  dsimp only
  rw [and_iff_right hends, fine_cons]
  refine and_congr_right fun _ => ?_
  by_cases hop : mem 0 ≠ bootRequest
  · rw [if_pos hop]
    exact iff_of_true hnil (.inl hop)
  rw [if_neg hop, or_iff_right hop, List.forall_mem_append]
  by_cases hlen : recvLen < bootpAbsoluteMinLen + dhcpMagicCookieLen + 4
  · have hcheck : dhcpdRecvPacketCheck mem recvLen nullValue = false := by
      rw [dhcpdRecvPacketCheck, if_pos hlen]
    rw [dhcpdRecvPacketCheckAccesses, if_pos hlen, hcheck]
    exact iff_of_true ⟨hnil, hnil⟩ (.inl hlen)
  rw [or_iff_right hlen, dhcpdRecvPacketCheckAccesses, if_neg hlen]
  by_cases hcookie : CookieRight mem
  · rw [or_iff_right (not_not.mpr hcookie), ← parseOptionAccesses_fine_iff (by omega) hcookie]
    refine and_iff_left_of_imp fun hfine => ?_
    have hcond := (parseOptionAccesses_fine_iff (by omega) hcookie).mp hfine
    have hloop : parseLoop mem none recvLen ≠ .done :=
      parseLoop_none_ne_done_iff.mpr fun overload hended => (hcond.2 overload hended).2
    rw [check_refuses nullValue hloop]
    exact hnil
  · have hcheck : dhcpdRecvPacketCheck mem recvLen nullValue = false := by
      rw [dhcpdRecvPacketCheck, if_neg hlen, dhcpdParseOption, if_pos hcookie]
    rw [dhcpdParseOptionAccesses, if_pos hcookie, hcheck]
    exact iff_of_true ⟨cookieAccesses_fine (by omega), hnil⟩ (.inl hcookie)

/-- An ordinary discover message is not received safely, nor is an empty datagram. -/
theorem not_receiveSafe :
    ¬ReceiveSafe (bytesFrom (1 :: (packetWith [] [53, 1, 1, 255, 0, 0]).tail)) 246 true ∧ ¬ReceiveSafe (bytesFrom []) 0 true := by
  constructor
  · rintro ⟨-, hfine⟩
    revert hfine
    decide +kernel
  · rintro ⟨-, hfine⟩
    revert hfine
    decide +kernel

end Ln882x.Dhcpd
