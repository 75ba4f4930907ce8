import Ln882x.Ota.Layout

/-! The two scans of the partition table. `ln_verify_partition_table` runs to the
all-zero terminator and asks every entry before it for its checksum;
`ln_fetch_partition_info` stops at the first entry of the type, which may be the
terminator itself when the type is zero. The checksum of twelve zero bytes is not
zero, so the terminator never passes for an entry and the two scans agree. -/

namespace Ln882x.Ota

open Nor

def partitionCount : ℕ := partitionTabSize / partitionInfoSize

/-- The bytes of an entry of the table. -/
def partitionBytes (f : Flash) (i : ℕ) : Bytes := flashRead f (partitionTabBase + i * partitionInfoSize) partitionInfoSize

def partitionEntry (f : Flash) (i : ℕ) : PartitionInfo := PartitionInfo.ofBytes (partitionBytes f i)

/-- The checksum of the entry is right. -/
def EntrySealed (f : Flash) (i : ℕ) : Prop :=
  (partitionEntry f i).crc32 = (lnCrc32SignleCal ((partitionBytes f i).take (partitionInfoSize - 4))).toNat

instance (f : Flash) (i : ℕ) : Decidable (EntrySealed f i) := inferInstanceAs (Decidable (_ = _))

/-- The loop of `ln_verify_partition_table` from entry `i` on, with `n` entries to go. -/
def verifyPartitionLoop (f : Flash) : ℕ → ℕ → Bool
  | 0, _ => false
  | n + 1, i =>
    if partitionEntry f i = .zero then true
    else if ¬EntrySealed f i then false
    else verifyPartitionLoop f n (i + 1)

def lnVerifyPartitionTable (f : Flash) : Bool := verifyPartitionLoop f partitionCount 0

variable {f : Flash} {type : ℕ}

/-! ### The scans -/

/-- The table verifies from an entry on: the terminator follows, and every entry before it has its checksum. -/
theorem verifyPartitionLoop_iff (n i : ℕ) : verifyPartitionLoop f n i = true ↔
    ∃ last, i ≤ last ∧ last < i + n ∧ partitionEntry f last = .zero ∧
      ∀ j, i ≤ j → j < last → partitionEntry f j ≠ .zero ∧ EntrySealed f j := by
  induction n generalizing i with
  | zero =>
    constructor
    · intro h
      cases h
    · rintro ⟨last, hle, hlt, -⟩
      omega
  | succ n ih =>
    rw [verifyPartitionLoop]
    by_cases hzero : partitionEntry f i = .zero
    · rw [if_pos hzero]
      refine iff_of_true rfl ⟨i, le_refl i, by omega, hzero, ?_⟩
      intro j hij hji
      omega
    rw [if_neg hzero]
    by_cases hseal : EntrySealed f i
    · rw [if_neg (not_not.mpr hseal), ih]
      constructor
      · rintro ⟨last, hle, hlt, hlast, hbefore⟩
        refine ⟨last, by omega, by omega, hlast, ?_⟩
        intro j hij hj
        by_cases hi : j = i
        · rw [hi]
          exact ⟨hzero, hseal⟩
        · exact hbefore j (by omega) hj
      · rintro ⟨last, hle, hlt, hlast, hbefore⟩
        have hne : last ≠ i := by
          rintro rfl
          exact hzero hlast
        refine ⟨last, by omega, by omega, hlast, ?_⟩
        intro j hij hj
        exact hbefore j (by omega) hj
    · rw [if_pos hseal]
      refine iff_of_false Bool.false_ne_true ?_
      rintro ⟨last, hle, -, hlast, hbefore⟩
      have hne : last ≠ i := by
        rintro rfl
        exact hzero hlast
      exact hseal (hbefore i (le_refl i) (by omega)).2

/-- What a lookup hands out: the first entry of the type, provided that its checksum is
right and no terminator comes before it. -/
theorem fetchPartitionLoop_iff (n i : ℕ) (info r : PartitionInfo) : fetchPartitionLoop f type n i info = (true, r) ↔
    ∃ j, i ≤ j ∧ j < i + n ∧ r = partitionEntry f j ∧ (partitionEntry f j).type = type ∧ EntrySealed f j ∧
      ∀ k, i ≤ k → k < j → (partitionEntry f k).type ≠ type ∧ partitionEntry f k ≠ .zero := by
  induction n generalizing i info with
  | zero =>
    constructor
    · intro h
      cases h
    · rintro ⟨j, hle, hlt, -⟩
      omega
  | succ n ih =>
    show (if (partitionEntry f i).type = type then (decide (EntrySealed f i), partitionEntry f i)
      else if partitionEntry f i = .zero then (false, partitionEntry f i)
      else fetchPartitionLoop f type n (i + 1) (partitionEntry f i)) = (true, r) ↔ _
    by_cases htype : (partitionEntry f i).type = type
    · rw [if_pos htype, Prod.mk.injEq, decide_eq_true_iff]
      constructor
      · rintro ⟨hseal, rfl⟩
        refine ⟨i, le_refl i, by omega, rfl, htype, hseal, ?_⟩
        intro k hik hki
        omega
      · rintro ⟨j, hle, -, hr, -, hseal, hbefore⟩
        have hj : j = i := by
          by_contra hne
          exact (hbefore i (le_refl i) (by omega)).1 htype
        subst hj
        exact ⟨hseal, hr.symm⟩
    rw [if_neg htype]
    by_cases hzero : partitionEntry f i = .zero
    · rw [if_pos hzero]
      constructor
      · intro h
        cases h
      · rintro ⟨j, hle, -, -, hj, -, hbefore⟩
        have hne : j ≠ i := by
          rintro rfl
          exact htype hj
        exact absurd hzero (hbefore i (le_refl i) (by omega)).2
    · rw [if_neg hzero, ih]
      constructor
      · rintro ⟨j, hle, hlt, hr, hj, hseal, hbefore⟩
        refine ⟨j, by omega, by omega, hr, hj, hseal, ?_⟩
        intro k hik hkj
        by_cases hi : k = i
        · rw [hi]
          exact ⟨htype, hzero⟩
        · exact hbefore k (by omega) hkj
      · rintro ⟨j, hle, hlt, hr, hj, hseal, hbefore⟩
        have hne : j ≠ i := by
          rintro rfl
          exact htype hj
        refine ⟨j, by omega, by omega, hr, hj, hseal, ?_⟩
        intro k hik hkj
        exact hbefore k (by omega) hkj

/-- Only the zero entry is made of zero fields. -/
theorem partitionBytes_of_zero {i : ℕ} (hzero : partitionEntry f i = .zero) :
    (partitionBytes f i).take (partitionInfoSize - 4) = List.replicate 12 0 := by
  obtain ⟨htype, hstart, hsize, -⟩ := PartitionInfo.mk.inj hzero
  have hlen : (partitionBytes f i).length = 16 := length_flashRead _ _ _
  have hfield (off : ℕ) (hoff : off + 4 ≤ 16) (hle : u32At (partitionBytes f i) off = 0) :
      ((partitionBytes f i).drop off).take 4 = List.replicate 4 0 := by
    have hfour : (((partitionBytes f i).drop off).take 4).length = 4 := by
      rw [List.length_take, List.length_drop, hlen]
      omega
    have hback := leBytes_le (((partitionBytes f i).drop off).take 4)
    rw [hfour] at hback
    rw [← hback]
    show leBytes 4 (u32At (partitionBytes f i) off) = _
    rw [hle]
    decide
  have hsplit : (partitionBytes f i).take 12 = ((partitionBytes f i).drop 0).take 4 ++
      (((partitionBytes f i).drop 4).take 4 ++ ((partitionBytes f i).drop 8).take 4) := by
    have htwelve : (12 : ℕ) = 4 + (4 + 4) := rfl
    rw [List.drop_zero, htwelve, List.take_add, List.take_add, List.drop_drop]
  show (partitionBytes f i).take 12 = _
  rw [hsplit, hfield 0 (by decide) htype, hfield 4 (by decide) hstart, hfield 8 (by decide) hsize]
  decide

/-- The terminator does not carry its checksum. -/
theorem EntrySealed.ne_zero {i : ℕ} (hseal : EntrySealed f i) : partitionEntry f i ≠ .zero := by
  intro hzero
  have hcrc : (partitionEntry f i).crc32 = 0 := congrArg PartitionInfo.crc32 hzero
  rw [EntrySealed, partitionBytes_of_zero hzero, hcrc] at hseal
  revert hseal
  decide +kernel

/-! ### Agreement -/

/-- An entry before the terminator. -/
def Listed (f : Flash) (i : ℕ) : Prop := i < partitionCount ∧ ∀ j ≤ i, partitionEntry f j ≠ .zero

/-- The first entry of a type before the terminator. -/
def FirstOf (f : Flash) (type i : ℕ) : Prop :=
  Listed f i ∧ (partitionEntry f i).type = type ∧ ∀ j < i, (partitionEntry f j).type ≠ type

theorem exists_firstOf {i : ℕ} (hi : Listed f i) (htype : (partitionEntry f i).type = type) : ∃ j, FirstOf f type j := by
  classical
  have hex : ∃ j, (partitionEntry f j).type = type := ⟨i, htype⟩
  have hle : Nat.find hex ≤ i := Nat.find_min' hex htype
  refine ⟨Nat.find hex, ⟨lt_of_le_of_lt hle hi.1, ?_⟩, Nat.find_spec hex, ?_⟩
  · intro j hj
    exact hi.2 j (le_trans hj hle)
  · intro j hj
    exact Nat.find_min hex hj

theorem lnVerifyPartitionTable_iff : lnVerifyPartitionTable f = true ↔
    ∃ last < partitionCount, partitionEntry f last = .zero ∧ ∀ j < last, partitionEntry f j ≠ .zero ∧ EntrySealed f j := by
  rw [lnVerifyPartitionTable, verifyPartitionLoop_iff]
  constructor
  · rintro ⟨last, -, hlt, hlast, hbefore⟩
    refine ⟨last, by omega, hlast, ?_⟩
    intro j hj
    exact hbefore j j.zero_le hj
  · rintro ⟨last, hlt, hlast, hbefore⟩
    refine ⟨last, last.zero_le, by omega, hlast, ?_⟩
    intro j _ hj
    exact hbefore j hj

/-- What a lookup hands out, whatever the table holds. -/
theorem lnFetchPartitionInfo_iff (info r : PartitionInfo) : lnFetchPartitionInfo f type info = (true, r) ↔
    ∃ j, FirstOf f type j ∧ EntrySealed f j ∧ r = partitionEntry f j := by
  rw [lnFetchPartitionInfo, fetchPartitionLoop_iff]
  constructor
  · rintro ⟨j, -, hlt, hr, hj, hseal, hbefore⟩
    refine ⟨j, ⟨⟨by rw [partitionCount]; omega, ?_⟩, hj, ?_⟩, hseal, hr⟩
    · intro k hk
      rcases hk.eq_or_lt with rfl | hkj
      · exact hseal.ne_zero
      · exact (hbefore k k.zero_le hkj).2
    · intro k hk
      exact (hbefore k k.zero_le hk).1
  · rintro ⟨j, ⟨⟨hlt, hlisted⟩, hj, hbefore⟩, hseal, hr⟩
    rw [partitionCount] at hlt
    refine ⟨j, j.zero_le, by omega, hr, hj, hseal, ?_⟩
    intro k _ hk
    exact ⟨hbefore k hk, hlisted k hk.le⟩

theorem FirstOf.unique {i j : ℕ} (hi : FirstOf f type i) (hj : FirstOf f type j) : i = j := by
  rcases lt_trichotomy i j with hlt | heq | hgt
  · exact absurd hi.2.1 (hj.2.2 i hlt)
  · exact heq
  · exact absurd hj.2.1 (hi.2.2 j hgt)

/-- On a table that verifies, a lookup succeeds exactly for the types that are listed, and
hands out the first entry of the type. On any table, what it hands out is a sealed entry
of the type with no entry of that type and no terminator before it. -/
theorem partition_lookup_agrees (f : Flash) :
    (lnVerifyPartitionTable f = true → ∀ (type : ℕ) (info : PartitionInfo),
      ((lnFetchPartitionInfo f type info).1 = true ↔ ∃ j, Listed f j ∧ (partitionEntry f j).type = type) ∧
      ∀ j, FirstOf f type j → lnFetchPartitionInfo f type info = (true, partitionEntry f j)) ∧
    ∀ (type : ℕ) (info r : PartitionInfo), lnFetchPartitionInfo f type info = (true, r) →
      ∃ j < partitionCount, r = partitionEntry f j ∧ (partitionEntry f j).type = type ∧ EntrySealed f j ∧
        ∀ k < j, (partitionEntry f k).type ≠ type ∧ partitionEntry f k ≠ .zero := by
  constructor
  · intro hverify type info
    obtain ⟨last, -, hlast, hbefore⟩ := lnVerifyPartitionTable_iff.mp hverify
    have hsealed {j : ℕ} (hj : Listed f j) : EntrySealed f j := by
      have hlt : j < last := by
        by_contra hge
        exact hj.2 last (by omega) hlast
      exact (hbefore j hlt).2
    have hfirst : ∀ j, FirstOf f type j → lnFetchPartitionInfo f type info = (true, partitionEntry f j) := by
      intro j hj
      exact (lnFetchPartitionInfo_iff _ _).mpr ⟨j, hj, hsealed hj.1, rfl⟩
    refine ⟨⟨?_, ?_⟩, hfirst⟩
    · intro h
      obtain ⟨j, hj, -, -⟩ := (lnFetchPartitionInfo_iff info (lnFetchPartitionInfo f type info).2).mp (Prod.ext h rfl)
      exact ⟨j, hj.1, hj.2.1⟩
    · rintro ⟨i, hi, htype⟩
      obtain ⟨j, hj⟩ := exists_firstOf hi htype
      rw [hfirst j hj]
  · intro type info r h
    obtain ⟨j, ⟨⟨hlt, hlisted⟩, htype, hbefore⟩, hseal, hr⟩ := (lnFetchPartitionInfo_iff info r).mp h
    refine ⟨j, hlt, hr, htype, hseal, ?_⟩
    intro k hk
    exact ⟨hbefore k hk, hlisted k hk.le⟩

/-- A table of two entries and its terminator. -/
def sampleTable : Flash :=
  deviceWith [(partitionTabBase, tableEntry partitionTypeApp 0xA000 0x1000 ++ tableEntry partitionTypeOta 0x20000 0x2000 ++
    List.replicate partitionInfoSize 0)]

/-- In the sample table the type of the terminator is found at the first entry, and a type
that is not listed is not found. -/
theorem partition_lookup_agrees_sample :
    (lnFetchPartitionInfo sampleTable partitionTypeApp .zero).1 = true ∧
    (lnFetchPartitionInfo sampleTable 5 .zero).1 = false ∧
    ((lnFetchPartitionInfo sampleTable partitionTypeOta .zero).1 = true ↔
      ∃ j, Listed sampleTable j ∧ (partitionEntry sampleTable j).type = partitionTypeOta) :=
  ⟨by decide +kernel, by decide +kernel,
    ((partition_lookup_agrees sampleTable).1 (by decide +kernel) partitionTypeOta .zero).1⟩

end Ln882x.Ota
