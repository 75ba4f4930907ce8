import Ln882x.Http.Response

/-! The chunked transfer coding of RFC 7230, section 4.1. A message is a run of chunks, each
with its size in hexadecimal digits on a line of its own, then a chunk of size zero and a
trailer of header lines that an empty line ends. The decoder gives the body back, and the
bytes behind the message. -/

namespace Ln882x.Http

open Nor (Bytes)

/-! ### Decoding -/

/-- The bytes in front of the first line end, and those behind it. -/
def splitLine : Bytes → Option (Bytes × Bytes)
  | [] => none
  | c :: cs =>
    if c = cr ∧ cs.head? = some lf then some ([], cs.tail)
    else (splitLine cs).map fun (line, rest) => (c :: line, rest)

def semicolon : UInt8 := 59

/-- The size on a line; behind the digits there may be extensions. -/
def lineSize (line : Bytes) : Option ℕ :=
  let digits := line.takeWhile fun c => (digit 16 c).isSome
  let ext := line.drop digits.length
  if digits ≠ [] ∧ (ext = [] ∨ ext.head? = some semicolon) then some (digitsValue 16 digits) else none

/-- The bytes behind the empty line that ends the trailer. -/
def skipTrailer : ℕ → Bytes → Option Bytes
  | 0, _ => none
  | n + 1, s =>
    match splitLine s with
    | none => none
    | some ([], rest) => some rest
    | some (_ :: _, rest) => skipTrailer n rest

def decodeChunks : ℕ → Bytes → Option (Bytes × Bytes)
  | 0, _ => none
  | n + 1, s =>
    match splitLine s with
    | none => none
    | some (line, rest) =>
      match lineSize line with
      | none => none
      | some size =>
        if size = 0 then (skipTrailer (rest.length + 1) rest).map fun rest => ([], rest)
        else if (rest.drop size).take 2 = crlf then
          (decodeChunks n (rest.drop (size + 2))).map fun (body, behind) => (rest.take size ++ body, behind)
        else none

/-- The body of a chunked message, and the bytes behind it. Each chunk takes at least one byte. -/
def decodeChunked (s : Bytes) : Option (Bytes × Bytes) := decodeChunks (s.length + 1) s

/-! ### Hexadecimal digits -/

/-- The digits of a number in base sixteen, as `%x` prints them. -/
def hex (n : ℕ) : Bytes := (Nat.toDigits 16 n).map fun c => UInt8.ofNat c.toNat

theorem digit_digitChar {d : ℕ} (h : d < 16) : digit 16 (UInt8.ofNat d.digitChar.toNat) = some d := by
  interval_cases d <;> decide

/-- The last digit of a number, behind those of the rest. -/
theorem hex_of_le {n : ℕ} (h : 16 ≤ n) : hex n = hex (n / 16) ++ hex (n % 16) := by
  have hlast : n % 16 < 16 := Nat.mod_lt n (by decide)
  rw [hex, Nat.toDigits_of_base_le (by decide) h, List.map_append, hex, hex, Nat.toDigits_of_lt_base hlast]

theorem hex_of_lt {n : ℕ} (h : n < 16) : hex n = [UInt8.ofNat n.digitChar.toNat] := by
  rw [hex, Nat.toDigits_of_lt_base h]
  rfl

theorem hex_ne_nil (n : ℕ) : hex n ≠ [] := by
  rw [hex, Ne, List.map_eq_nil_iff]
  exact Nat.toDigits_ne_nil

theorem hex_digits (n : ℕ) : ∀ c ∈ hex n, (digit 16 c).isSome := by
  induction n using Nat.strong_induction_on with
  | _ n ih =>
    intro c hc
    by_cases hn : n < 16
    · rw [hex_of_lt hn, List.mem_singleton] at hc
      rw [hc, digit_digitChar hn]
      rfl
    · rw [hex_of_le (by omega), List.mem_append] at hc
      rcases hc with hc | hc
      · exact ih (n / 16) (by omega) c hc
      · exact ih (n % 16) (by omega) c hc

theorem digitsValue_hex (n : ℕ) : digitsValue 16 (hex n) = n := by
  have hone {d : ℕ} (h : d < 16) : digitsValue 16 (hex d) = d := by
    simp [hex_of_lt h, digitsValue, digit_digitChar h]
  induction n using Nat.strong_induction_on with
  | _ n ih =>
    by_cases hn : n < 16
    · exact hone hn
    · have hlast : n % 16 < 16 := Nat.mod_lt n (by decide)
      have hlen : (hex (n % 16)).length = 1 := by rw [hex_of_lt hlast, List.length_singleton]
      rw [hex_of_le (by omega), digitsValue_append, ih (n / 16) (by omega), hone hlast, hlen]
      omega

/-! ### Encoding -/

/-- A block as a chunk. -/
def encodeChunk (block : Bytes) : Bytes := hex block.length ++ crlf ++ block ++ crlf

/-- The chunk of size zero and an empty trailer. -/
def zeroChunk : Bytes := hex 0 ++ crlf ++ crlf

def encodeChunked (blocks : List Bytes) : Bytes := blocks.flatMap encodeChunk ++ zeroChunk

theorem splitLine_append {line : Bytes} (h : cr ∉ line) (rest : Bytes) :
    splitLine (line ++ crlf ++ rest) = some (line, rest) := by
  induction line with
  | nil => rfl
  | cons c cs ih =>
    have hc : c ≠ cr := fun hcr => h (hcr ▸ List.mem_cons_self)
    have hcs : cr ∉ cs := fun hcr => h (List.mem_cons_of_mem c hcr)
    rw [List.cons_append, List.cons_append, splitLine, if_neg fun hcr => hc hcr.1, ih hcs]
    rfl

theorem lineSize_hex (n : ℕ) : lineSize (hex n) = some n := by
  have htake : (hex n).takeWhile (fun c => (digit 16 c).isSome) = hex n :=
    List.takeWhile_eq_self_iff.mpr (hex_digits n)
  rw [lineSize, htake, List.drop_length, if_pos ⟨hex_ne_nil n, .inl rfl⟩, digitsValue_hex]

/-- The line with a size, in front of any tail. -/
theorem splitLine_hex (n : ℕ) (rest : Bytes) : splitLine (hex n ++ crlf ++ rest) = some (hex n, rest) := by
  refine splitLine_append (fun hcr => ?_) rest
  exact (digit_plain (hex_digits n cr hcr)).2.2.2.2.2.2.1 rfl

theorem decodeChunks_zeroChunk (n : ℕ) (rest : Bytes) :
    decodeChunks (n + 1) (zeroChunk ++ rest) = some ([], rest) := by
  have hend : splitLine (crlf ++ rest) = some ([], rest) :=
    splitLine_append List.not_mem_nil rest
  rw [zeroChunk, List.append_assoc _ crlf rest, decodeChunks, splitLine_hex]
  simp only [lineSize_hex, if_true, skipTrailer, hend, Option.map_some]

theorem decodeChunks_cons (n : ℕ) {block : Bytes} (hne : block ≠ []) (tail : Bytes) :
    decodeChunks (n + 1) (encodeChunk block ++ tail) =
      (decodeChunks n tail).map fun (body, behind) => (block ++ body, behind) := by
  have hsize : block.length ≠ 0 := fun h => hne (List.length_eq_zero_iff.mp h)
  have hsplit : encodeChunk block ++ tail = hex block.length ++ crlf ++ (block ++ (crlf ++ tail)) := by
    simp [encodeChunk]
  have htail : (block ++ (crlf ++ tail)).drop (block.length + 2) = tail := by
    rw [← List.drop_drop, List.drop_left]
    rfl
  rw [hsplit, decodeChunks, splitLine_hex]
  simp only [lineSize_hex, if_neg hsize, List.drop_left, List.take_left, htail]
  rfl

theorem decodeChunks_encode {blocks : List Bytes} (hne : ∀ block ∈ blocks, block ≠ []) (n : ℕ) (rest : Bytes) :
    decodeChunks (blocks.length + n + 1) (encodeChunked blocks ++ rest) = some (blocks.flatten, rest) := by
  induction blocks with
  | nil => exact decodeChunks_zeroChunk _ rest
  | cons block blocks ih =>
    have hcons : encodeChunked (block :: blocks) ++ rest = encodeChunk block ++ (encodeChunked blocks ++ rest) := by
      simp [encodeChunked]
    have hrounds : (block :: blocks).length + n + 1 = (blocks.length + n + 1) + 1 := by
      rw [List.length_cons]
      omega
    rw [hcons, hrounds, decodeChunks_cons _ (hne block List.mem_cons_self),
      ih fun b hb => hne b (List.mem_cons_of_mem _ hb)]
    rfl

theorem length_le_encodeChunked (blocks : List Bytes) : blocks.length ≤ (encodeChunked blocks).length := by
  induction blocks with
  | nil => exact Nat.zero_le _
  | cons block blocks ih =>
    simp only [encodeChunked, List.flatMap_cons, List.length_append, encodeChunk, List.length_cons] at ih ⊢
    have : crlf.length = 2 := rfl
    omega

/-- What is encoded is decoded to the blocks put together, whatever stands behind it. -/
theorem decodeChunked_encodeChunked {blocks : List Bytes} (hne : ∀ block ∈ blocks, block ≠ []) (rest : Bytes) :
    decodeChunked (encodeChunked blocks ++ rest) = some (blocks.flatten, rest) := by
  have hle := length_le_encodeChunked blocks
  obtain ⟨n, hn⟩ : ∃ n, (encodeChunked blocks ++ rest).length + 1 = blocks.length + n + 1 := by
    rw [List.length_append]
    exact ⟨(encodeChunked blocks).length + rest.length - blocks.length, by omega⟩
  rw [decodeChunked, hn]
  exact decodeChunks_encode hne n rest

end Ln882x.Http
