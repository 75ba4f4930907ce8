import Ln882x.Http.Turns

/-! Well-formed responses, and what the parser makes of their parts: header lines of the
form `Name: value`, the number behind `Content-Length`, and the lines with the sizes of
chunks. -/

namespace Ln882x.Http

open Nor (Bytes)

def colon : UInt8 := 58

/-! ### The shape of a response -/

/-- A header line `Name: value`. -/
structure Field where
  name : Bytes
  value : Bytes
  name_ne : name ≠ []
  name_token : ∀ c ∈ name, c ≠ 0 ∧ c ≠ tab ∧ c ≠ lf ∧ c ≠ cr ∧ c ≠ space ∧ c ≠ colon
  value_clean : ∀ c ∈ value, c ≠ 0 ∧ c ≠ lf ∧ c ≠ cr

def Field.line (f : Field) : Bytes := f.name ++ colon :: space :: f.value

/-- The name, in any case. -/
def Field.Named (f : Field) (name : Bytes) : Prop := f.name.map toLower = name

/-- A chunk with the line of its size; `ext` is a chunk extension. -/
structure Chunk where
  digits : Bytes
  ext : Bytes
  data : Bytes
  digits_ne : digits ≠ []
  digits_hex : ∀ c ∈ digits, (digit 16 c).isSome
  size : digitsValue 16 digits = data.length
  ext_clean : ∀ c ∈ ext, c ≠ 0 ∧ c ≠ lf ∧ c ≠ cr
  ext_head : ∀ c, ext.head? = some c → c = 59 ∨ c = space ∨ c = tab

def Chunk.line (ch : Chunk) : Bytes := ch.digits ++ ch.ext

/-- The chunks, the last one of which is empty, and the blank line. -/
def chunkStream (last : Chunk) : List Chunk → Bytes
  | [] => last.line ++ crlf ++ crlf
  | ch :: chunks => ch.line ++ crlf ++ (ch.data ++ crlf ++ chunkStream last chunks)

inductive Framing where
  | length (digits content : Bytes)
  | chunked (chunks : List Chunk) (last : Chunk)

namespace Framing

def bytes : Framing → Bytes
  | .length _ content => content
  | .chunked chunks last => chunkStream last chunks

def body : Framing → Bytes
  | .length _ content => content
  | .chunked chunks _ => chunks.flatMap Chunk.data

/-- The header declares the framing: one `Content-Length` and no `Transfer-Encoding`, or
a `Transfer-Encoding` that is `chunked`. -/
def Declared (fields : List Field) : Framing → Prop
  | .length digits content =>
    digits ≠ [] ∧ (∀ c ∈ digits, (digit 10 c).isSome) ∧ digitsValue 10 digits = content.length ∧
    ∃ before f after, fields = before ++ f :: after ∧ f.Named (ascii "content-length") ∧ f.value = digits ∧
      ∀ g ∈ before ++ after, ¬ g.Named (ascii "content-length") ∧ ¬ g.Named (ascii "transfer-encoding")
  | .chunked chunks last =>
    (∃ f ∈ fields, f.Named (ascii "transfer-encoding") ∧ f.value.map toLower = ascii "chunked") ∧
    (∀ ch ∈ chunks, ch.data ≠ []) ∧ last.data = []

end Framing

structure Response where
  status : Bytes
  fields : List Field
  framing : Framing
  status_clean : ∀ c ∈ status, c ≠ 0 ∧ c ≠ lf ∧ c ≠ cr
  declared : framing.Declared fields

namespace Response

def statusLine (R : Response) : Bytes := ascii "HTTP/1.1" ++ space :: R.status

def lines (R : Response) : List Bytes := R.statusLine :: R.fields.map Field.line

end Response

/-- Lines with their ends. -/
def lineStream (lines : List Bytes) (tail : Bytes) : Bytes := lines.flatMap (· ++ crlf) ++ tail

def Response.bytes (R : Response) : Bytes := lineStream R.lines (crlf ++ R.framing.bytes)

/-! ### Bytes -/

theorem forall_byte {P : UInt8 → Prop} (h : ∀ n < 256, P (UInt8.ofNat n)) (c : UInt8) : P c := by
  have := h c.toNat c.toNat_lt
  rwa [UInt8.ofNat_toNat] at this

theorem toLower_eq_colon {c : UInt8} : toLower c = colon ↔ c = colon :=
  forall_byte (P := fun c => toLower c = colon ↔ c = colon) (by decide +kernel) c

/-- A digit is no blank, sign, line end or letter of a prefix. -/
theorem digit_plain {c : UInt8} (h : (digit 16 c).isSome) :
    isSpace c = false ∧ isBlank c = false ∧ c ≠ 45 ∧ c ≠ 43 ∧ c ≠ 0 ∧ c ≠ lf ∧ c ≠ cr ∧ c ≠ space ∧
    toLower c ≠ 120 :=
  forall_byte (P := fun c => (digit 16 c).isSome → isSpace c = false ∧ isBlank c = false ∧ c ≠ 45 ∧ c ≠ 43 ∧
    c ≠ 0 ∧ c ≠ lf ∧ c ≠ cr ∧ c ≠ space ∧ toLower c ≠ 120) (by decide +kernel) c h

theorem digit_of_decimal {c : UInt8} (h : (digit 10 c).isSome) : (digit 16 c).isSome :=
  forall_byte (P := fun c => (digit 10 c).isSome → (digit 16 c).isSome) (by decide +kernel) c h

/-! ### Numbers -/

theorem digitsValue_append (base : ℕ) (xs ys : Bytes) :
    digitsValue base (xs ++ ys) = digitsValue base xs * base ^ ys.length + digitsValue base ys := by
  induction ys using List.reverseRecOn with
  | nil => simp [digitsValue]
  | append_singleton ys y ih =>
    have hsnoc (zs : Bytes) : digitsValue base (zs ++ [y])
        = digitsValue base zs * base + (digit base y).getD 0 := by
      simp only [digitsValue, List.foldl_append, List.foldl_cons, List.foldl_nil]
    rw [← List.append_assoc, hsnoc, hsnoc, ih, List.length_append, List.length_singleton, pow_succ]
    ring

/-- `strtol` on digits, which something else may follow. -/
theorem strtol_digits {base : ℕ} {lead ds ext : Bytes} (hlead : ∀ c ∈ lead, isSpace c = true)
    (hbase : base = 10 ∨ base = 16) (hne : ds ≠ []) (hds : ∀ c ∈ ds, (digit base c).isSome)
    (hext : ∀ c, ext.head? = some c → digit base c = none ∧ toLower c ≠ 120) :
    strtol base (lead ++ (ds ++ ext)) = min longMax (digitsValue base ds) := by
  have hplain {c : UInt8} (hc : c ∈ ds) := digit_plain (c := c) (by
    rcases hbase with rfl | rfl
    · exact digit_of_decimal (hds c hc)
    · exact hds c hc)
  obtain ⟨d, ds, rfl⟩ := List.exists_cons_of_ne_nil hne
  have hd := hplain List.mem_cons_self
  have hdrop : (lead ++ (d :: ds ++ ext)).dropWhile isSpace = d :: (ds ++ ext) := by
    rw [List.dropWhile_append_of_pos hlead, List.cons_append, List.dropWhile_cons_of_neg (by simp [hd.1])]
  have htake : (d :: (ds ++ ext)).takeWhile (fun c => (digit base c).isSome) = d :: ds := by
    rw [← List.cons_append, List.takeWhile_append_of_pos hds]
    cases ext with
    | nil => simp
    | cons c cs => simp [(hext c rfl).1]
  -- the second byte is a digit, or the first behind the digits: in no case an `x`
  have hx : ¬ (base = 16 ∧ ((d :: (ds ++ ext)).take 2).map toLower = ascii "0x") := by
    rintro ⟨-, h⟩
    have hlit : ascii "0x" = [48, 120] := by decide
    obtain ⟨c, hc, hcx⟩ : ∃ c, (ds ++ ext).head? = some c ∧ toLower c = 120 := by
      rw [hlit] at h
      cases hde : ds ++ ext with
      | nil => simp [hde] at h
      | cons c cs =>
        rw [hde] at h
        obtain ⟨-, hcx⟩ : toLower d = 48 ∧ toLower c = 120 := by simpa using h
        exact ⟨c, rfl, hcx⟩
    cases ds with
    | nil => exact (hext c hc).2 hcx
    | cons e es =>
      cases hc
      exact (hplain (List.mem_cons_of_mem d List.mem_cons_self)).2.2.2.2.2.2.2.2 hcx
  rw [strtol, hdrop]
  simp only [hd.2.2.1, hd.2.2.2.1, if_false, strtolMagnitude, hx, htake]

/-- A number that fits a `long` is a 32-bit value. -/
theorem int32_min (n : ℕ) : int32 (min longMax n) = min longMax n := by
  rw [int32, Int.bmod_eq_of_le] <;> simp only [longMax] <;> omega

/-- The size of a chunk as the parser reads it; the line end of the chunk before may have
left its line feed in front. -/
theorem strtol_chunk (ch : Chunk) {lead : Bytes} (hlead : lead = [] ∨ lead = [lf]) :
    int32 (strtol 16 (lead ++ ch.line)) = min longMax ch.data.length := by
  have hsp : ∀ c ∈ lead, isSpace c = true := by
    rcases hlead with rfl | rfl <;> decide +kernel
  have hext : ∀ c, ch.ext.head? = some c → digit 16 c = none ∧ toLower c ≠ 120 := by
    intro c hc
    rcases ch.ext_head c hc with rfl | rfl | rfl <;> decide
  rw [Chunk.line, strtol_digits hsp (.inr rfl) ch.digits_ne ch.digits_hex hext, ch.size, int32_min]

theorem clean_chunk (ch : Chunk) {lead : Bytes} (hlead : lead = [] ∨ lead = [lf]) :
    Clean (lead ++ ch.line) := by
  intro c hc
  simp only [Chunk.line, List.mem_append] at hc
  rcases hc with hc | hc | hc
  · rcases hlead with rfl | rfl
    · cases hc
    · cases List.mem_singleton.mp hc
      decide
  · have := digit_plain (ch.digits_hex c hc)
    exact ⟨this.2.2.2.2.1, this.2.2.2.2.2.2.1⟩
  · have := ch.ext_clean c hc
    exact ⟨this.1, this.2.2⟩

/-! ### Header lines -/

theorem skipBlanks_token {c : UInt8} {cs : Bytes} (h : c ≠ 0 ∧ c ≠ lf ∧ isBlank c = false) :
    skipBlanks (c :: cs) = some (c :: cs) := by
  simp [skipBlanks, h.1, h.2.1, h.2.2]

/-- A token without blanks and line ends, in front of a blank or at the end of the line. -/
theorem strtoken_token {token rest : Bytes} (hne : token ≠ [])
    (htok : ∀ c ∈ token, c ≠ 0 ∧ c ≠ lf ∧ isBlank c = false)
    (hrest : rest = [] ∨ rest.head? = some space) (size : ℕ) :
    strtoken (token ++ rest) size = some (token.take (size - 1), rest.tail) := by
  have hstart : skipBlanks (token ++ rest) = some (token ++ rest) := by
    obtain ⟨c, cs, rfl⟩ := List.exists_cons_of_ne_nil hne
    exact skipBlanks_token (htok c List.mem_cons_self)
  have hblank {c : UInt8} (h : isBlank c = false) : c ≠ space := by
    rintro rfl
    exact absurd h (by decide)
  have htake : (token ++ rest).takeWhile (fun c => c ≠ space ∧ c ≠ lf ∧ c ≠ 0) = token := by
    rw [List.takeWhile_append_of_pos fun c hc => by simp [htok c hc, hblank (htok c hc).2.2]]
    rcases hrest with rfl | hr
    · simp
    · obtain ⟨tail, rfl⟩ := List.head?_eq_some_iff.mp hr
      simp
  have hlast : token.rdropWhile isBlank = token :=
    List.rdropWhile_eq_self_iff.mpr fun hl => by simp [htok _ (List.getLast_mem hl)]
  have htail : (if rest.head? = some space then rest.tail else rest) = rest.tail := by
    rcases hrest with rfl | hr
    · rfl
    · rw [if_pos hr]
  simp only [strtoken, hstart, htake, List.drop_left, hlast, htail]

theorem Field.strtoken_line (f : Field) :
    strtoken f.line 256 = some ((f.name ++ [colon]).take 255, f.value) := by
  have hline : f.line = (f.name ++ [colon]) ++ space :: f.value := by simp [Field.line]
  rw [hline]
  refine strtoken_token (by simp) ?_ (.inr rfl) 256
  intro c hc
  rcases List.mem_append.mp hc with hc | hc
  · obtain ⟨h0, htab, hlf, -, hsp, -⟩ := f.name_token c hc
    exact ⟨h0, hlf, by simp [isBlank, htab, hsp]⟩
  · cases List.mem_singleton.mp hc
    decide

/-- The colon stands in the same place on both sides. -/
theorem take_colon_eq_iff {l name : Bytes} (hl : colon ∉ l) (hname : colon ∉ name) :
    (l ++ [colon]).take (name.length + 1) = name ++ [colon] ↔ l = name := by
  constructor
  · intro h
    induction l generalizing name with
    | nil =>
      cases name with
      | nil => rfl
      | cons c cs =>
        simp only [List.nil_append, List.cons_append, List.length_cons, List.take_succ_cons, List.take_nil,
          List.cons.injEq] at h
        exact absurd h.1 (fun h => hname (h ▸ List.mem_cons_self))
    | cons d ds ih =>
      cases name with
      | nil =>
        simp only [List.cons_append, List.length_nil, Nat.zero_add, List.take_succ_cons, List.take_zero,
          List.nil_append, List.cons.injEq, and_true] at h
        exact absurd List.mem_cons_self (h ▸ hl)
      | cons c cs =>
        simp only [List.cons_append, List.length_cons, List.take_succ_cons, List.cons.injEq] at h
        obtain ⟨rfl, h⟩ := h
        rw [ih (fun hc => hl (List.mem_cons_of_mem _ hc)) (fun hc => hname (List.mem_cons_of_mem _ hc)) h]
  · rintro rfl
    rw [List.take_of_length_le (by simp)]

/-- The name of a field decides the comparison with a name and its colon. -/
theorem startsWithNoCase_name (f : Field) {name : Bytes} (hname : colon ∉ name) (hlen : name.length < 255) :
    startsWithNoCase ((f.name ++ [colon]).take 255) (name ++ [colon]) = true ↔ f.Named name := by
  have htake : ((f.name ++ [colon]).take 255).take (name ++ [colon]).length
      = (f.name ++ [colon]).take (name.length + 1) := by
    rw [List.take_take, List.length_append, List.length_singleton, Nat.min_eq_left (by omega)]
  have hcolon : toLower colon = colon := by decide
  have hno : colon ∉ f.name.map toLower := by
    intro h
    obtain ⟨c, hc, hl⟩ := List.mem_map.mp h
    exact (f.name_token c hc).2.2.2.2.2 (toLower_eq_colon.mp hl)
  simp only [startsWithNoCase, htake, decide_eq_true_eq, Field.Named, List.map_take, List.map_append,
    List.map_cons, List.map_nil, hcolon]
  exact take_colon_eq_iff hno hname

/-- A line changes the length only if it is named so, and the flag likewise. -/
theorem Field.keeps (f : Field) (r : HttpHeader) :
    (¬ f.Named (ascii "content-length") → (httpParseHeaderField r f.line).2.contentLength = r.contentLength) ∧
    (¬ f.Named (ascii "transfer-encoding") → (httpParseHeaderField r f.line).2.chunked = r.chunked) := by
  have hlen := @startsWithNoCase_name f (ascii "content-length") (by decide) (by decide)
  have henc := @startsWithNoCase_name f (ascii "transfer-encoding") (by decide) (by decide)
  have hlit1 : ascii "content-length:" = ascii "content-length" ++ [colon] := by decide
  have hlit2 : ascii "transfer-encoding:" = ascii "transfer-encoding" ++ [colon] := by decide
  simp only [httpParseHeaderField, f.strtoken_line, hlit1, hlit2]
  cases strtoken f.value 256 with
  | none => exact ⟨fun _ => rfl, fun _ => rfl⟩
  | some t =>
    obtain ⟨t2, rest⟩ := t
    dsimp only
    rw [← hlen, ← henc]
    generalize (f.name ++ [colon]).take 255 = t1
    generalize startsWithNoCase t1 (ascii "http") = b1, startsWithNoCase t1 (ascii "set-cookie:") = b2,
      startsWithNoCase t1 (ascii "location:") = b3, startsWithNoCase t1 (ascii "content-type:") = b4,
      startsWithNoCase t1 (ascii "content-length" ++ [colon]) = b5,
      startsWithNoCase t1 (ascii "transfer-encoding" ++ [colon]) = b6,
      startsWithNoCase t2 (ascii "chunked") = b7, startsWithNoCase t1 (ascii "connection:") = b8,
      startsWithNoCase t2 (ascii "close") = b9
    cases b1 <;> cases b2 <;> cases b3 <;> cases b4 <;> try exact ⟨fun _ => rfl, fun _ => rfl⟩
    cases b5 with
    | true => exact ⟨fun h => absurd rfl h, fun _ => rfl⟩
    | false =>
    cases b6 with
    | true => exact ⟨fun _ => by cases b7 <;> rfl, fun h => absurd rfl h⟩
    | false =>
    cases b8 with
    | true => exact ⟨fun _ => by cases b9 <;> rfl, fun _ => by cases b9 <;> rfl⟩
    | false => exact ⟨fun _ => rfl, fun _ => rfl⟩

theorem startsWithNoCase_lower (f : Field) {name : Bytes} (h : f.Named name) (lit : Bytes) :
    startsWithNoCase ((f.name ++ [colon]).take 255) lit
      = decide (((name ++ [colon]).take 255).take lit.length = lit) := by
  have hcolon : toLower colon = colon := by decide
  unfold Field.Named at h
  simp only [startsWithNoCase, List.map_take, List.map_append, List.map_cons, List.map_nil, hcolon, h]

/-- The length that is taken from a `Content-Length` line: the first 255 digits, as far as
they fit a `long`. -/
def parsedLength (digits : Bytes) : ℕ := min (2 ^ 31 - 1) (digitsValue 10 (digits.take 255))

theorem Field.sets_contentLength (f : Field) (h : f.Named (ascii "content-length")) (hne : f.value ≠ [])
    (hv : ∀ c ∈ f.value, (digit 10 c).isSome) (r : HttpHeader) :
    (httpParseHeaderField r f.line).2 = { r with contentLength := parsedLength f.value } := by
  have hplain {c : UInt8} (hc : c ∈ f.value) := digit_plain (digit_of_decimal (hv c hc))
  have htok : strtoken f.value 256 = some (f.value.take 255, []) := by
    have := @strtoken_token f.value [] hne
      (fun c hc => ⟨(hplain hc).2.2.2.2.1, (hplain hc).2.2.2.2.2.1, (hplain hc).2.1⟩) (.inl rfl) 256
    rwa [List.append_nil] at this
  have hval : int32 (atoi (f.value.take 255)) = parsedLength f.value := by
    have hnil := @strtol_digits 10 [] (f.value.take 255) [] (by simp)
      (.inl rfl) (by simpa using hne) (fun c hc => hv c (List.mem_of_mem_take hc)) (by simp)
    rw [List.nil_append, List.append_nil] at hnil
    rw [atoi, hnil, int32_min, parsedLength]
    simp only [longMax]
    omega
  simp only [httpParseHeaderField, f.strtoken_line, htok, startsWithNoCase_lower f h, hval]
  rw [if_neg (by decide), if_neg (by decide), if_neg (by decide), if_neg (by decide), if_pos (by decide)]

theorem Field.sets_chunked (f : Field) (h : f.Named (ascii "transfer-encoding"))
    (hv : f.value.map toLower = ascii "chunked") (r : HttpHeader) :
    (httpParseHeaderField r f.line).2.chunked = true := by
  have h7 : (ascii "chunked").length = 7 := by decide
  have hlen : f.value.length = 7 := by rw [← h7, ← hv, List.length_map]
  have hplain : ∀ c ∈ f.value, c ≠ 0 ∧ c ≠ lf ∧ isBlank c = false := by
    intro c hc
    have hmem : toLower c ∈ ascii "chunked" := hv ▸ List.mem_map_of_mem hc
    exact forall_byte (P := fun c => toLower c ∈ ascii "chunked" → c ≠ 0 ∧ c ≠ lf ∧ isBlank c = false)
      (by decide +kernel) c hmem
  have htok : strtoken f.value 256 = some (f.value, []) := by
    have := @strtoken_token f.value [] (by rintro h0; simp [h0] at hlen) hplain (.inl rfl) 256
    rwa [List.append_nil, List.take_of_length_le (by omega)] at this
  have hstart : startsWithNoCase f.value (ascii "chunked") = true := by
    rw [startsWithNoCase, h7, List.take_of_length_le hlen.le, hv, decide_eq_true rfl]
  simp only [httpParseHeaderField, f.strtoken_line, htok, startsWithNoCase_lower f h, hstart]
  rw [if_neg (by decide), if_neg (by decide), if_neg (by decide), if_neg (by decide), if_neg (by decide),
    if_pos (by decide)]
  rfl

theorem Response.statusLine_keeps (R : Response) (r : HttpHeader) :
    (httpParseHeaderField r R.statusLine).2.contentLength = r.contentLength ∧
    (httpParseHeaderField r R.statusLine).2.chunked = r.chunked := by
  have htok : strtoken R.statusLine 256 = some ((ascii "HTTP/1.1").take 255, R.status) :=
    strtoken_token (by decide) (by decide +kernel) (.inr rfl) 256
  simp only [httpParseHeaderField, htok]
  cases strtoken R.status 256 with
  | none => exact ⟨rfl, rfl⟩
  | some t =>
    dsimp only
    rw [if_pos (by decide)]
    exact ⟨rfl, rfl⟩

/-! ### The whole header -/

/-- The response after the header lines. -/
def afterLines (lines : List Bytes) (r : HttpHeader) : HttpHeader :=
  lines.foldl (fun r line => (httpParseHeaderField r line).2) r

theorem afterLines_keeps (fields : List Field) (r : HttpHeader)
    (h : ∀ f ∈ fields, ¬ f.Named (ascii "content-length") ∧ ¬ f.Named (ascii "transfer-encoding")) :
    (afterLines (fields.map Field.line) r).contentLength = r.contentLength ∧
    (afterLines (fields.map Field.line) r).chunked = r.chunked := by
  induction fields generalizing r with
  | nil => exact ⟨rfl, rfl⟩
  | cons f fields ih =>
    obtain ⟨hl, hc⟩ := h f List.mem_cons_self
    obtain ⟨h1, h2⟩ := ih (httpParseHeaderField r f.line).2 fun g hg => h g (List.mem_cons_of_mem f hg)
    exact ⟨h1.trans ((f.keeps r).1 hl), h2.trans ((f.keeps r).2 hc)⟩

theorem Response.afterLines_length (R : Response) {digits content : Bytes}
    (h : R.framing = .length digits content) :
    (afterLines R.lines httpinfoNew.response).contentLength = parsedLength digits ∧
    (afterLines R.lines httpinfoNew.response).chunked = false := by
  have hd := R.declared
  rw [h] at hd
  obtain ⟨hne, hdig, -, before, f, after, hf, hnamed, rfl, hothers⟩ := hd
  have hsplit (r : HttpHeader) : afterLines R.lines r = afterLines (after.map Field.line)
      (httpParseHeaderField (afterLines (before.map Field.line)
        (httpParseHeaderField r R.statusLine).2) f.line).2 := by
    simp only [afterLines, Response.lines, hf, List.map_append, List.map_cons, List.foldl_cons,
      List.foldl_append]
  have hafter := afterLines_keeps after
    (httpParseHeaderField (afterLines (before.map Field.line)
      (httpParseHeaderField httpinfoNew.response R.statusLine).2) f.line).2
    fun g hg => hothers g (List.mem_append_right _ hg)
  have hbefore := afterLines_keeps before (httpParseHeaderField httpinfoNew.response R.statusLine).2
    fun g hg => hothers g (List.mem_append_left _ hg)
  rw [hsplit, hafter.1, hafter.2, f.sets_contentLength hnamed hne hdig]
  exact ⟨rfl, hbefore.2.trans (R.statusLine_keeps _).2⟩

/-- A flag that is set stays. -/
theorem afterLines_chunked {lines : List Bytes} {r : HttpHeader} (h : r.chunked = true) :
    (afterLines lines r).chunked = true := by
  induction lines generalizing r with
  | nil => exact h
  | cons line lines ih => exact ih (by rw [httpParseHeaderField_chunked, h, Bool.true_or])

theorem Response.afterLines_chunked (R : Response) {chunks : List Chunk} {last : Chunk}
    (h : R.framing = .chunked chunks last) :
    (afterLines R.lines httpinfoNew.response).chunked = true := by
  have hd := R.declared
  rw [h] at hd
  obtain ⟨⟨f, hf, hnamed, hv⟩, -⟩ := hd
  obtain ⟨before, after, hfields⟩ := List.append_of_mem hf
  simp only [afterLines, Response.lines, hfields, List.map_append, List.map_cons, List.foldl_cons,
    List.foldl_append]
  exact Http.afterLines_chunked (f.sets_chunked hnamed hv _)

theorem Response.clean_lines (R : Response) : ∀ line ∈ R.lines, Clean line ∧ line ≠ [] := by
  intro line hline
  rcases List.mem_cons.mp hline with rfl | hline
  · refine ⟨fun c hc => ?_, by simp [Response.statusLine]⟩
    rcases List.mem_append.mp hc with hc | hc
    · have hall : ∀ c ∈ ascii "HTTP/1.1", c ≠ 0 ∧ c ≠ cr := by decide +kernel
      exact hall c hc
    · rcases List.mem_cons.mp hc with rfl | hc
      · decide
      · exact ⟨(R.status_clean c hc).1, (R.status_clean c hc).2.2⟩
  · obtain ⟨f, -, rfl⟩ := List.mem_map.mp hline
    refine ⟨fun c hc => ?_, by simp [Field.line]⟩
    rcases List.mem_append.mp hc with hc | hc
    · obtain ⟨h0, -, -, hcr, -⟩ := f.name_token c hc
      exact ⟨h0, hcr⟩
    · rcases List.mem_cons.mp hc with rfl | hc
      · decide
      · rcases List.mem_cons.mp hc with rfl | hc
        · decide
        · exact ⟨(f.value_clean c hc).1, (f.value_clean c hc).2.2⟩

end Ln882x.Http
