import Ln882x.Http.Chunked

/-! Uploads in blocks. `https_write` offers a buffer to the transport until all of it is
taken. `http_write` sends a block, with the line of its size in front and a line end behind
when the request is chunked, and closes the connection when one of these writes returns
something else than it expects. `http_write_end` sends what ends the message. -/

namespace Ln882x.Http

open Nor (Bytes)

/-! ### The transport -/

def errSslWantWrite : ℤ := -0x6880

def errSslBadInputData : ℤ := -0x7100

def errNetInvalidContext : ℤ := -0x0045

/-- What `mbedtls_ssl_write` or `mbedtls_net_send` returns in its `n`-th call, which offers
these bytes: how many it took, or an error. -/
def Transport := ℕ → Bytes → ℤ

/-- Some of what is offered is taken, so all of it in the end. -/
def Transport.Accepts (t : Transport) : Prop := ∀ n bytes, bytes ≠ [] → 0 < t n bytes ∧ t n bytes ≤ bytes.length

/-- `HTTP_INFO` for a request, with the calls of the transport so far and the bytes it took.
`error` is the variable `_error`. -/
structure Connection where
  isHttps : Bool
  chunked : Bool
  isInited : Bool
  error : ℤ
  calls : ℕ
  sent : Bytes

/-- One call of the transport; what `https_close` has freed takes nothing any more. -/
def Transport.send (t : Transport) (hi : Connection) (bytes : Bytes) : ℤ × Connection :=
  if hi.isInited then
    let ret := t hi.calls bytes
    (ret, { hi with calls := hi.calls + 1, sent := hi.sent ++ bytes.take ret.toNat })
  else (if hi.isHttps then errSslBadInputData else errNetInvalidContext, hi)

/-- The loop of `https_write`, with `slen` bytes taken so far. A transport that keeps asking
to be called again is where the rounds can run out. -/
def httpsWriteLoop (t : Transport) (buffer : Bytes) : ℕ → Connection → ℕ → Option (ℤ × Connection)
  | 0, _, _ => none
  | n + 1, hi, slen =>
    let (ret, hi) := t.send hi (buffer.drop slen)
    if ret = errSslWantWrite then httpsWriteLoop t buffer n hi slen
    else if ret ≤ 0 then some (ret, hi)
    else
      let slen := slen + ret.toNat
      if slen ≥ buffer.length then some (slen, hi) else httpsWriteLoop t buffer n hi slen

def httpsWrite (t : Transport) (rounds : ℕ) (hi : Connection) (buffer : Bytes) : Option (ℤ × Connection) :=
  httpsWriteLoop t buffer rounds hi 0

def httpsClose (hi : Connection) : ℤ × Connection :=
  if hi.isInited then (0, { hi with isInited := false }) else (-1, hi)

/-! ### Blocks -/

/-- `snprintf` into an array of zeros: the array, and the length the text has. -/
def snprintf (size : ℕ) (text : Bytes) : Bytes × ℕ :=
  let kept := text.take (size - 1)
  (kept ++ List.replicate (size - kept.length) 0, text.length)

def internalChunkedPrefixStrLen : ℕ := 10

/-- A write that has to return `len`; otherwise the connection is closed. The `Option` around
it is the loop of `https_write`. -/
def checkedWrite (t : Transport) (rounds : ℕ) (hi : Connection) (buffer : Bytes) (len : ℤ) :
    ExceptT Connection Option Connection :=
  match httpsWrite t rounds hi buffer with
  | none => none
  | some (ret, hi) =>
    if ret = len then pure hi else throw { (httpsClose hi).2 with error := ret }

/-- What a call returns: `len` when every write went through. -/
def finish (len : ℤ) (writes : ExceptT Connection Option Connection) : Option (ℤ × Connection) :=
  writes.run.map fun
    | .ok hi => (len, hi)
    | .error hi => (-1, hi)

def httpWrite (t : Transport) (rounds : ℕ) (hi : Connection) (data : Bytes) : Option (ℤ × Connection) :=
  if data = [] then some (-1, hi)
  else finish data.length do
    let hi ←
      if hi.chunked then
        let (prefixStr, prefixLen) := snprintf internalChunkedPrefixStrLen (hex data.length ++ crlf)
        checkedWrite t rounds hi (prefixStr.take prefixLen) data.length
      else pure hi
    let hi ← checkedWrite t rounds hi data data.length
    if hi.chunked then checkedWrite t rounds hi crlf 2 else pure hi

def httpWriteEnd (t : Transport) (rounds : ℕ) (hi : Connection) : Option (ℤ × Connection) :=
  let (str, len) := snprintf internalChunkedPrefixStrLen
    (if hi.chunked then ascii "0" ++ crlf ++ crlf else crlf ++ crlf)
  finish len (checkedWrite t rounds hi (str.take len) len)

/-- The calls for the blocks and the call at the end, with what each of them returns. -/
def upload (t : Transport) (rounds : ℕ) : Connection → List Bytes → Option (List ℤ × Connection)
  | hi, [] => (httpWriteEnd t rounds hi).map fun (ret, hi) => ([ret], hi)
  | hi, data :: blocks =>
    (httpWrite t rounds hi data).bind fun (ret, hi) =>
      (upload t rounds hi blocks).map fun (rets, hi) => (ret :: rets, hi)

/-! ### Writes that go through -/

variable {t : Transport} {hi hi' : Connection} {buffer bytes bytes' : Bytes} {rounds : ℕ}

/-- From `hi` to `hi'` the transport took `bytes`, and nothing else happened. -/
structure Took (hi : Connection) (bytes : Bytes) (hi' : Connection) : Prop where
  sent : hi'.sent = hi.sent ++ bytes
  isHttps : hi'.isHttps = hi.isHttps
  chunked : hi'.chunked = hi.chunked
  isInited : hi'.isInited = hi.isInited
  error : hi'.error = hi.error

theorem Took.trans {hi'' : Connection} (h : Took hi bytes hi') (h' : Took hi' bytes' hi'') :
    Took hi (bytes ++ bytes') hi'' :=
  ⟨by rw [h'.sent, h.sent, List.append_assoc], h'.isHttps.trans h.isHttps, h'.chunked.trans h.chunked,
    h'.isInited.trans h.isInited, h'.error.trans h.error⟩

/-- With a round for each of `need` bytes, `len` is returned and `bytes` are taken; with fewer
rounds there may be no result. -/
def Delivers (rounds need : ℕ) (hi : Connection) (bytes : Bytes) (len : ℤ) (r : Option (ℤ × Connection)) : Prop :=
  (rounds < need ∧ r = none) ∨ ∃ hi', r = some (len, hi') ∧ Took hi bytes hi'

theorem send_accepts (ht : t.Accepts) (hinit : hi.isInited = true) (hne : bytes ≠ []) :
    ∃ k : ℕ, 0 < k ∧ k ≤ bytes.length ∧ (t.send hi bytes).1 = k ∧ Took hi (bytes.take k) (t.send hi bytes).2 := by
  obtain ⟨hpos, hle⟩ := ht hi.calls bytes hne
  refine ⟨(t hi.calls bytes).toNat, by omega, by omega, ?_, ?_⟩
  · rw [Transport.send, if_pos hinit]
    exact (Int.toNat_of_nonneg hpos.le).symm
  · rw [Transport.send, if_pos hinit]
    exact ⟨rfl, rfl, rfl, rfl, rfl⟩

theorem httpsWriteLoop_delivers (ht : t.Accepts) (hinit : hi.isInited = true) {slen : ℕ}
    (hlt : slen < buffer.length) :
    Delivers rounds (buffer.length - slen) hi (buffer.drop slen) buffer.length
      (httpsWriteLoop t buffer rounds hi slen) := by
  induction rounds generalizing hi slen with
  | zero => exact .inl ⟨by omega, rfl⟩
  | succ n ih =>
    have hrest : buffer.drop slen ≠ [] := by
      rw [Ne, List.drop_eq_nil_iff]
      omega
    obtain ⟨k, hk, hle, hret, htook⟩ := send_accepts ht hinit hrest
    rw [List.length_drop] at hle
    have hwant : (k : ℤ) ≠ errSslWantWrite := by
      rw [errSslWantWrite]
      omega
    simp only [httpsWriteLoop, hret, if_neg hwant, if_neg (show ¬ (k : ℤ) ≤ 0 by omega), Int.toNat_natCast]
    by_cases hend : slen + k ≥ buffer.length
    · -- the transport took the whole rest
      have hall : (buffer.drop slen).take k = buffer.drop slen :=
        List.take_of_length_le (by rw [List.length_drop]; omega)
      have hsum : slen + k = buffer.length := by omega
      rw [if_pos hend, hsum]
      rw [hall] at htook
      exact .inr ⟨_, rfl, htook⟩
    · rw [if_neg hend]
      have hsplit : (buffer.drop slen).take k ++ buffer.drop (slen + k) = buffer.drop slen := by
        rw [← List.drop_drop, List.take_append_drop]
      rcases ih (htook.isInited.trans hinit) (show slen + k < buffer.length by omega) with ⟨hn, h⟩ | ⟨hi', h, htook'⟩
      · exact .inl ⟨by omega, h⟩
      · exact .inr ⟨hi', h, hsplit ▸ htook.trans htook'⟩

variable (rounds) in
theorem httpsWrite_delivers (ht : t.Accepts) (hinit : hi.isInited = true) (hne : buffer ≠ []) :
    Delivers rounds buffer.length hi buffer buffer.length (httpsWrite t rounds hi buffer) :=
  httpsWriteLoop_delivers ht hinit (List.length_pos_iff.mpr hne)

variable (rounds) in
/-- A write that expects the length of its buffer. -/
theorem checkedWrite_whole (ht : t.Accepts) (hinit : hi.isInited = true) (hne : buffer ≠ []) :
    (rounds < buffer.length ∧ checkedWrite t rounds hi buffer buffer.length = none) ∨
      ∃ hi', checkedWrite t rounds hi buffer buffer.length = pure hi' ∧ Took hi buffer hi' := by
  rcases httpsWrite_delivers rounds ht hinit hne with ⟨hn, h⟩ | ⟨hi', h, htook⟩
  · exact .inl ⟨hn, by rw [checkedWrite, h]⟩
  · exact .inr ⟨hi', by rw [checkedWrite, h]; exact if_pos rfl, htook⟩

variable (rounds) in
/-- A write that expects another length does not go through. -/
theorem checkedWrite_other (ht : t.Accepts) (hinit : hi.isInited = true) (hne : buffer ≠ []) {len : ℤ}
    (hlen : (buffer.length : ℤ) ≠ len) :
    checkedWrite t rounds hi buffer len = none ∨ ∃ hi', checkedWrite t rounds hi buffer len = throw hi' := by
  rcases httpsWrite_delivers rounds ht hinit hne with ⟨-, h⟩ | ⟨hi', h, -⟩
  · exact .inl (by rw [checkedWrite, h])
  · exact .inr ⟨_, by rw [checkedWrite, h]; exact if_neg hlen⟩

/-! ### The size in front of a block -/

theorem snprintf_fits {size : ℕ} {text : Bytes} (h : text.length < size) :
    (snprintf size text).1.take (snprintf size text).2 = text := by
  have hkept : text.take (size - 1) = text := List.take_of_length_le (by omega)
  rw [snprintf, hkept, List.take_left]

theorem length_snprintf (size : ℕ) (text : Bytes) :
    ((snprintf size text).1.take (snprintf size text).2).length = min text.length size := by
  simp only [snprintf, List.length_take, List.length_append, List.length_replicate]
  omega

/-- The line in front of a block of `n` bytes, as far as the array holds it. -/
def sizeLine (n : ℕ) : Bytes :=
  let line := snprintf internalChunkedPrefixStrLen (hex n ++ crlf)
  line.1.take line.2

theorem length_sizeLine (n : ℕ) : (sizeLine n).length = min ((hex n).length + 2) 10 := by
  rw [sizeLine, length_snprintf, List.length_append]
  rfl

theorem sizeLine_ne_nil (n : ℕ) : sizeLine n ≠ [] := by
  rw [← List.length_pos_iff, length_sizeLine]
  omega

/-- One digit and the line end are three bytes; from sixteen on a block is longer than its line. -/
theorem length_sizeLine_eq_iff (n : ℕ) : (sizeLine n).length = n ↔ n = 3 := by
  rw [length_sizeLine]
  by_cases hn : n < 16
  · rw [hex_of_lt hn, List.length_singleton]
    omega
  · omega

theorem sizeLine_of_lt {n : ℕ} (h : n < 16) : sizeLine n = hex n ++ crlf :=
  snprintf_fits (by
    rw [List.length_append, hex_of_lt h]
    exact (show 3 < 10 by decide))

/-! ### Calls -/

theorem httpWrite_chunked (hchunked : hi.chunked = true) {data : Bytes} (hne : data ≠ []) :
    httpWrite t rounds hi data = finish data.length (do
      let hi ← checkedWrite t rounds hi (sizeLine data.length) data.length
      let hi ← checkedWrite t rounds hi data data.length
      if hi.chunked then checkedWrite t rounds hi crlf 2 else pure hi) := by
  rw [httpWrite, if_neg hne, if_pos hchunked]
  rfl

/-- A block that is not as long as the line with its size. -/
theorem httpWrite_fails (ht : t.Accepts) (hinit : hi.isInited = true) (hchunked : hi.chunked = true) {data : Bytes}
    (hne : data ≠ []) (hlen : data.length ≠ 3) {ret : ℤ} (h : httpWrite t rounds hi data = some (ret, hi')) :
    ret = -1 := by
  have hother : ((sizeLine data.length).length : ℤ) ≠ data.length := fun heq =>
    hlen ((length_sizeLine_eq_iff _).mp (Int.ofNat_inj.mp heq))
  rw [httpWrite_chunked hchunked hne] at h
  rcases checkedWrite_other rounds ht hinit (sizeLine_ne_nil _) hother with hw | ⟨hi₁, hw⟩ <;>
    rw [hw] at h <;> cases h
  rfl

variable (rounds) in
/-- A block of three bytes. -/
theorem httpWrite_delivers (ht : t.Accepts) (hinit : hi.isInited = true) (hchunked : hi.chunked = true) {data : Bytes}
    (hlen : data.length = 3) : Delivers rounds 3 hi (encodeChunk data) data.length (httpWrite t rounds hi data) := by
  have hne : data ≠ [] := by
    rintro rfl
    cases hlen
  have hline : (sizeLine data.length).length = data.length := (length_sizeLine_eq_iff _).mpr hlen
  have hcrlf : (crlf.length : ℤ) = 2 := rfl
  have hsplit : encodeChunk data = sizeLine data.length ++ data ++ crlf := by
    rw [sizeLine_of_lt (by omega), encodeChunk]
  have h₁ := checkedWrite_whole rounds ht hinit (sizeLine_ne_nil data.length)
  rw [hline] at h₁
  rw [httpWrite_chunked hchunked hne]
  rcases h₁ with ⟨hn, h⟩ | ⟨hi₁, h, htook₁⟩
  · exact .inl ⟨by omega, by rw [h]; rfl⟩
  rw [h, pure_bind]
  rcases checkedWrite_whole rounds ht (htook₁.isInited.trans hinit) hne with ⟨hn, h⟩ | ⟨hi₂, h, htook₂⟩
  · exact .inl ⟨by omega, by rw [h]; rfl⟩
  have htook := htook₁.trans htook₂
  rw [h, pure_bind, if_pos (htook.chunked.trans hchunked)]
  have h₃ := checkedWrite_whole rounds ht (htook.isInited.trans hinit) (show crlf ≠ [] by decide)
  rw [hcrlf] at h₃
  rcases h₃ with ⟨hn, h⟩ | ⟨hi₃, h, htook₃⟩
  · exact .inl ⟨Nat.lt_succ_of_lt hn, by rw [h]; rfl⟩
  · exact .inr ⟨hi₃, by rw [h]; rfl, hsplit ▸ htook.trans htook₃⟩

variable (rounds) in
theorem httpWriteEnd_delivers (ht : t.Accepts) (hinit : hi.isInited = true) (hchunked : hi.chunked = true) :
    Delivers rounds 5 hi zeroChunk 5 (httpWriteEnd t rounds hi) := by
  have hend : ascii "0" ++ crlf ++ crlf = zeroChunk := by decide
  have hstr : (snprintf internalChunkedPrefixStrLen zeroChunk).1.take zeroChunk.length = zeroChunk := by decide
  have hcall : httpWriteEnd t rounds hi =
      finish zeroChunk.length (checkedWrite t rounds hi zeroChunk zeroChunk.length) := by
    rw [httpWriteEnd, if_pos hchunked, hend]
    exact congrArg (fun str => finish _ (checkedWrite t rounds hi str _)) hstr
  rw [hcall]
  rcases checkedWrite_whole rounds ht hinit (show zeroChunk ≠ [] by decide) with ⟨hn, h⟩ | ⟨hi', h, htook⟩
  · exact .inl ⟨hn, by rw [h]; rfl⟩
  · exact .inr ⟨hi', by rw [h]; rfl, htook⟩

/-! ### Uploads -/

/-- Every call returns the length it was given, and the bytes that are sent, decoded, are the
blocks. -/
def Uploads (t : Transport) (hi : Connection) (blocks : List Bytes) : Prop :=
  ∃ rounds rets hi', upload t rounds hi blocks = some (rets, hi') ∧
    rets = blocks.map (fun data => (data.length : ℤ)) ++ [5] ∧
    ∃ message, hi'.sent = hi.sent ++ message ∧ decodeChunked message = some (blocks.flatten, [])

/-- Blocks of three bytes go out as their encoding. -/
theorem upload_delivers (ht : t.Accepts) {blocks : List Bytes} (hlen : ∀ data ∈ blocks, data.length = 3)
    (hinit : hi.isInited = true) (hchunked : hi.chunked = true) (hrounds : 5 ≤ rounds) :
    ∃ hi', upload t rounds hi blocks = some (blocks.map (fun data => (data.length : ℤ)) ++ [5], hi') ∧
      Took hi (encodeChunked blocks) hi' := by
  induction blocks generalizing hi with
  | nil =>
    rcases httpWriteEnd_delivers rounds ht hinit hchunked with ⟨hn, -⟩ | ⟨hi', h, htook⟩
    · omega
    · exact ⟨hi', by rw [upload, h]; rfl, htook⟩
  | cons data blocks ih =>
    have hdata := hlen data List.mem_cons_self
    rcases httpWrite_delivers rounds ht hinit hchunked hdata with ⟨hn, -⟩ | ⟨hi₁, h, htook⟩
    · omega
    obtain ⟨hi', hrest, htook'⟩ := ih (fun d hd => hlen d (List.mem_cons_of_mem _ hd))
      (htook.isInited.trans hinit) (htook.chunked.trans hchunked)
    have hsplit : encodeChunked (data :: blocks) = encodeChunk data ++ encodeChunked blocks := by
      simp [encodeChunked]
    exact ⟨hi', by simp only [upload, h, Option.bind_some, hrest]; rfl, hsplit ▸ htook.trans htook'⟩

/-- When every block is accepted, every block has three bytes. -/
theorem length_of_upload (ht : t.Accepts) {blocks : List Bytes} (hne : ∀ data ∈ blocks, data ≠ [])
    (hinit : hi.isInited = true) (hchunked : hi.chunked = true) {rets : List ℤ}
    (h : upload t rounds hi blocks = some (rets, hi'))
    (hrets : rets = blocks.map (fun data => (data.length : ℤ)) ++ [5]) : ∀ data ∈ blocks, data.length = 3 := by
  induction blocks generalizing hi rets with
  | nil => simp
  | cons data blocks ih =>
    rw [upload, Option.bind_eq_some_iff] at h
    obtain ⟨⟨ret, hi₁⟩, hcall, h⟩ := h
    rw [Option.map_eq_some_iff] at h
    obtain ⟨⟨rest, hi₂⟩, hrest, heq⟩ := h
    cases heq
    rw [List.map_cons, List.cons_append, List.cons.injEq] at hrets
    have hdata : data.length = 3 := by
      by_contra hlen
      have := httpWrite_fails ht hinit hchunked (hne data List.mem_cons_self) hlen hcall
      omega
    have hinit' : hi₁.isInited = true ∧ hi₁.chunked = true := by
      rcases httpWrite_delivers rounds ht hinit hchunked hdata with ⟨-, hnone⟩ | ⟨hi', hsome, htook⟩
      · rw [hnone] at hcall
        cases hcall
      · rw [hsome] at hcall
        cases hcall
        exact ⟨htook.isInited.trans hinit, htook.chunked.trans hchunked⟩
    have := ih (fun d hd => hne d (List.mem_cons_of_mem _ hd)) hinit'.1 hinit'.2 hrest hrets.2
    exact List.forall_mem_cons.mpr ⟨hdata, this⟩

theorem uploads_iff (ht : t.Accepts) (hinit : hi.isInited = true) (hchunked : hi.chunked = true)
    {blocks : List Bytes} (hne : ∀ data ∈ blocks, data ≠ []) :
    Uploads t hi blocks ↔ ∀ data ∈ blocks, data.length = 3 := by
  constructor
  · rintro ⟨rounds, rets, hi', h, hrets, -⟩
    exact length_of_upload ht hne hinit hchunked h hrets
  · intro hlen
    obtain ⟨hi', h, htook⟩ := upload_delivers ht hlen hinit hchunked (le_refl 5)
    have hdec := decodeChunked_encodeChunked hne []
    rw [List.append_nil] at hdec
    exact ⟨5, _, hi', h, rfl, encodeChunked blocks, htook.sent, hdec⟩

/-- A transport that takes everything it is offered. -/
def takesAll : Transport := fun _ bytes => bytes.length

theorem takesAll_accepts : takesAll.Accepts := fun _ bytes hne =>
  ⟨Int.natCast_pos.mpr (List.length_pos_iff.mpr hne), le_refl (bytes.length : ℤ)⟩

def connected : Connection := ⟨false, true, true, 0, 0, []⟩

theorem uploads_iff_two :
    Uploads takesAll connected [ascii "abc", ascii "def"] ↔
      ∀ data ∈ [ascii "abc", ascii "def"], data.length = 3 :=
  uploads_iff takesAll_accepts rfl rfl (by decide)

/-- A block of four bytes: the three bytes of its size are sent, then the connection is closed. -/
theorem uploads_not_four : ¬ Uploads takesAll connected [ascii "abcd"] := by
  rintro ⟨rounds, rets, hi', h, hrets, -⟩
  have hlen := length_of_upload takesAll_accepts (by decide) rfl rfl h hrets (ascii "abcd") List.mem_cons_self
  exact absurd hlen (by decide)

end Ln882x.Http
