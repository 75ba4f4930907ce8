import Mathlib.Data.Int.Notation
import Mathlib.Data.List.DropRight
import Mathlib.Tactic.IntervalCases
import Ln882x.Nor.Flash

/-! The response parser of the HTTP client and the receive loop around it.
`http_parse` takes up the bytes of the receive buffer from `parse_ptr` on and stops
as soon as it needs more, has a piece of the body to hand over, or is done. The
receive loop appends each read behind what the parser left in the buffer. Of the
buffer only the `recv_buf_len` bytes that are held are modelled: behind them stands
a zero whenever the parser searches, so a search ends there. -/

namespace Ln882x.Http

open Nor (Bytes)

/-! ### Strings -/

def cr : UInt8 := 13

def lf : UInt8 := 10

def space : UInt8 := 32

def tab : UInt8 := 9

def crlf : Bytes := [cr, lf]

def ascii (s : String) : Bytes := s.toList.map fun c => UInt8.ofNat c.toNat

def toLower (c : UInt8) : UInt8 := if 65 ≤ c ∧ c ≤ 90 then c + 32 else c

/-- `strncasecmp(s, lit, strlen(lit)) == 0`, for a `lit` in lower case. -/
def startsWithNoCase (s lit : Bytes) : Bool := (s.take lit.length).map toLower = lit

/-- `strstr(p, "\r\n")` on a string that ends at its first zero or at the end of the
list: the bytes before the match. -/
def strstrCrlf : Bytes → Option Bytes
  | [] => none
  | c :: cs =>
    if c = cr ∧ cs.head? = some lf then some []
    else if c = 0 then none
    else (strstrCrlf cs).map (c :: ·)

def isSpace (c : UInt8) : Bool := c = space ∨ (9 ≤ c ∧ c ≤ 13)

/-- The value of a digit in a base of up to sixteen. -/
def digit (base : ℕ) (c : UInt8) : Option ℕ :=
  let d := if 48 ≤ c ∧ c ≤ 57 then some (c.toNat - 48)
    else if 97 ≤ toLower c ∧ toLower c ≤ 102 then some ((toLower c).toNat - 87)
    else none
  d.filter (· < base)

def digitsValue (base : ℕ) (ds : Bytes) : ℕ := ds.foldl (fun v c => v * base + (digit base c).getD 0) 0

def longMax : ℤ := 2 ^ 31 - 1

def longMin : ℤ := -2 ^ 31

/-- The part of `strtol` behind blanks and sign. -/
def strtolMagnitude (base : ℕ) (s : Bytes) : ℕ :=
  let s := if base = 16 ∧ (s.take 2).map toLower = ascii "0x" then s.drop 2 else s
  digitsValue base (s.takeWhile fun c => (digit base c).isSome)

/-- `strtol(s, NULL, base)` with a `long` of 32 bits. -/
def strtol (base : ℕ) (s : Bytes) : ℤ :=
  match s.dropWhile isSpace with
  | [] => 0
  | c :: cs =>
    if c = 45 then max longMin (-(strtolMagnitude base cs : ℤ))
    else if c = 43 then min longMax (strtolMagnitude base cs)
    else min longMax (strtolMagnitude base (c :: cs))

def atoi (s : Bytes) : ℤ := strtol 10 s

/-! ### Header lines -/

def isBlank (c : UInt8) : Bool := c = space ∨ c = tab

/-- The scan to the first byte of a token; a string ends at the end of the list. -/
def skipBlanks : Bytes → Option Bytes
  | [] => none
  | c :: cs => if c = lf ∨ c = 0 then none else if isBlank c then skipBlanks cs else some (c :: cs)

/-- The token copied to `dst`, which has `size` bytes, and the rest behind the blank. -/
def strtoken (src : Bytes) (size : ℕ) : Option (Bytes × Bytes) :=
  match skipBlanks src with
  | none => none
  | some start =>
    let token := start.takeWhile fun c => c ≠ space ∧ c ≠ lf ∧ c ≠ 0
    let rest := start.drop token.length
    some ((token.rdropWhile isBlank).take (size - 1), if rest.head? = some space then rest.tail else rest)

/-- The members of `HTTP_HEADER` that a response can set. -/
structure HttpHeader where
  statusCode : ℕ
  contentType : Bytes
  contentLength : ℤ
  chunked : Bool
  close : Bool
  location : Bytes
  cookie : Bytes
  deriving DecidableEq

/-- A 32-bit signed value. -/
def int32 (z : ℤ) : ℤ := z.bmod (2 ^ 32)

def httpParseHeaderField (response : HttpHeader) (param : Bytes) : ℤ × HttpHeader :=
  match strtoken param 256 with
  | none => (-1, response)
  | some (t1, token) =>
    match strtoken token 256 with
    | none => (-1, response)
    | some (t2, _) =>
      if startsWithNoCase t1 (ascii "http") then
        (1, { response with statusCode := (atoi t2 % 2 ^ 16).toNat })
      else if startsWithNoCase t1 (ascii "set-cookie:") then (1, { response with cookie := t2 })
      else if startsWithNoCase t1 (ascii "location:") then (1, { response with location := t2 })
      else if startsWithNoCase t1 (ascii "content-type:") then (1, { response with contentType := t2 })
      else if startsWithNoCase t1 (ascii "content-length:") then
        (1, { response with contentLength := int32 (atoi t2) })
      else if startsWithNoCase t1 (ascii "transfer-encoding:") then
        (1, if startsWithNoCase t2 (ascii "chunked") then { response with chunked := true } else response)
      else if startsWithNoCase t1 (ascii "connection:") then
        (1, if startsWithNoCase t2 (ascii "close") then { response with close := true } else response)
      else (1, response)

/-! ### The parser -/

/-- The values of `parse_state`. -/
inductive ParseState where
  | header | body | ended
  deriving DecidableEq

/-- `HTTP_INFO` without its connection. `recvBuf` is what `recv_buf` holds up to
`recv_buf_len`, `parsePtr` an index into it, and `body` the slice of `body_len` bytes. -/
structure HttpInfo where
  response : HttpHeader
  parseState : ParseState
  parsePtr : Option ℕ
  recvBuf : Bytes
  chunkSize : ℤ
  remainSize : ℤ
  body : Bytes
  deriving DecidableEq

/-- A set of the flags that `http_parse` returns. -/
structure Mode where
  error : Bool
  read : Bool
  write : Bool
  chunk : Bool
  ended : Bool
  deriving DecidableEq

namespace Mode

def none : Mode := ⟨false, false, false, false, false⟩

def parseError : Mode := { none with error := true }

def parseRead : Mode := { none with read := true }

def parseWrite : Mode := { none with write := true }

def parseChunk : Mode := { none with chunk := true }

def parseEnd : Mode := { none with ended := true }

end Mode

/-- The line with a chunk's size, looked for at the end of the header and in the body. -/
def parseChunkSize (hi : HttpInfo) (p1 : ℕ) : Mode × HttpInfo :=
  let data := hi.recvBuf.drop p1
  if data = [] then (.parseRead, { hi with recvBuf := [], remainSize := -1 })
  else match strstrCrlf data with
    | some line =>
      let chunkSize := int32 (strtol 16 line)
      if chunkSize > 0 then
        let length := int32 (hi.response.contentLength + chunkSize)
        (.parseChunk, { hi with
          chunkSize, remainSize := chunkSize, parsePtr := some (p1 + line.length + 2)
          response := { hi.response with contentLength := length } })
      else (.parseEnd, { hi with chunkSize, parseState := .ended, remainSize := 0 })
    | none => (.parseRead, { hi with recvBuf := data, remainSize := -1 })

/-- A piece of the body while `remain_size` is positive. -/
def parseBodyData (hi : HttpInfo) (p1 : ℕ) : Mode × HttpInfo :=
  let data := hi.recvBuf.drop p1
  let len : ℤ := data.length
  if hi.remainSize < len then
    let hi := { hi with body := data.take hi.remainSize.toNat }
    if hi.response.chunked ∧ len - hi.remainSize ≥ 2 then
      (.parseWrite, { hi with remainSize := -1, parsePtr := some (p1 + hi.remainSize.toNat + 2) })
    else ({ Mode.parseWrite with error := true }, hi)
  else
    let hi := { hi with body := data, remainSize := hi.remainSize - len, recvBuf := [] }
    if ¬ hi.response.chunked ∧ hi.remainSize = 0 then ({ Mode.parseWrite with ended := true }, hi)
    else ({ Mode.parseWrite with read := true }, hi)

/-- The loop of `http_parse`. It has no way out in the state `HTTP_PARSE_END`, which is
where the rounds can run out. -/
def httpParseLoop : ℕ → HttpInfo → ℕ → Option (Mode × HttpInfo)
  | 0, _, _ => none
  | n + 1, hi, p1 =>
    match hi.parseState with
    | .header =>
      match strstrCrlf (hi.recvBuf.drop p1) with
      | some line =>
        let next := p1 + line.length + 2
        if line.length > 0 then
          httpParseLoop n { hi with response := (httpParseHeaderField hi.response line).2 } next
        else
          let hi := { hi with parseState := .body }
          if hi.response.chunked then some (parseChunkSize hi next)
          else
            let remainSize := if hi.response.contentLength = 0 then -1 else hi.response.contentLength
            httpParseLoop n { hi with remainSize } next
      | none => some (.parseRead, { hi with recvBuf := hi.recvBuf.drop p1 })
    | .body =>
      if hi.response.chunked ∧ hi.remainSize = -1 then some (parseChunkSize hi p1)
      else if hi.remainSize > 0 then some (parseBodyData hi p1)
      else if hi.response.chunked then
        if hi.recvBuf.length > 2 ∧ (hi.recvBuf.drop p1).take 2 = crlf then
          httpParseLoop n { hi with remainSize := -1 } (p1 + 2)
        else httpParseLoop n { hi with remainSize := -1, recvBuf := [] } p1
      else
        let body := hi.recvBuf.drop p1
        let length := if hi.remainSize = -1 then int32 (hi.response.contentLength + body.length)
          else hi.response.contentLength
        some ({ Mode.parseWrite with read := true }, { hi with
          body, recvBuf := [], response := { hi.response with contentLength := length } })
    | .ended => httpParseLoop n hi p1

def httpParse (hi : HttpInfo) : Option (Mode × HttpInfo) :=
  match hi.parsePtr with
  | none => some (if hi.recvBuf = [] then .parseRead else .parseError, hi)
  | some p1 =>
    if hi.recvBuf = [] then some (.parseError, hi)
    else httpParseLoop (hi.recvBuf.length + 3) hi p1

/-! ### The receive loop -/

/-- `httpinfo_new`: everything is cleared. -/
def httpinfoNew : HttpInfo :=
  { response := ⟨0, [], 0, false, false, [], []⟩
    parseState := .header, parsePtr := none, recvBuf := [], chunkSize := 0, remainSize := 0, body := [] }

def httpReadInit (hi : HttpInfo) : HttpInfo :=
  { hi with
    response := { hi.response with statusCode := 0, contentLength := 0, close := false }
    parsePtr := none, recvBuf := [], parseState := .header }

def fieldHttpRecvBufMaxLen : ℕ := 1024 * 2

/-- How the loop of `http_get_with_callback` is left: with `HTTP_PARSE_END`, with
`HTTP_PARSE_ERROR`, because a read gave nothing, or not at all. -/
inductive Ending where
  | ended | error | closed | spins
  deriving DecidableEq

/-- The loop between two calls of the parser: the bytes that arrive, piece by piece, and
what the parser has returned so far, with the slice of the body where there is one. -/
structure Client where
  info : HttpInfo
  queue : List Bytes
  trace : List (Mode × Option Bytes)

/-- `https_read` hands over the next piece, as far as it fits; an empty one or a full
buffer gives zero bytes. -/
def httpsRead (info : HttpInfo) : List Bytes → Option (HttpInfo × List Bytes)
  | [] => none
  | seg :: queue =>
    let free := fieldHttpRecvBufMaxLen - info.recvBuf.length
    let got := seg.take free
    if got = [] then none
    else some ({ info with recvBuf := info.recvBuf ++ got, parsePtr := some 0 },
      if seg.length ≤ free then queue else seg.drop free :: queue)

/-- What the loop does with a result of the parser. -/
def Client.handle (c : Client) (mode : Mode) (info : HttpInfo) : Client × Option Ending :=
  let c := { c with info, trace := c.trace ++ [(mode, if mode.write then some info.body else none)] }
  if mode.read then
    match httpsRead info c.queue with
    | none => (c, some .closed)
    | some (info, queue) => ({ c with info, queue }, none)
  else if mode.chunk then (c, none)
  else if mode.ended then (c, some .ended)
  else if mode.error then (c, some .error)
  else (c, none)

/-- One round of the loop. -/
def Client.turn (c : Client) : Client × Option Ending :=
  match httpParse c.info with
  | none => (c, some .spins)
  | some (mode, info) => c.handle mode info

def Client.run : ℕ → Client → Client × Option Ending
  | 0, c => (c, none)
  | n + 1, c =>
    match c.turn with
    | (c, none) => c.run n
    | done => done

/-- A response is received on `hi` in the pieces `segs`. -/
def Client.start (hi : HttpInfo) (segs : List Bytes) : Client := ⟨httpReadInit hi, segs, []⟩

end Ln882x.Http
