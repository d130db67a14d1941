import Jullop.Scanner

/-! The request parser of `picohttpparser.c`, as built without SSE 4.2, and the
request it fills in. Pointers into the buffer are offsets from its start. -/

namespace Jullop

abbrev CR : UInt8 := 0x0d

abbrev LF : UInt8 := 0x0a

abbrev SP : UInt8 := 0x20

abbrev HT : UInt8 := 0x09

@[simp] theorem lf_ne_cr : LF ≠ CR := by decide

@[simp] theorem cr_ne_lf : CR ≠ LF := by decide

structure Slice where
  start : Nat
  len : Nat
  deriving DecidableEq, Repr

/-- `struct phr_header`; the name is NULL on a continuation line. -/
structure PhrHeader where
  name : Option Slice
  value : Slice
  deriving DecidableEq, Repr

/-- `HttpRequest`. A NULL pointer always has length zero. Of the header array
only the entries that a parse has filled in are kept; `numHeaders` is the limit
of the parser when it starts and the count of headers when it ends. -/
structure HttpRequest where
  method : Option Slice
  path : Option Slice
  minorVersion : Int
  headers : List PhrHeader
  numHeaders : Nat
  deriving DecidableEq, Repr

def PhrHeader.slices (h : PhrHeader) : List Slice := h.name.toList ++ [h.value]

def HttpRequest.slices (r : HttpRequest) : List Slice :=
  r.method.toList ++ r.path.toList ++ r.headers.flatMap PhrHeader.slices

/-- All pointers of the request stay in the first `n` bytes. -/
def HttpRequest.Within (r : HttpRequest) (n : Nat) : Prop :=
  ∀ s ∈ r.slices, s.start + s.len ≤ n

theorem HttpRequest.Within.mono {r : HttpRequest} {m n : Nat} (h : r.Within m) (hmn : m ≤ n) :
    r.Within n := fun s hs => Nat.le_trans (h s hs) hmn

namespace HttpParser

open Scanner

abbrev Parse := Scanner UInt8 HttpRequest

/-- `IS_PRINTABLE_ASCII`, in unsigned arithmetic. -/
def isPrintableAscii (c : UInt8) : Bool := c.toUInt32 - 0o40 < 0o137

def tokenCharMap : List Nat :=
  [0, 0, 0, 0, 0, 0, 0, 0, 0, 0, 0, 0, 0, 0, 0, 0, 0, 0, 0, 0, 0, 0, 0, 0, 0, 0, 0, 0, 0, 0, 0, 0,
   0, 1, 0, 1, 1, 1, 1, 1, 0, 0, 1, 1, 0, 1, 1, 0, 1, 1, 1, 1, 1, 1, 1, 1, 1, 1, 0, 0, 0, 0, 0, 0,
   0, 1, 1, 1, 1, 1, 1, 1, 1, 1, 1, 1, 1, 1, 1, 1, 1, 1, 1, 1, 1, 1, 1, 1, 1, 1, 1, 0, 0, 0, 1, 1,
   1, 1, 1, 1, 1, 1, 1, 1, 1, 1, 1, 1, 1, 1, 1, 1, 1, 1, 1, 1, 1, 1, 1, 1, 1, 1, 1, 0, 1, 0, 1, 0]
    ++ List.replicate 128 0

def isTokenChar (c : UInt8) : Bool := tokenCharMap.getD c.toNat 0 != 0

def tokenMove (c : UInt8) : Move :=
  if c = SP then .halt
  else if !isPrintableAscii c && (c < 0o40 || c = 0o177) then .bad
  else .go

/-- The loop of `get_token_to_eol`; its unrolled part tests the same. -/
def eolMove (c : UInt8) : Move :=
  if !isPrintableAscii c && (c < 0o40 && c ≠ HT || c = 0o177) then .halt else .go

def nameMove (c : UInt8) : Move :=
  if c = 0x3a then .halt else if !isTokenChar c then .bad else .go

def blankMove (c : UInt8) : Move := if c = SP || c = HT then .go else .halt

def expectChar (ch : UInt8) : Parse Unit := do
  let c ← current
  if c ≠ ch then stop .malformed else advance

/-- A line end, CR LF or LF, where the code tests for one. -/
def lineEnd (otherwise : Parse Unit) : Parse Unit := do
  let c ← current
  if c = CR then do advance; expectChar LF
  else if c = LF then advance
  else otherwise

def advanceToken : Parse Slice := do
  let tokStart ← position
  let toklen ← scan tokenMove
  return ⟨tokStart, toklen⟩

def getTokenToEol : Parse Slice := do
  let tokenStart ← position
  let tokenLen ← scan eolMove
  lineEnd (stop .malformed)
  return ⟨tokenStart, tokenLen⟩

/-- `PARSE_INT` with the multiplier 1. -/
def parseInt : Parse Unit := do
  let c ← current
  if c < 0x30 || 0x39 < c then stop .malformed
  else do
    setOutput fun r => { r with minorVersion := (c.toNat : Int) - 0x30 }
    advance

def parseHttpVersion : Parse Unit := do
  require 9
  expectChar 0x48
  expectChar 0x54
  expectChar 0x54
  expectChar 0x50
  expectChar 0x2f
  expectChar 0x31
  expectChar 0x2e
  parseInt

def headerName : Parse (Option Slice) := do
  let start ← position
  let len ← scan nameMove
  if len = 0 then stop .malformed
  else do
    advance
    let _ ← scan blankMove
    return some ⟨start, len⟩

def headerValue (name : Option Slice) : Parse Unit := do
  let value ← getTokenToEol
  setOutput fun r =>
    { r with headers := r.headers ++ [⟨name, value⟩], numHeaders := r.numHeaders + 1 }

/-- One turn of the loop of `parse_headers`, up to its `++*num_headers`. -/
def parseHeader : Parse Unit := do
  let c ← current
  let r ← output
  let name ← if r.numHeaders ≠ 0 && (c = SP || c = HT) then pure none else headerName
  headerValue name

/-- `parse_headers`, with `room = max_headers - *num_headers` headers to go. -/
def parseHeaders : (room : Nat) → Parse Unit
  | 0 => lineEnd (stop .malformed)
  | room + 1 => lineEnd do
      parseHeader
      parseHeaders room

def parseMethodPath : Parse Unit := do
  let method ← advanceToken
  setOutput fun r => { r with method := some method }
  advance
  let path ← advanceToken
  setOutput fun r => { r with path := some path }
  advance

def parseTarget : Parse Unit := do
  lineEnd (pure ())
  parseMethodPath

def parseRequest (maxHeaders : Nat) : Parse Unit := do
  parseTarget
  parseHttpVersion
  lineEnd (stop .malformed)
  parseHeaders maxHeaders

def isCompleteLoop : (retCnt : Nat) → List UInt8 → Except Stop Unit
  | _, [] => .error .incomplete
  | retCnt, c :: cs =>
    if c = CR then
      match cs with
      | [] => .error .incomplete
      | d :: ds =>
        if d ≠ LF then .error .malformed
        else if retCnt + 1 = 2 then .ok ()
        else isCompleteLoop (retCnt + 1) ds
    else if c = LF then
      if retCnt + 1 = 2 then .ok () else isCompleteLoop (retCnt + 1) cs
    else isCompleteLoop 0 cs

def isComplete (buf : List UInt8) (lastLen : Nat) : Except Stop Unit :=
  isCompleteLoop 0 (buf.drop (lastLen - 3))

/-- Conversion of a `size_t` or a pointer difference to `int`. -/
def toInt (n : Nat) : Int := Int.bmod n (2 ^ 32)

def Stop.ret : Stop → Int
  | .malformed => -1
  | .incomplete => -2

/-- What `phr_parse_request` sets its arguments to before it parses. -/
def clearRequest : HttpRequest :=
  { method := none, path := none, minorVersion := -1, headers := [], numHeaders := 0 }

def parseResult : Except Stop Unit × Cursor UInt8 HttpRequest → Int × HttpRequest
  | (.error e, s) => (Stop.ret e, s.out)
  | (.ok (), s) => (toInt s.pos, s.out)

def phrParseRequest (buf : List UInt8) (r : HttpRequest) (lastLen : Nat) : Int × HttpRequest :=
  let maxHeaders := r.numHeaders
  match (if lastLen ≠ 0 then isComplete buf lastLen else .ok ()) with
  | .error e => (Stop.ret e, clearRequest)
  | .ok () =>
    parseResult (parseRequest maxHeaders ⟨0, buf, clearRequest⟩)

end HttpParser

end Jullop
