import Jullop.HttpParser
import Jullop.OutputBuffer
import Jullop.RequestStats
import Mathlib.Data.Nat.Digits.Defs

/-! One connection's request: reading and parsing it, `http_request.c` and the
first half of `client.c`, answering it, `actor.c` and `http_response.c`, and the
context that carries it, `request_context.c`. -/

namespace Jullop

def ascii (s : String) : List UInt8 := s.toList.map fun c => c.toNat.toUInt8

inductive ParseState
  | parseFinish
  | parseError
  | parseIncomplete
  deriving DecidableEq, Repr

def ParseState.ofResult (result : Int) : ParseState :=
  if result = -1 then .parseError
  else if result = -2 then .parseIncomplete
  else .parseFinish

/-- `http_request_parse`; all of the buffer is handed to the parser. -/
def httpRequestParse (buffer : InputBuffer) (prevLen : Nat) (request : HttpRequest) :
    ParseState × HttpRequest :=
  let (result, request) := HttpParser.phrParseRequest buffer.buffer request prevLen
  (.ofResult result, request)

def Slice.read (buf : List UInt8) (s : Slice) : List UInt8 := (buf.drop s.start).take s.len

structure RequestContent where
  method : Option (List UInt8)
  path : Option (List UInt8)
  minorVersion : Int
  headers : List (Option (List UInt8) × List UInt8)
  deriving DecidableEq, Repr

def HttpRequest.content (r : HttpRequest) (buf : List UInt8) : RequestContent where
  method := r.method.map (Slice.read buf)
  path := r.path.map (Slice.read buf)
  minorVersion := r.minorVersion
  headers := (r.headers.take r.numHeaders).map fun h => (h.name.map (Slice.read buf), h.value.read buf)

def numHeadersMax : Nat := 100

def bufSize : Nat := 1024

/-- `RequestContext`. The pointers of `httpRequest` belong to the allocation of
the input buffer with the number `parsedBuffer`. -/
structure RequestContext where
  fd : Nat
  inputBuffer : InputBuffer
  httpRequest : HttpRequest
  parsedBuffer : Nat
  outputBuffer : OutputBuffer
  timeStats : PerRequestStats
  epollInfo : Nat

def initRequestContext (fd : Nat) (inputHeap outputHeap : Nat → UInt8) (epollInfo : Nat) :
    RequestContext where
  fd := fd
  inputBuffer := inputBufferInit inputHeap bufSize
  httpRequest := { method := none, path := none, minorVersion := 0, headers := [],
                   numHeaders := numHeadersMax }
  parsedBuffer := 0
  outputBuffer := outputBufferInit outputHeap bufSize
  timeStats := perRequestClearTime
  epollInfo := epollInfo

def RequestContext.content (c : RequestContext) : RequestContent :=
  c.httpRequest.content c.inputBuffer.buffer

def ReadState.ofParse : ParseState → ReadState
  | .parseFinish => .readFinish
  | .parseError => .readError
  | .parseIncomplete => .readBusy

/-- `try_parse_http_request`, with the results of `read(2)`. -/
def tryParseHttpRequest (c : RequestContext) (rs : List ReadResult) :
    Option (ReadState × RequestContext) := do
  let prevLen := c.inputBuffer.offset
  let (readState, buffer) ← inputBufferReadInto c.inputBuffer rs
  let c := { c with inputBuffer := buffer }
  match readState with
  | .readError | .clientDisconnect => return (readState, c)
  | .readFinish | .readBusy =>
    let (parseState, request) := httpRequestParse buffer prevLen c.httpRequest
    return (.ofParse parseState,
      { c with httpRequest := request, parsedBuffer := buffer.resizeCount })

def contextKeepAlive (c : RequestContext) : Bool :=
  c.content.headers.any fun (name, value) =>
    name = some (ascii "Connection") && value = ascii "Keep-Alive"

def contextFinalizeReset (c : RequestContext) : RequestContext :=
  { c with
    inputBuffer := inputBufferReset c.inputBuffer
    outputBuffer := outputBufferReset c.outputBuffer
    timeStats := perRequestClearTime }

def getReason : Nat → String
  | 100 => "Continue"
  | 101 => "Switching Protocols"
  | 200 => "Ok"
  | 201 => "Created"
  | 202 => "Accepted"
  | 203 => "Non-Authoritative Information"
  | 204 => "No Content"
  | 205 => "Reset Content"
  | 206 => "Partial Content"
  | 300 => "Multiple Choices"
  | 301 => "Moved Permanently"
  | 302 => "Found"
  | 303 => "See Other"
  | 304 => "Not Modified"
  | 305 => "Use Proxy"
  | 307 => "Temporary Redirect"
  | 400 => "Bad Request"
  | 401 => "Unauthorized"
  | 402 => "Payment Required"
  | 403 => "Forbidden"
  | 404 => "Not Found"
  | 405 => "Method Not Allowed"
  | 406 => "Not Acceptable"
  | 407 => "Proxy Authentication Required"
  | 408 => "Request Time-out"
  | 409 => "Conflict"
  | 410 => "Gone"
  | 500 => "Internal Server Error"
  | 501 => "Not Implemented"
  | 502 => "Bad Gateway"
  | 503 => "Service Unavailable"
  | 504 => "Gateway Time-out"
  | 505 => "HTTP Version not supported"
  | _ => "Other"

/-- `%.*s` with a precision that was converted to `int`, for a pointer to the
bytes `mem`. A negative precision counts as none, so the text runs to a NUL. -/
def formatString (len : Nat) (mem : List UInt8) : List UInt8 :=
  let precision := HttpParser.toInt len
  let mem := if precision < 0 then mem else mem.take precision.toNat
  mem.takeWhile (· ≠ 0)

structure HttpHeader where
  name : List UInt8
  nameLen : Nat
  value : List UInt8
  valueLen : Nat

/-- `http_response_init`; `none` is the exit of the process when a text cannot
be formatted. -/
def httpResponseInit (buffer : OutputBuffer) (statusCode : Nat) (headers : List HttpHeader)
    (body : List UInt8) (bodyLen : Nat) : Option OutputBuffer := do
  let buffer ← outputBufferAppend buffer
    (ascii "HTTP/1.1 " ++ ascii (toString statusCode) ++ ascii " " ++
      ascii (getReason statusCode) ++ ascii "\r\n")
  let buffer ← headers.foldlM (fun buffer h => outputBufferAppend buffer
    (formatString h.nameLen h.name ++ ascii ": " ++ formatString h.valueLen h.value ++
      ascii "\r\n")) buffer
  outputBufferAppend buffer (ascii "\r\n" ++ formatString bodyLen body)

/-- `sprintf` into an array of `size` bytes. To write past its end counts as an
end of the process. -/
def sprintf (size : Nat) (text : List UInt8) : Option (List UInt8) :=
  if text.length < size then some text else none

def handleRequest (c : RequestContext) : Option RequestContext := do
  let pathLen := (c.httpRequest.path.map Slice.len).getD 0
  let path := match c.httpRequest.path with
    | none => []
    | some s => c.inputBuffer.buffer.drop s.start
  let contentLengthValue ← sprintf 10 (ascii (toString pathLen))
  let connection := if contextKeepAlive c then ascii "keep-alive" else ascii "close"
  let buffer ← httpResponseInit c.outputBuffer 200
    [⟨ascii "Content-Length", 14, contentLengthValue, contentLengthValue.length⟩,
     ⟨ascii "Connection", 10, connection, connection.length⟩]
    path pathLen
  return { c with outputBuffer := buffer }

theorem formatString_length (len : Nat) (mem : List UInt8) (h : len < 2 ^ 31) :
    (formatString len mem).length ≤ len := by
  have hint : HttpParser.toInt len = len := by
    unfold HttpParser.toInt
    exact Int.bmod_eq_of_le (n := (len : Int)) (m := 2 ^ 32) (by omega) (by omega)
  rw [formatString, hint, if_neg (by omega), Int.toNat_natCast]
  exact (List.takeWhile_prefix _).length_le.trans (List.length_take_le _ _)

theorem ascii_length (s : String) : (ascii s).length = s.length := by
  simp [ascii, String.length_toList]

def statusLine (statusCode : Nat) : List UInt8 :=
  ascii "HTTP/1.1 " ++ ascii (toString statusCode) ++ ascii " " ++ ascii (getReason statusCode) ++
    ascii "\r\n"

def HttpHeader.line (h : HttpHeader) : List UInt8 :=
  formatString h.nameLen h.name ++ ascii ": " ++ formatString h.valueLen h.value ++ ascii "\r\n"

theorem httpResponseInit_eq (buffer : OutputBuffer) (statusCode : Nat) (headers : List HttpHeader)
    (body : List UInt8) (bodyLen : Nat) :
    httpResponseInit buffer statusCode headers body bodyLen =
      ((statusLine statusCode :: headers.map HttpHeader.line).foldlM outputBufferAppend buffer).bind
        fun b => outputBufferAppend b (ascii "\r\n" ++ formatString bodyLen body) := by
  rw [httpResponseInit, List.foldlM_cons, Option.bind_eq_bind, Option.bind_assoc]
  refine Option.bind_congr fun b _ => ?_
  rw [List.foldlM_map]
  rfl

theorem appendAll_exists {texts : List (List UInt8)} (h : ∀ t ∈ texts, t.length < 2 ^ 31)
    (b : OutputBuffer) : ∃ b', texts.foldlM outputBufferAppend b = some b' := by
  induction texts generalizing b with
  | nil => exact ⟨b, rfl⟩
  | cons t texts ih =>
    obtain ⟨b1, hb1⟩ := outputBufferAppend_exists b t (h t (by simp))
    obtain ⟨b2, hb2⟩ := ih (fun t ht => h t (by simp [ht])) b1
    refine ⟨b2, ?_⟩
    rw [List.foldlM_cons, hb1]
    exact hb2

theorem appendAll_from {texts : List (List UInt8)} {b b' : OutputBuffer}
    (h : texts.foldlM outputBufferAppend b = some b') : b'.writeFromOffset = b.writeFromOffset := by
  induction texts generalizing b with
  | nil =>
    cases h
    rfl
  | cons t texts ih =>
    rw [List.foldlM_cons, Option.bind_eq_bind, Option.bind_eq_some_iff] at h
    obtain ⟨b1, h1, h2⟩ := h
    rw [ih h2, outputBufferAppend_from h1]

theorem HttpHeader.line_length (h : HttpHeader) (hlen : h.nameLen + h.valueLen < 2 ^ 30) :
    h.line.length < 2 ^ 31 := by
  have hname := formatString_length h.nameLen h.name (by omega)
  have hvalue := formatString_length h.valueLen h.value (by omega)
  have htexts : (ascii ": ").length + (ascii "\r\n").length = 4 := by decide
  simp only [HttpHeader.line, List.length_append]
  omega

theorem httpResponseInit_exists (buffer : OutputBuffer) (statusCode : Nat)
    (headers : List HttpHeader) (body : List UInt8) (bodyLen : Nat)
    (hstatus : (statusLine statusCode).length < 2 ^ 31)
    (hheaders : ∀ h ∈ headers, h.nameLen + h.valueLen < 2 ^ 30) (hbody : bodyLen < 2 ^ 30) :
    ∃ b', httpResponseInit buffer statusCode headers body bodyLen = some b' := by
  have hlines : ∀ t ∈ statusLine statusCode :: headers.map HttpHeader.line, t.length < 2 ^ 31 := by
    intro t ht
    rw [List.mem_cons, List.mem_map] at ht
    rcases ht with rfl | ⟨h, hh, rfl⟩
    · exact hstatus
    · exact h.line_length (hheaders h hh)
  have htext := formatString_length bodyLen body (by omega)
  have hcrlf : (ascii "\r\n").length = 2 := by decide
  obtain ⟨b1, hb1⟩ := appendAll_exists hlines buffer
  obtain ⟨b2, hb2⟩ := outputBufferAppend_exists b1 (ascii "\r\n" ++ formatString bodyLen body) (by
    rw [List.length_append]
    omega)
  refine ⟨b2, ?_⟩
  rw [httpResponseInit_eq, hb1, Option.bind_some, hb2]

namespace RequestContext

def pathLen (c : RequestContext) : Nat := (c.httpRequest.path.map Slice.len).getD 0

/-- The input buffer from the path on. -/
def pathTail (c : RequestContext) : List UInt8 :=
  match c.httpRequest.path with
  | none => []
  | some s => c.inputBuffer.buffer.drop s.start

def connectionValue (c : RequestContext) : List UInt8 :=
  if contextKeepAlive c then ascii "keep-alive" else ascii "close"

def responseHeaders (c : RequestContext) : List HttpHeader :=
  [⟨ascii "Content-Length", 14, ascii (toString c.pathLen), (ascii (toString c.pathLen)).length⟩,
   ⟨ascii "Connection", 10, c.connectionValue, c.connectionValue.length⟩]

end RequestContext

theorem sprintf_digits (n : Nat) : sprintf 10 (ascii (toString n)) =
    if n < 10 ^ 9 then some (ascii (toString n)) else none := by
  have hdigits : (ascii (toString n)).length < 10 ↔ n < 10 ^ 9 := by
    rw [ascii_length, Nat.toString_eq_repr, ← Nat.length_repr_le_iff (by decide)]
    omega
  simp only [sprintf, hdigits]

theorem handleRequest_eq_some {c c' : RequestContext} :
    handleRequest c = some c' ↔ c.pathLen < 10 ^ 9 ∧ ∃ b, httpResponseInit c.outputBuffer 200
      c.responseHeaders c.pathTail c.pathLen = some b ∧ c' = { c with outputBuffer := b } := by
  have hdef : handleRequest c = (sprintf 10 (ascii (toString c.pathLen))).bind fun value =>
      (httpResponseInit c.outputBuffer 200
        [⟨ascii "Content-Length", 14, value, value.length⟩,
         ⟨ascii "Connection", 10, c.connectionValue, c.connectionValue.length⟩]
        c.pathTail c.pathLen).bind fun b => some { c with outputBuffer := b } := rfl
  rw [hdef, sprintf_digits]
  by_cases hlt : c.pathLen < 10 ^ 9
  · rw [if_pos hlt, Option.bind_some, Option.bind_eq_some_iff, and_iff_right hlt]
    refine exists_congr fun b => and_congr_right fun _ => ?_
    rw [Option.some.injEq, eq_comm]
  · rw [if_neg hlt, Option.bind_none]
    exact iff_of_false nofun fun h => hlt h.1

theorem handleRequest_exists {c : RequestContext}
    (h : (c.httpRequest.path.map Slice.len).getD 0 < 10 ^ 9) : ∃ c', handleRequest c = some c' := by
  have hlen : c.pathLen < 10 ^ 9 := h
  have hdigits : (ascii (toString c.pathLen)).length ≤ 9 := by
    rw [ascii_length]
    exact Nat.repr_length _ 9 (by omega) hlen
  have hvalue : c.connectionValue.length ≤ 10 := by
    rw [RequestContext.connectionValue]
    split <;> decide
  obtain ⟨b, hb⟩ := httpResponseInit_exists c.outputBuffer 200 c.responseHeaders c.pathTail
    c.pathLen (by decide) (by
      intro h hh
      simp only [RequestContext.responseHeaders, List.mem_cons, List.not_mem_nil, or_false] at hh
      rcases hh with rfl | rfl
      · dsimp only
        omega
      · dsimp only
        omega) (by omega)
  exact ⟨_, handleRequest_eq_some.mpr ⟨hlen, b, hb, rfl⟩⟩

theorem httpResponseInit_from {b b' : OutputBuffer} {statusCode bodyLen : Nat}
    {headers : List HttpHeader} {body : List UInt8}
    (h : httpResponseInit b statusCode headers body bodyLen = some b') :
    b'.writeFromOffset = b.writeFromOffset := by
  rw [httpResponseInit_eq, Option.bind_eq_some_iff] at h
  obtain ⟨b1, h1, h2⟩ := h
  rw [outputBufferAppend_from h2, appendAll_from h1]

theorem handleRequest_from {c c' : RequestContext} (h : handleRequest c = some c') :
    c'.outputBuffer.writeFromOffset = c.outputBuffer.writeFromOffset := by
  obtain ⟨-, buffer, hinit, rfl⟩ := handleRequest_eq_some.mp h
  exact httpResponseInit_from hinit

end Jullop
