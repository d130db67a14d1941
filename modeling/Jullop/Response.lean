import Jullop.OutputStream
import Jullop.ReceivedBytes
import Jullop.RequestSteps
import Mathlib.Data.List.TakeWhile

/-! The whole response that `handle_request` formats into an empty output buffer,
and what a client makes of it. -/

namespace Jullop

open HttpParser OutputBuffer

theorem toInt_of_lt {n : Nat} (h : n < 2 ^ 31) : toInt n = n := by
  unfold HttpParser.toInt
  exact Int.bmod_eq_of_le (n := (n : Int)) (m := 2 ^ 32) (by omega) (by omega)

theorem formatString_of_no_nul {len : Nat} {mem : List UInt8} (h : len < 2 ^ 31)
    (hnul : 0 ∉ mem.take len) : formatString len mem = mem.take len := by
  rw [formatString, toInt_of_lt h, if_neg (by omega), Int.toNat_natCast, List.takeWhile_eq_self_iff]
  intro x hx
  refine decide_eq_true ?_
  rintro rfl
  exact hnul hx

theorem formatString_self {text : List UInt8} (h : text.length < 2 ^ 31) (hnul : 0 ∉ text) :
    formatString text.length text = text := by
  rw [formatString_of_no_nul h (by rwa [List.take_length]), List.take_length]

/-- Texts that leave room in the buffer are stored as they are. -/
theorem appendAll_content {texts : List (List UInt8)} {b b' : OutputBuffer}
    (h : texts.foldlM outputBufferAppend b = some b') (hroom : texts.flatten.length < b.room) :
    b'.content = b.content ++ texts.flatten ∧ b'.length = b.length := by
  induction texts generalizing b with
  | nil =>
    cases h
    simp
  | cons text texts ih =>
    rw [List.foldlM_cons, Option.bind_eq_bind, Option.bind_eq_some_iff] at h
    obtain ⟨b1, h1, h2⟩ := h
    rw [List.flatten_cons, List.length_append] at hroom
    have hcontent := outputBufferAppend_content h1
    have hinto := outputBufferAppend_into h1
    have hlen := outputBufferAppend_fits h1 (by omega)
    rw [fitted_of_ne (by omega)] at hcontent
    obtain ⟨hrest, hlength⟩ := ih h2 (by rw [room, hlen, hinto]; rw [room] at hroom; omega)
    refine ⟨?_, hlength.trans hlen⟩
    rw [hrest, hcontent, List.flatten_cons, List.append_assoc]

namespace RequestContext

variable (c : RequestContext)

def path : List UInt8 := c.content.path.getD []

def responseLines : List (List UInt8) :=
  [ascii "HTTP/1.1 200 Ok\r\n",
   ascii "Content-Length: " ++ ascii (toString c.pathLen) ++ ascii "\r\n",
   ascii "Connection: " ++ c.connectionValue ++ ascii "\r\n"]

def exactResponse : List UInt8 :=
  ascii "HTTP/1.1 200 Ok\r\nContent-Length: " ++ ascii (toString c.pathLen) ++
    ascii "\r\nConnection: " ++ c.connectionValue ++ ascii "\r\n\r\n" ++ c.path

end RequestContext

theorem digit_toNat {c : Char} {n : Nat} (h : c ∈ Nat.toDigits 10 n) :
    48 ≤ c.toNat.toUInt8.toNat ∧ c.toNat.toUInt8.toNat = c.toNat := by
  have hdigit := Nat.isDigit_of_mem_toDigits (by decide) (by decide) h
  simp only [Char.isDigit, Bool.and_eq_true, decide_eq_true_eq] at hdigit
  obtain ⟨hlow, hhigh⟩ : 48 ≤ c.toNat ∧ c.toNat ≤ 57 := hdigit
  have hbyte : c.toNat.toUInt8.toNat = c.toNat := by
    rw [Nat.toUInt8_eq, UInt8.toNat_ofNat', Nat.mod_eq_of_lt (by omega)]
  omega

theorem mem_digits {n : Nat} {b : UInt8} (h : b ∈ ascii (toString n)) : 48 ≤ b.toNat := by
  rw [ascii, Nat.toString_eq_repr, Nat.toList_repr, List.mem_map] at h
  obtain ⟨c, hc, rfl⟩ := h
  exact (digit_toNat hc).1

section Head

variable (c : RequestContext)

theorem connectionValue_cases : c.connectionValue = ascii "keep-alive" ∨ c.connectionValue = ascii "close" := by
  rw [RequestContext.connectionValue]
  split
  · exact .inl rfl
  · exact .inr rfl

theorem digits_length (h : c.pathLen < 10 ^ 9) : (ascii (toString c.pathLen)).length ≤ 9 := by
  rw [ascii_length]
  exact Nat.repr_length _ 9 (by omega) h

theorem responseLines_length (h : c.pathLen < 10 ^ 9) : c.responseLines.flatten.length < 70 := by
  have hdigits := digits_length c h
  have hvalue : c.connectionValue.length ≤ 10 := by
    rcases connectionValue_cases c with hv | hv <;> rw [hv] <;> decide
  have htexts : (ascii "HTTP/1.1 200 Ok\r\n").length + (ascii "Content-Length: ").length +
      (ascii "\r\n").length + (ascii "Connection: ").length + (ascii "\r\n").length = 49 := by
    decide
  simp only [RequestContext.responseLines, List.flatten_cons, List.flatten_nil, List.append_nil,
    List.length_append]
  omega

theorem responseLines_eq (h : c.pathLen < 10 ^ 9) :
    statusLine 200 :: c.responseHeaders.map HttpHeader.line = c.responseLines := by
  have hdigits := digits_length c h
  have hnul : 0 ∉ ascii (toString c.pathLen) := fun h0 => absurd (mem_digits h0) (by decide)
  have hlength := formatString_self (by omega) hnul
  have hvalue : formatString c.connectionValue.length c.connectionValue = c.connectionValue := by
    rcases connectionValue_cases c with hv | hv <;> rw [hv] <;> decide
  have hstatus : statusLine 200 = ascii "HTTP/1.1 200 Ok\r\n" := by decide
  have hname : formatString 14 (ascii "Content-Length") ++ ascii ": " = ascii "Content-Length: " := by
    decide
  have hname' : formatString 10 (ascii "Connection") ++ ascii ": " = ascii "Connection: " := by
    decide
  rw [RequestContext.responseHeaders, List.map_cons, List.map_cons, List.map_nil, HttpHeader.line,
    HttpHeader.line, hstatus, hname, hname', hlength, hvalue, RequestContext.responseLines]

theorem handleRequest_content {c c' : RequestContext} (hsize : bufSize ≤ c.outputBuffer.length)
    (hempty : c.outputBuffer.writeIntoOffset = 0) (h : handleRequest c = some c') :
    c'.outputBuffer.content = c.responseLines.flatten ++
      fitted (ascii "\r\n" ++ formatString c.pathLen c.pathTail)
        (c.outputBuffer.length - c.responseLines.flatten.length) := by
  obtain ⟨hpath, b, hb, rfl⟩ := handleRequest_eq_some.mp h
  rw [httpResponseInit_eq, responseLines_eq c hpath, Option.bind_eq_some_iff] at hb
  obtain ⟨b1, h1, h2⟩ := hb
  have hhead := responseLines_length c hpath
  have hroom : c.responseLines.flatten.length < c.outputBuffer.room := by
    rw [room, hempty]
    rw [bufSize] at hsize
    omega
  have hnil : c.outputBuffer.content = [] := by
    rw [OutputBuffer.content, hempty, List.take_zero]
  obtain ⟨hcontent, hlength⟩ := appendAll_content h1 hroom
  rw [hnil, List.nil_append] at hcontent
  have hinto : b1.writeIntoOffset = c.responseLines.flatten.length := by
    rw [← b1.content_length, hcontent]
  rw [outputBufferAppend_content h2, hcontent, room, hlength, hinto]

theorem appendAll_length {texts : List (List UInt8)} {b b' : OutputBuffer}
    (h : texts.foldlM outputBufferAppend b = some b') : b.length ≤ b'.length := by
  induction texts generalizing b with
  | nil =>
    cases h
    exact Nat.le_refl _
  | cons text texts ih =>
    rw [List.foldlM_cons, Option.bind_eq_bind, Option.bind_eq_some_iff] at h
    obtain ⟨b1, h1, h2⟩ := h
    exact Nat.le_trans (outputBufferAppend_length h1) (ih h2)

theorem handleRequest_length {c c' : RequestContext} (h : handleRequest c = some c') :
    c.outputBuffer.length ≤ c'.outputBuffer.length := by
  obtain ⟨-, b, hb, rfl⟩ := handleRequest_eq_some.mp h
  rw [httpResponseInit_eq, Option.bind_eq_some_iff] at hb
  obtain ⟨b1, h1, h2⟩ := hb
  exact Nat.le_trans (appendAll_length h1) (outputBufferAppend_length h2)

/-- The text before the last byte is stored in any case. -/
theorem fitted_append (text text' : List UInt8) {room : Nat} (h : text.length < room) :
    ∃ rest, fitted (text ++ text') room = text ++ rest := by
  rw [fitted]
  split
  · rename_i hfit
    rw [List.length_append] at hfit
    have hne : text' ≠ [] := List.ne_nil_of_length_pos (by omega)
    exact ⟨text'.dropLast ++ [0], by rw [List.dropLast_append_of_ne_nil hne, List.append_assoc]⟩
  · exact ⟨text', rfl⟩

/-- The head of a response is stored as it is, whatever becomes of the body. -/
theorem handleRequest_head {c c' : RequestContext} (hsize : bufSize ≤ c.outputBuffer.length)
    (hempty : c.outputBuffer.writeIntoOffset = 0) (h : handleRequest c = some c') :
    ∃ rest, c'.outputBuffer.content = c.responseLines.flatten ++ (ascii "\r\n" ++ rest) := by
  obtain ⟨hpath, -⟩ := handleRequest_eq_some.mp h
  have hhead := responseLines_length c hpath
  have hcrlf : (ascii "\r\n").length = 2 := by decide
  rw [bufSize] at hsize
  obtain ⟨rest, hrest⟩ := fitted_append (ascii "\r\n") (formatString c.pathLen c.pathTail)
    (show (ascii "\r\n").length < c.outputBuffer.length - c.responseLines.flatten.length by omega)
  exact ⟨rest, by rw [handleRequest_content hsize hempty h, hrest]⟩

end Head

/-- A client's reading of a head: its lines up to the blank one, and the bytes
behind that. -/
def readHead (line : List UInt8) : List UInt8 → Option (List (List UInt8) × List UInt8)
  | [] => none
  | [_] => none
  | x :: y :: rest =>
    if x = CR ∧ y = LF then
      if line = [] then some ([], rest)
      else (readHead [] rest).map fun (lines, body) => (line :: lines, body)
    else readHead (line ++ [x]) (y :: rest)

def readDecimal (digits : List UInt8) : Nat := digits.foldl (fun n d => 10 * n + (d.toNat - 48)) 0

def contentLength (lines : List (List UInt8)) : Option Nat :=
  (lines.find? (ascii "Content-Length: ").isPrefixOf).map fun line =>
    readDecimal (line.drop (ascii "Content-Length: ").length)

/-- The body that a client reads: `Content-Length` bytes behind the blank line. -/
def clientBody (response : List UInt8) : Option (List UInt8) := do
  let (lines, rest) ← readHead [] response
  let n ← contentLength lines
  return rest.take n

theorem readHead_line {l : List UInt8} (line rest : List UInt8) (h : CR ∉ l) :
    readHead line (l ++ CR :: LF :: rest) =
      if line ++ l = [] then some ([], rest)
      else (readHead [] rest).map fun (lines, body) => ((line ++ l) :: lines, body) := by
  induction l generalizing line with
  | nil => simp [readHead]
  | cons x l ih =>
    obtain ⟨hx, hl⟩ := not_or.mp (List.mem_cons.not.mp h)
    obtain ⟨y, ys, hy⟩ : ∃ y ys, l ++ CR :: LF :: rest = y :: ys := by
      cases l with
      | nil => exact ⟨_, _, rfl⟩
      | cons y l => exact ⟨_, _, rfl⟩
    rw [List.cons_append, hy, readHead, if_neg (by simp [Ne.symm hx]), ← hy, ih (line ++ [x]) hl,
      List.append_assoc, List.singleton_append]

theorem readDecimal_digits (n : Nat) : readDecimal (ascii (toString n)) = n := by
  have hfold : ∀ (cs : List Char) (m : Nat), (∀ c ∈ cs, c ∈ Nat.toDigits 10 n) →
      (cs.map fun c => c.toNat.toUInt8).foldl (fun n d => 10 * n + (d.toNat - 48)) m =
        Nat.ofDigitChars 10 cs m := by
    intro cs
    induction cs with
    | nil => simp
    | cons c cs ih =>
      intro m hcs
      have hdigit := (digit_toNat (hcs c (by simp))).2
      rw [List.map_cons, List.foldl_cons, hdigit, Nat.ofDigitChars_cons]
      exact ih _ fun c hc => hcs c (by simp [hc])
  rw [readDecimal, ascii, Nat.toString_eq_repr, Nat.toList_repr, hfold _ 0 fun _ h => h,
    Nat.ofDigitChars_ten_toDigits]

def RequestContext.headLines (c : RequestContext) : List (List UInt8) :=
  [ascii "HTTP/1.1 200 Ok", ascii "Content-Length: " ++ ascii (toString c.pathLen),
   ascii "Connection: " ++ c.connectionValue]

theorem readHead_response (c : RequestContext) (rest : List UInt8) :
    readHead [] (c.responseLines.flatten ++ (ascii "\r\n" ++ rest)) = some (c.headLines, rest) := by
  have hcrlf : ascii "\r\n" = [CR, LF] := by decide
  have hstatus : ascii "HTTP/1.1 200 Ok\r\n" = ascii "HTTP/1.1 200 Ok" ++ [CR, LF] := by decide
  have hshape : c.responseLines.flatten ++ (ascii "\r\n" ++ rest) =
      ascii "HTTP/1.1 200 Ok" ++ CR :: LF ::
        ((ascii "Content-Length: " ++ ascii (toString c.pathLen)) ++ CR :: LF ::
          ((ascii "Connection: " ++ c.connectionValue) ++ CR :: LF :: ([] ++ CR :: LF :: rest))) := by
    simp [RequestContext.responseLines, hcrlf, hstatus]
  have hlength : CR ∉ ascii "Content-Length: " ++ ascii (toString c.pathLen) := by
    rw [List.mem_append]
    rintro (hcr | hcr)
    · exact absurd hcr (by decide)
    · exact absurd (mem_digits hcr) (by decide)
  have hvalue : CR ∉ ascii "Connection: " ++ c.connectionValue := by
    rcases connectionValue_cases c with hv | hv <;> rw [hv] <;> decide
  have hne : ∀ {t u : List UInt8}, t ≠ [] → t ++ u ≠ [] := fun ht => List.append_ne_nil_of_left_ne_nil ht _
  rw [hshape, readHead_line [] _ (by decide), readHead_line [] _ hlength, readHead_line [] _ hvalue,
    readHead_line [] _ (by simp)]
  simp only [List.nil_append, if_neg (show ascii "HTTP/1.1 200 Ok" ≠ [] by decide),
    if_neg (hne (show ascii "Content-Length: " ≠ [] by decide)),
    if_neg (hne (show ascii "Connection: " ≠ [] by decide)), if_true, Option.map_some]
  rfl

theorem clientBody_response (c : RequestContext) {rest : List UInt8} (h : rest.length = c.pathLen) :
    clientBody (c.responseLines.flatten ++ (ascii "\r\n" ++ rest)) = some rest := by
  have hstatus : (ascii "Content-Length: ").isPrefixOf (ascii "HTTP/1.1 200 Ok") = false := by decide
  have hfound : contentLength c.headLines = some c.pathLen := by
    rw [contentLength, RequestContext.headLines, List.find?_cons_of_neg (by rw [hstatus]; nofun),
      List.find?_cons_of_pos (List.isPrefixOf_iff_prefix.mpr (List.prefix_append _ _)),
      Option.map_some, List.drop_left, readDecimal_digits]
  rw [clientBody, readHead_response]
  simp only [Option.bind_eq_bind, Option.bind_some, hfound, ← h, List.take_length]
  rfl

theorem httpRequestParse_path {b : InputBuffer} {prevLen : Nat} {r request : HttpRequest}
    (h : httpRequestParse b prevLen r = (.parseFinish, request)) :
    ∃ before t ys, (∀ x ∈ before, x ≠ SP) ∧ IsToken t ∧
      b.buffer = (before ++ [SP]) ++ (t ++ SP :: ys) ∧
      request.path = some ⟨(before ++ [SP]).length, t.length⟩ := by
  rcases hparse : phrParseRequest b.buffer r prevLen with ⟨result, request'⟩
  rw [httpRequestParse, hparse, Prod.mk.injEq] at h
  obtain ⟨hfin, rfl⟩ := h
  obtain ⟨hpos, hpos'⟩ := parseState_finish hfin
  obtain ⟨s, hs, rfl⟩ := phrParseRequest_eq_ok hparse hpos hpos'
  exact parseRequest_path hs

section Finished

variable {c : RequestContext} {prevLen : Nat} {request : HttpRequest}

theorem path_of_finish
    (h : httpRequestParse c.inputBuffer prevLen request = (.parseFinish, c.httpRequest)) :
    c.path.length = c.pathLen ∧ 0 ∉ c.path ∧
      (c.pathLen < 2 ^ 31 → formatString c.pathLen c.pathTail = c.path) := by
  obtain ⟨before, t, ys, -, ht, hbuf, hpath⟩ := httpRequestParse_path h
  have hlen : c.pathLen = t.length := by
    simp [RequestContext.pathLen, hpath]
  have htail : c.pathTail = t ++ SP :: ys := by
    simp [RequestContext.pathTail, hpath, hbuf]
  have htoken : c.path = t := by
    simp [RequestContext.path, RequestContext.content, HttpRequest.content, hpath, hbuf, Slice.read]
  rw [hlen, htail, htoken]
  refine ⟨rfl, ht.no_nul, fun hlt => ?_⟩
  have htake : (t ++ SP :: ys).take t.length = t := List.take_left
  rw [formatString_of_no_nul hlt (by rw [htake]; exact ht.no_nul), htake]

theorem exactResponse_eq : c.exactResponse = c.responseLines.flatten ++ (ascii "\r\n" ++ c.path) := by
  have hstart : ascii "HTTP/1.1 200 Ok\r\nContent-Length: " =
      ascii "HTTP/1.1 200 Ok\r\n" ++ ascii "Content-Length: " := by decide
  have hmiddle : ascii "\r\nConnection: " = ascii "\r\n" ++ ascii "Connection: " := by decide
  have hend : ascii "\r\n\r\n" = ascii "\r\n" ++ ascii "\r\n" := by decide
  simp [RequestContext.exactResponse, RequestContext.responseLines, hstart, hmiddle, hend]

/-- What is stored is the exact response, unless that is as long as the buffer. -/
theorem stored_response_iff {c' : RequestContext}
    (hparse : httpRequestParse c.inputBuffer prevLen request = (.parseFinish, c.httpRequest))
    (hsize : bufSize ≤ c.outputBuffer.length) (hempty : c.outputBuffer.writeIntoOffset = 0)
    (h : handleRequest c = some c') :
    c'.outputBuffer.content = c.exactResponse ↔
      c.exactResponse.length ≠ c.outputBuffer.length := by
  obtain ⟨-, hnul, hformat⟩ := path_of_finish hparse
  obtain ⟨hpath, -⟩ := handleRequest_eq_some.mp h
  have hhead := responseLines_length c hpath
  have hne : ascii "\r\n" ++ c.path ≠ [] := List.append_ne_nil_of_left_ne_nil (by decide) _
  have htext : 0 ∉ ascii "\r\n" ++ c.path := by
    rw [List.mem_append]
    rintro (h0 | h0)
    · exact absurd h0 (by decide)
    · exact hnul h0
  have hsum : c.exactResponse.length =
      c.responseLines.flatten.length + (ascii "\r\n" ++ c.path).length := by
    rw [exactResponse_eq, List.length_append]
  rw [handleRequest_content hsize hempty h, hformat (by omega), hsum, exactResponse_eq,
    List.append_cancel_left_eq, fitted_eq_iff htext]
  rw [bufSize] at hsize
  constructor
  · intro hfit heq
    exact hfit ⟨hne, by omega⟩
  · rintro hlen ⟨-, heq⟩
    exact hlen (by omega)

/-- The response is the exact one unless its length is the capacity of the
buffer. The digits of a longer path do not fit the array for them. -/
theorem exact_response_iff {tr : List OutputObs}
    (hparse : httpRequestParse c.inputBuffer prevLen request = (.parseFinish, c.httpRequest))
    (hrun : (outputStream bufSize).Run c.outputBuffer tr)
    (hempty : c.outputBuffer.writeIntoOffset = 0) :
    (∃ c', handleRequest c = some c' ∧
      c'.outputBuffer.buffer.take c'.outputBuffer.writeIntoOffset = c.exactResponse ∧
      clientBody (c'.outputBuffer.buffer.take c'.outputBuffer.writeIntoOffset) = some c.path) ↔
      c.pathLen < 10 ^ 9 ∧ c.exactResponse.length ≠ c.outputBuffer.length := by
  have hsize := (OutputStream.outputStream_inv hrun).size_le
  constructor
  · rintro ⟨c', hc', hresponse, -⟩
    obtain ⟨hpath, -⟩ := handleRequest_eq_some.mp hc'
    exact ⟨hpath, (stored_response_iff hparse hsize hempty hc').mp hresponse⟩
  · rintro ⟨hpath, hlen⟩
    obtain ⟨c', hc'⟩ := handleRequest_exists hpath
    have hresponse := (stored_response_iff hparse hsize hempty hc').mpr hlen
    refine ⟨c', hc', hresponse, ?_⟩
    have hbody := clientBody_response c (path_of_finish hparse).1
    rw [← exactResponse_eq, ← hresponse] at hbody
    exact hbody

end Finished

/-- A new connection after one event with a `GET` of a path of `n + 1` bytes. -/
def getReceived (n : Nat) : Option (ReadState × RequestContext) :=
  tryParseHttpRequest (initRequestContext 5 (fun _ => 0) (fun _ => 0) 0)
    [.data (ascii "GET /" ++ List.replicate n 97 ++ ascii " HTTP/1.0\r\n\r\n"), .wouldBlock]

theorem exact_response_iff_short : ∃ c st, getReceived 3 = some (st, c) ∧
    ∃ c', handleRequest c = some c' ∧ clientBody c'.outputBuffer.content = some (ascii "/aaa") := by
  have hany : (getReceived 3).any (fun x =>
      httpRequestParse x.2.inputBuffer 0 (initRequestContext 5 (fun _ => 0) (fun _ => 0) 0).httpRequest =
        (.parseFinish, x.2.httpRequest) ∧ x.2.pathLen < 10 ^ 9 ∧ x.2.exactResponse.length ≠ 1024 ∧
        x.2.path = ascii "/aaa") = true := by
    decide +kernel
  obtain ⟨⟨st, c⟩, hc, hx⟩ := (Option.any_eq_true _ _).mp hany
  obtain ⟨hparse, hlt, hlen, hpath⟩ := of_decide_eq_true hx
  obtain ⟨-, -, hout⟩ := RequestContext.tryParse_keeps hc
  have hrun : (outputStream bufSize).Run c.outputBuffer [] := .start ⟨fun _ => 0, hout⟩
  have hcap : c.outputBuffer.length = 1024 := by
    rw [hout]
    decide +kernel
  obtain ⟨c', hc', -, hbody⟩ := (exact_response_iff hparse hrun (by rw [hout]; rfl)).mpr
    ⟨hlt, by rwa [hcap]⟩
  rw [hpath] at hbody
  exact ⟨c, st, hc, c', hc', hbody⟩

/-- The response for a path of 965 bytes is as long as the buffer of a new
connection: its last byte is a NUL. -/
theorem response_loses_last_byte : ¬ ∀ c prevLen request tr,
    httpRequestParse c.inputBuffer prevLen request = (.parseFinish, c.httpRequest) →
    (outputStream bufSize).Run c.outputBuffer tr → c.outputBuffer.writeIntoOffset = 0 →
    ∃ c', handleRequest c = some c' ∧
      c'.outputBuffer.buffer.take c'.outputBuffer.writeIntoOffset = c.exactResponse := by
  intro hall
  have hany : (getReceived 964).any (fun x =>
      httpRequestParse x.2.inputBuffer 0 (initRequestContext 5 (fun _ => 0) (fun _ => 0) 0).httpRequest =
        (.parseFinish, x.2.httpRequest) ∧ x.2.exactResponse.length = 1024) = true := by
    decide +kernel
  obtain ⟨⟨st, c⟩, hc, hx⟩ := (Option.any_eq_true _ _).mp hany
  obtain ⟨hparse, hlen⟩ := of_decide_eq_true hx
  obtain ⟨-, -, hout⟩ := RequestContext.tryParse_keeps hc
  have hrun : (outputStream bufSize).Run c.outputBuffer [] := .start ⟨fun _ => 0, hout⟩
  have hempty : c.outputBuffer.writeIntoOffset = 0 := by
    rw [hout]
    rfl
  have hcap : c.outputBuffer.length = 1024 := by
    rw [hout]
    decide +kernel
  obtain ⟨c', hc', hresponse⟩ := hall c 0 _ [] hparse hrun hempty
  have hsize := (OutputStream.outputStream_inv hrun).size_le
  exact (stored_response_iff hparse hsize hempty hc').mp hresponse (hlen.trans hcap.symm)

end Jullop
