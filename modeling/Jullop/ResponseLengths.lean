import Jullop.Fragments
import Jullop.Response

/-! The lengths that `handle_request` and `http_response_init` bring into a smaller
type: the digits of the path length in an array of ten bytes, and the precisions of
the formats, which are of type `int`. -/

namespace Jullop

open HttpParser

/-- The bytes between the first two spaces of a request. -/
def requestTarget (bytes : List UInt8) : List UInt8 :=
  ((bytes.dropWhile (· ≠ SP)).drop 1).takeWhile (· ≠ SP)

theorem requestTarget_eq {before t ys : List UInt8} (hbefore : ∀ x ∈ before, x ≠ SP)
    (ht : IsToken t) : requestTarget ((before ++ [SP]) ++ (t ++ SP :: ys)) = t := by
  have hdrop : ((before ++ [SP]) ++ (t ++ SP :: ys)).dropWhile (· ≠ SP) = SP :: (t ++ SP :: ys) := by
    rw [List.append_assoc,
      List.dropWhile_append_of_pos fun x hx => decide_eq_true (hbefore x hx)]
    simp
  rw [requestTarget, hdrop, List.drop_one, List.tail_cons,
    List.takeWhile_append_of_pos fun x hx => decide_eq_true (ht.ne_space x hx)]
  simp

namespace RequestContext

/-- The text of the content length and its NUL fit the array, and no length that is
passed as a precision changes its value. -/
def LengthsSafe (c : RequestContext) : Prop :=
  (ascii (toString c.pathLen)).length + 1 ≤ 10 ∧ toInt c.pathLen = c.pathLen ∧
    ∀ h ∈ c.responseHeaders, toInt h.nameLen = h.nameLen ∧ toInt h.valueLen = h.valueLen

variable {c : RequestContext} {prevLen : Nat} {request : HttpRequest}

theorem pathLen_eq
    (h : httpRequestParse c.inputBuffer prevLen request = (.parseFinish, c.httpRequest)) :
    c.pathLen = (requestTarget c.inputBuffer.buffer).length := by
  obtain ⟨before, t, ys, hbefore, ht, hbuf, hpath⟩ := httpRequestParse_path h
  rw [hbuf, requestTarget_eq hbefore ht, pathLen, hpath]
  rfl

theorem lengthsSafe_of_lt (h : c.pathLen < 10 ^ 9) : c.LengthsSafe := by
  have hdigits := digits_length c h
  refine ⟨by omega, toInt_of_lt (by omega), ?_⟩
  intro x hx
  simp only [responseHeaders, List.mem_cons, List.not_mem_nil, or_false] at hx
  rcases hx with rfl | rfl
  · have hlt : (ascii (toString c.pathLen)).length < 2 ^ 31 := by omega
    exact ⟨toInt_of_lt (by decide : 14 < 2 ^ 31), toInt_of_lt hlt⟩
  · have hlt : c.connectionValue.length < 2 ^ 31 := by
      rcases connectionValue_cases c with hv | hv <;> rw [hv] <;> decide
    exact ⟨toInt_of_lt (by decide : 10 < 2 ^ 31), toInt_of_lt hlt⟩

theorem LengthsSafe.pathLen_lt (h : c.LengthsSafe) : c.pathLen < 10 ^ 9 := by
  have hdigits := h.1
  rw [ascii_length, Nat.toString_eq_repr] at hdigits
  exact (Nat.length_repr_le_iff (by decide)).mp (by omega)

/-- The lengths are safe for the requests with fewer than `10 ^ 9` bytes between the
first two spaces. -/
theorem lengths_safe_iff
    (hparse : httpRequestParse c.inputBuffer prevLen request = (.parseFinish, c.httpRequest)) :
    c.LengthsSafe ↔ (requestTarget c.inputBuffer.buffer).length < 10 ^ 9 := by
  rw [← pathLen_eq hparse]
  exact ⟨LengthsSafe.pathLen_lt, lengthsSafe_of_lt⟩

end RequestContext

/-- A new connection that has received a `GET` of four bytes. -/
theorem lengths_safe_iff_four : ∃ c st, getReceived 3 = some (st, c) ∧ c.LengthsSafe := by
  have hany : (getReceived 3).any (fun x =>
      httpRequestParse x.2.inputBuffer 0 (initRequestContext 5 (fun _ => 0) (fun _ => 0) 0).httpRequest =
        (.parseFinish, x.2.httpRequest) ∧
        (requestTarget x.2.inputBuffer.buffer).length = 4) = true := by
    decide +kernel
  obtain ⟨⟨st, c⟩, hc, hx⟩ := (Option.any_eq_true _ _).mp hany
  obtain ⟨hparse, hlen⟩ := of_decide_eq_true hx
  exact ⟨c, st, hc, (RequestContext.lengths_safe_iff hparse).mpr (by rw [hlen]; decide)⟩

/-- A `GET` of a path of `n` bytes. -/
def getOfLength (n : Nat) : List UInt8 :=
  ascii "GET " ++ List.replicate n 97 ++ ascii " HTTP/1.0\r\n\r\n"

theorem isToken_replicate (n : Nat) : IsToken (List.replicate n 97) := by
  intro c hc
  rw [List.eq_of_mem_replicate hc]
  decide

theorem isToken_get : IsToken (ascii "GET") := by decide

theorem getOfLength_eq (n : Nat) (more : List UInt8) : getOfLength n ++ more =
    (ascii "GET" ++ [SP]) ++ (List.replicate n 97 ++ SP :: (ascii "HTTP/1.0\r\n\r\n" ++ more)) := by
  have hget : ascii "GET " = ascii "GET" ++ [SP] := by decide
  have hversion : ascii " HTTP/1.0\r\n\r\n" = SP :: ascii "HTTP/1.0\r\n\r\n" := by decide
  simp [getOfLength, hget, hversion]

theorem getOfLength_head (n : Nat) : Head 0 (getOfLength n) := by
  have hhead := Head.intro (.intro (.inl rfl) isToken_get (isToken_replicate n))
    (.intro (d := 0x30) (by decide) (by decide)) .crlf .none .crlf
  have hrest : ascii "HTTP/1.0\r\n\r\n" =
      [0x48, 0x54, 0x54, 0x50, 0x2f, 0x31, 0x2e, 0x30] ++ ([CR, LF] ++ ([] ++ [CR, LF])) := by decide
  rw [← List.append_nil (getOfLength n), getOfLength_eq, hrest]
  simpa using hhead

theorem getOfLength_length (n : Nat) : (getOfLength n).length = n + 17 := by
  have hget : (ascii "GET ").length = 4 := by decide
  have hversion : (ascii " HTTP/1.0\r\n\r\n").length = 13 := by decide
  rw [getOfLength, List.length_append, List.length_append, hget, hversion, List.length_replicate]
  omega

theorem httpRequestParse_of_tryParse {heap : Nat → UInt8} {p : List UInt8} {c c' : RequestContext}
    {chunks : List (List UInt8)} (h : Reading heap p c)
    (ht : tryParseHttpRequest c (arrival chunks) = some (.readFinish, c')) :
    httpRequestParse c'.inputBuffer p.length c.httpRequest = (.parseFinish, c'.httpRequest) := by
  obtain ⟨hreading, hst, hrequest⟩ := tryParse_arrival h ht
  obtain ⟨hpos, hpos'⟩ := ofParse_finish hst.symm
  simp only [httpRequestParse, hreading.buffer, hrequest, ParseState.ofResult, if_neg hpos,
    if_neg hpos']

/-- The input buffer grows to hold a path of `10 ^ 9` bytes, and its length has a
digit too many for the array. -/
theorem lengths_unsafe : ¬ ∀ (c : RequestContext) (prevLen : Nat) (request : HttpRequest),
    httpRequestParse c.inputBuffer prevLen request = (.parseFinish, c.httpRequest) →
      c.LengthsSafe := by
  intro hall
  have hhead := getOfLength_head (10 ^ 9)
  have hlen := getOfLength_length (10 ^ 9)
  have hfin : ReadState.ofParse (.ofResult (toInt (getOfLength (10 ^ 9)).length)) = .readFinish := by
    rw [hlen, toInt_of_lt (by decide)]
    rfl
  obtain ⟨c, chunks, c', hfresh, hflat, ht⟩ := acceptedWhole_of_head hhead (by decide) hfin
  obtain ⟨heap, hreading, -⟩ := hfresh.reading
  obtain ⟨hreading', -, -⟩ := tryParse_arrival hreading ht
  have hparse := httpRequestParse_of_tryParse hreading ht
  have hlt := (hall c' _ _ hparse).pathLen_lt
  rw [RequestContext.pathLen_eq hparse, hreading'.buffer, List.nil_append, hflat, parserInput,
    getOfLength_eq, requestTarget_eq isToken_get.ne_space (isToken_replicate _),
    List.length_replicate] at hlt
  exact absurd hlt (by decide)

end Jullop
