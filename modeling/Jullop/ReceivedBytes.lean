import Jullop.BlankLine
import Jullop.RequestContext
import Jullop.RequestHead

/-! What the outcome of a parse depends on. The parser is given the whole buffer
and not only the bytes received, so it may go on into bytes of an earlier request
or into uninitialised memory. -/

namespace Jullop

namespace HttpParser

open Scanner

/-! A NUL is only read over while the version is incomplete. -/

@[simp] theorem nul_ne_sp : (0 : UInt8) ≠ SP := by decide

@[simp] theorem nul_ne_ht : (0 : UInt8) ≠ HT := by decide

@[simp] theorem nul_ne_cr : (0 : UInt8) ≠ CR := by decide

theorem IsToken.no_nul {t : List UInt8} (h : IsToken t) : 0 ∉ t :=
  fun h0 => absurd (h 0 h0) (by decide)

theorem IsText.no_nul {t : List UInt8} (h : IsText t) : 0 ∉ t :=
  fun h0 => absurd (h 0 h0) (by decide)

theorem IsName.no_nul {n : List UInt8} (h : IsName n) : 0 ∉ n :=
  fun h0 => absurd (h.2 0 h0) (by decide)

theorem Eol.no_nul {e : List UInt8} (h : Eol e) : 0 ∉ e := by
  cases h <;> decide

theorem Lead.no_nul {l : List UInt8} (h : Lead l) : 0 ∉ l := by
  rcases h with rfl | he
  · simp
  · exact he.no_nul

theorem Target.no_nul {q : List UInt8} (h : Target q) : 0 ∉ q := by
  cases h with
  | intro hl hm ht => simp [hl.no_nul, hm.no_nul, ht.no_nul]

theorem OpenTarget.no_nul {q : List UInt8} (h : OpenTarget q) : 0 ∉ q := by
  cases h with
  | cr => decide
  | method hl hm => simp [hl.no_nul, hm.no_nul]
  | path hl hm ht => simp [hl.no_nul, hm.no_nul, ht.no_nul]

theorem Version.no_nul {v : List UInt8} (h : Version v) : 0 ∉ v := by
  cases h with
  | @intro d hlow hhigh =>
    have hd : d ≠ 0 := by
      rintro rfl
      exact absurd hlow (by decide)
    simp [hd.symm]

theorem Field.no_nul {k : Nat} {l : List UInt8} (h : Field k l) : 0 ∉ l := by
  cases h with
  | named hn ht => simp [hn.no_nul, ht.no_nul]
  | folded hc ht =>
    rcases hc with rfl | rfl <;> simp [ht.no_nul]

theorem Fields.no_nul {k n : Nat} {ls : List UInt8} (h : Fields k n ls) : 0 ∉ ls := by
  induction h with
  | none => simp
  | more hl he _ ih => simp [hl.no_nul, he.no_nul, ih]

theorem OpenField.no_nul {k : Nat} {l : List UInt8} (h : OpenField k l) : 0 ∉ l := by
  cases h with
  | name hn => exact hn.no_nul
  | text hl => exact hl.no_nul
  | cr hl => simp [hl.no_nul]

theorem OpenFields.no_nul {k n : Nat} {ls : List UInt8} (h : OpenFields k n ls) : 0 ∉ ls := by
  induction h with
  | done => simp
  | cr => decide
  | line hl => exact hl.no_nul
  | more hl he _ ih => simp [hl.no_nul, he.no_nul, ih]

theorem Head.no_nul {n : Nat} {b : List UInt8} (h : Head n b) : 0 ∉ b := by
  cases h with
  | intro hq hv he hls he' =>
    simp [hq.no_nul, hv.no_nul, he.no_nul, hls.no_nul, he'.no_nul]

theorem OpenHead.window {room : Nat} {xs : List UInt8} (h : OpenHead room xs) (h0 : 0 ∈ xs) :
    ∃ q w, Target q ∧ w.length < 9 ∧ xs = q ++ w := by
  cases h with
  | target hq => exact absurd h0 hq.no_nul
  | @version q w hq hw => exact ⟨q, w, hq, hw, rfl⟩
  | cr hq hv =>
    refine absurd h0 ?_
    simp [hq.no_nul, hv.no_nul]
  | fields hq hv he hls =>
    refine absurd h0 ?_
    simp [hq.no_nul, hv.no_nul, he.no_nul, hls.no_nul]

/-- Bytes that start with a NUL and are read over lie in the version. -/
theorem OpenHead.nul_append {room : Nat} {p : List UInt8} (ys : List UInt8)
    (h : OpenHead room (p ++ 0 :: ys)) :
    ∃ q w, Target q ∧ p = q ++ w ∧ w.length + (ys.length + 1) < 9 := by
  obtain ⟨q, w, hq, hw, heq⟩ := h.window (by simp)
  rcases List.append_eq_append_iff.mp heq with ⟨q', rfl, hys⟩ | ⟨w', rfl, rfl⟩
  · cases q' with
    | nil =>
      refine ⟨p, [], by simpa using hq, by simp, ?_⟩
      simp only [List.nil_append] at hys
      rw [← hys] at hw
      simpa using hw
    | cons c q' =>
      simp only [List.cons_append, List.cons.injEq] at hys
      exact absurd hq.no_nul (by simp [← hys.1])
  · refine ⟨q, w', hq, rfl, ?_⟩
    simpa [List.length_append] using hw

theorem parseRequest_nuls (out : HttpRequest) {room : Nat} {p : List UInt8}
    (hk : out.numHeaders = 0) (h : OpenHead room p) :
    (parseRequest room ⟨0, p ++ List.replicate 9 0, out⟩).1 = .error .malformed := by
  rcases parseRequest_cases room (p ++ List.replicate 9 0) with hopen | ⟨n, b, ys, hb, hn, heq⟩ |
    hbad
  · obtain ⟨q, w, -, -, hw⟩ := OpenHead.nul_append (List.replicate 8 0) hopen
    simp only [List.length_replicate] at hw
    omega
  · exfalso
    rcases List.append_eq_append_iff.mp heq with ⟨b', rfl, hys⟩ | ⟨ys', rfl, hys⟩
    · cases b' with
      | nil =>
        obtain ⟨out', -, -, hread⟩ := parseRequest_read 0 _ [] hb hk
        have hfst := parseRequest_of_open 0 _ h hk
        simp only [List.append_nil] at hread
        rw [hread room hn] at hfst
        cases hfst
      | cons c b' =>
        have hc : c = 0 := by
          simp only [List.replicate, List.cons_append, List.cons.injEq] at hys
          exact hys.1.symm
        exact absurd hb.no_nul (by simp [hc])
    · obtain ⟨out', -, -, hread⟩ := parseRequest_read 0 _ (ys') hb hk
      have hfst := parseRequest_of_open 0 _ h hk
      rw [hread room hn] at hfst
      cases hfst
  · exact hbad 0 out hk

/-- The bytes received decide the outcome: they hold an error or a whole request
head. Once the previous length is not zero, a blank line is looked for first. -/
def Settled (p : List UInt8) (prevLen limit : Nat) : Prop :=
  (prevLen ≠ 0 ∧ ∃ c, c ≠ LF ∧ Halts (p.drop (prevLen - 3)) c) ∨
    ((prevLen = 0 ∨ Halts (p.drop (prevLen - 3)) LF) ∧ ¬ OpenHead limit p)

theorem phrParseRequest_of_check {buf : List UInt8} {r : HttpRequest} {lastLen : Nat}
    (h : lastLen = 0 ∨ isComplete buf lastLen = .ok ()) :
    phrParseRequest buf r lastLen =
      parseResult (parseRequest r.numHeaders ⟨0, buf, clearRequest⟩) := by
  rcases h with rfl | h
  · rfl
  · simp only [phrParseRequest, h, ite_self]

theorem parseResult_out (x : Except Stop Unit × Cursor UInt8 HttpRequest) :
    (parseResult x).2 = x.2.out := by
  rcases x with ⟨_ | _, s⟩ <;> rfl

theorem parseResult_of_error {x : Except Stop Unit × Cursor UInt8 HttpRequest} {e : Stop}
    (h : x.1 = .error e) : parseResult x = (Stop.ret e, x.2.out) := by
  obtain ⟨y, s⟩ := x
  obtain rfl : y = .error e := h
  rfl

theorem phrParseRequest_of_error {buf : List UInt8} {r : HttpRequest} {lastLen : Nat} {e : Stop}
    (hlen : lastLen ≠ 0) (h : isComplete buf lastLen = .error e) :
    phrParseRequest buf r lastLen = (Stop.ret e, clearRequest) := by
  rw [phrParseRequest, if_pos hlen, h]

theorem phrParseRequest_append {p : List UInt8} {r : HttpRequest} {prevLen : Nat}
    (hlen : prevLen ≤ p.length) (h : Settled p prevLen r.numHeaders) (more : List UInt8) :
    phrParseRequest (p ++ more) r prevLen = phrParseRequest p r prevLen := by
  rcases h with ⟨hne, hbad⟩ | ⟨hcheck, hopen⟩
  · rw [← isComplete_malformed_iff] at hbad
    have hbad' := isComplete_append hlen (by simp [hbad]) more
    rw [phrParseRequest_of_error hne hbad, phrParseRequest_of_error hne (hbad'.trans hbad)]
  · rw [← isComplete_ok_iff] at hcheck
    have hcheck' : prevLen = 0 ∨ isComplete (p ++ more) prevLen = .ok () := by
      rcases hcheck with h0 | hok
      · exact .inl h0
      · exact .inr ((isComplete_append hlen (by simp [hok]) more).trans hok)
    rw [← parseRequest_incomplete_iff 0 clearRequest rfl] at hopen
    have hext : parseRequest r.numHeaders ⟨0, p ++ more, clearRequest⟩ = _ :=
      stable_parseRequest r.numHeaders ⟨0, p, clearRequest⟩ more hopen
    rw [phrParseRequest_of_check hcheck, phrParseRequest_of_check hcheck', hext]
    rcases parseRequest r.numHeaders ⟨0, p, clearRequest⟩ with ⟨_ | _, s⟩ <;> rfl

theorem phrParseRequest_eq_ok {p : List UInt8} {r : HttpRequest} {prevLen : Nat} {result : Int}
    {request : HttpRequest} (h : phrParseRequest p r prevLen = (result, request))
    (hpos : result ≠ -1) (hpos' : result ≠ -2) :
    ∃ s, parseRequest r.numHeaders ⟨0, p, clearRequest⟩ = (.ok (), s) ∧ s.out = request := by
  have hret : ∀ e, result ≠ Stop.ret e := by
    rintro (_ | _)
    · exact hpos'
    · exact hpos
  rw [phrParseRequest] at h
  split at h
  · exact absurd (Prod.mk.inj h).1.symm (hret _)
  · rcases hs : parseRequest r.numHeaders ⟨0, p, clearRequest⟩ with ⟨_ | _, s⟩
    · rw [hs] at h
      exact absurd (Prod.mk.inj h).1.symm (hret _)
    · rw [hs] at h
      exact ⟨s, rfl, (Prod.mk.inj h).2⟩

theorem phrParseRequest_within {p : List UInt8} {r : HttpRequest} {prevLen : Nat} {result : Int}
    {request : HttpRequest} (h : phrParseRequest p r prevLen = (result, request))
    (hpos : result ≠ -1) (hpos' : result ≠ -2) : request.Within p.length := by
  obtain ⟨s, hs, rfl⟩ := phrParseRequest_eq_ok h hpos hpos'
  obtain ⟨b, -, -, hp, hspos, hin⟩ := parseRequest_eq_ok rfl hs
  refine (hin (clearRequest_within 0)).mono ?_
  rw [hspos, hp, List.length_append]
  omega

end HttpParser

open HttpParser

theorem Slice.read_append {s : Slice} {p : List UInt8} (h : s.start + s.len ≤ p.length)
    (more : List UInt8) : s.read (p ++ more) = s.read p := by
  rw [Slice.read, List.drop_append_of_le_length (by omega), Slice.read,
    List.take_append_of_le_length (by rw [List.length_drop]; omega)]

theorem HttpRequest.content_append {r : HttpRequest} {p : List UInt8} (h : r.Within p.length)
    (more : List UInt8) : r.content (p ++ more) = r.content p := by
  have hread : ∀ s ∈ r.slices, Slice.read (p ++ more) s = Slice.read p s :=
    fun s hs => Slice.read_append (h s hs) more
  simp only [HttpRequest.slices, List.mem_append, Option.mem_toList, List.mem_flatMap,
    PhrHeader.slices, List.mem_singleton] at hread
  rw [HttpRequest.content, HttpRequest.content, RequestContent.mk.injEq]
  refine ⟨?_, ?_, rfl, ?_⟩
  · exact Option.map_congr fun s hs => hread s (.inl (.inl hs))
  · exact Option.map_congr fun s hs => hread s (.inl (.inr hs))
  · refine List.map_congr_left fun x hx => ?_
    have hx' := List.mem_of_mem_take hx
    rw [Prod.mk.injEq]
    refine ⟨?_, ?_⟩
    · exact Option.map_congr fun s hs => hread s (.inr ⟨x, hx', .inl hs⟩)
    · exact hread x.value (.inr ⟨x, hx', .inr rfl⟩)

/-- Two parses that a caller cannot tell apart: the same state and, when the
request is finished, the same request within the bytes received. -/
def SameOutcome (b b' : InputBuffer) (prevLen : Nat) (r r' : HttpRequest) : Prop :=
  (httpRequestParse b prevLen r).1 = (httpRequestParse b' prevLen r').1 ∧
    ((httpRequestParse b prevLen r).1 = .parseFinish →
      (httpRequestParse b prevLen r).2.content b.buffer =
        (httpRequestParse b' prevLen r').2.content b'.buffer ∧
      (httpRequestParse b prevLen r).2.Within b.offset ∧
      (httpRequestParse b' prevLen r').2.Within b'.offset)

theorem parseState_finish {result : Int} (h : ParseState.ofResult result = .parseFinish) :
    result ≠ -1 ∧ result ≠ -2 := by
  simp only [ParseState.ofResult] at h
  by_cases h1 : result = -1
  · simp [h1] at h
  · by_cases h2 : result = -2
    · simp [h2] at h
    · exact ⟨h1, h2⟩

theorem sameOutcome_of_settled {b b' : InputBuffer} {r r' : HttpRequest} {prevLen : Nat}
    (hb : b'.received = b.received) (hr : r'.numHeaders = r.numHeaders)
    (hlen : prevLen ≤ b.received.length) (h : Settled b.received prevLen r.numHeaders) :
    SameOutcome b b' prevLen r r' := by
  have hcongr : ∀ buf, phrParseRequest buf r' prevLen = phrParseRequest buf r prevLen := by
    intro buf
    rw [phrParseRequest, phrParseRequest, hr]
  have heq : phrParseRequest b.buffer r prevLen = phrParseRequest b.received r prevLen := by
    rw [b.buffer_eq]
    exact phrParseRequest_append hlen h _
  have heq' : phrParseRequest b'.buffer r' prevLen = phrParseRequest b.received r prevLen := by
    rw [hcongr, b'.buffer_eq, hb]
    exact phrParseRequest_append hlen h _
  rcases hres : phrParseRequest b.received r prevLen with ⟨result, request⟩
  simp only [SameOutcome, httpRequestParse, heq, heq', hres, true_and]
  intro hfin
  have hin := phrParseRequest_within hres (parseState_finish hfin).1 (parseState_finish hfin).2
  have hoff : b'.offset = b.offset := by
    rw [← b'.received_length, hb, b.received_length]
  rw [b'.buffer_eq, b.buffer_eq, hb, HttpRequest.content_append hin,
    HttpRequest.content_append hin, hoff]
  rw [b.received_length] at hin
  exact ⟨rfl, hin, hin⟩

def holding (p more : List UInt8) : InputBuffer where
  heap := fun _ => 0
  buffer := p ++ more
  offset := p.length
  resizeCount := 0
  offset_le := by simp

theorem holding_received (p more : List UInt8) : (holding p more).received = p := by
  simp [holding, InputBuffer.received]

theorem not_settled_cases {p : List UInt8} {prevLen limit : Nat}
    (h : ¬ Settled p prevLen limit) :
    (prevLen ≠ 0 ∧ isComplete p prevLen = .error .incomplete) ∨
      ((prevLen = 0 ∨ isComplete p prevLen = .ok ()) ∧ OpenHead limit p) := by
  by_cases h0 : prevLen = 0
  · refine .inr ⟨.inl h0, ?_⟩
    by_contra hopen
    exact h (.inr ⟨.inl h0, hopen⟩)
  · cases hc : isComplete p prevLen with
    | ok u =>
      refine .inr ⟨.inr rfl, ?_⟩
      by_contra hopen
      exact h (.inr ⟨.inr ((isComplete_ok_iff _ _).mp hc), hopen⟩)
    | error e =>
      cases e with
      | incomplete => exact .inl ⟨h0, rfl⟩
      | malformed => exact absurd (.inl ⟨h0, (isComplete_malformed_iff _ _).mp hc⟩) h

/-- What is not settled can be told apart: alone the bytes wait for more, and
with the right bytes after them they are an error. -/
theorem unsettled_told_apart {p : List UInt8} {prevLen : Nat} {r : HttpRequest}
    (hlen : prevLen ≤ p.length) (h : ¬ Settled p prevLen r.numHeaders) :
    ∃ more, (httpRequestParse (holding p []) prevLen r).1 = .parseIncomplete ∧
      (httpRequestParse (holding p more) prevLen r).1 = .parseError := by
  rcases not_settled_cases h with ⟨h0, hc⟩ | ⟨hc, hopen⟩
  · refine ⟨[CR, CR], ?_, ?_⟩
    · simp only [httpRequestParse, holding, List.append_nil, phrParseRequest_of_error h0 hc]
      rfl
    · have hbad := isComplete_cr_cr hlen hc []
      simp only [httpRequestParse, holding, phrParseRequest_of_error h0 hbad]
      rfl
  · refine ⟨List.replicate 9 0, ?_, ?_⟩
    · have hwait := parseRequest_of_open 0 clearRequest hopen rfl
      simp only [httpRequestParse, holding, List.append_nil, phrParseRequest_of_check hc,
        parseResult_of_error hwait]
      rfl
    · have hc' : prevLen = 0 ∨ isComplete (p ++ List.replicate 9 0) prevLen = .ok () := by
        rcases hc with h0 | hok
        · exact .inl h0
        · exact .inr ((isComplete_append hlen (by simp [hok]) _).trans hok)
      have hbad := parseRequest_nuls clearRequest rfl hopen
      simp only [httpRequestParse, holding, phrParseRequest_of_check hc',
        parseResult_of_error hbad]
      rfl

theorem httpRequestParse_depends_only_on_received_iff (p : List UInt8) (prevLen limit : Nat)
    (hlen : prevLen ≤ p.length) :
    (∀ (b b' : InputBuffer) (r r' : HttpRequest), b.received = p → b'.received = p →
      r.numHeaders = limit → r'.numHeaders = limit → SameOutcome b b' prevLen r r') ↔
      Settled p prevLen limit := by
  constructor
  · intro h
    by_contra hs
    obtain ⟨more, halone, hmore⟩ :=
      unsettled_told_apart (r := { clearRequest with numHeaders := limit }) hlen hs
    have hsame := (h (holding p []) (holding p more) { clearRequest with numHeaders := limit }
      { clearRequest with numHeaders := limit } (holding_received p []) (holding_received p more)
      rfl rfl).1
    rw [halone, hmore] at hsame
    cases hsame
  · rintro h b b' r r' rfl hb' rfl hr'
    exact sameOutcome_of_settled hb' hr' hlen h

theorem settled_head : Settled (ascii "GET / HTTP/1.1\n\n") 15 100 := by
  refine .inr ⟨.inr ?_, fun hopen => ?_⟩
  · exact (isComplete_ok_iff _ _).mp (by decide +kernel)
  · have hrest := (parseRequest_incomplete_iff 0 clearRequest rfl).mpr hopen
    exact absurd hrest (by decide +kernel)

theorem not_settled_first : ¬ Settled (ascii "G") 0 100 := by
  rintro (⟨hne, -⟩ | ⟨-, hopen⟩)
  · exact hne rfl
  · exact hopen (.target (.method (.inl rfl) (m := ascii "G") (by decide)))

/-- A whole head that all but its last byte of was there before is parsed alike,
whatever stands behind it; a first byte alone is not. -/
theorem httpRequestParse_depends_only_on_received_iff_head :
    (∀ (b b' : InputBuffer) (r r' : HttpRequest), b.received = ascii "GET / HTTP/1.1\n\n" →
      b'.received = ascii "GET / HTTP/1.1\n\n" → r.numHeaders = 100 → r'.numHeaders = 100 →
      SameOutcome b b' 15 r r') ∧
    ¬ ∀ (b b' : InputBuffer) (r r' : HttpRequest), b.received = ascii "G" →
      b'.received = ascii "G" → r.numHeaders = 100 → r'.numHeaders = 100 →
      SameOutcome b b' 0 r r' := by
  constructor
  · exact (httpRequestParse_depends_only_on_received_iff _ 15 100 (by decide)).mpr settled_head
  · intro hsame
    exact not_settled_first
      ((httpRequestParse_depends_only_on_received_iff _ 0 100 (Nat.zero_le _)).mp hsame)

/-- One byte received into a buffer of 1024 bytes: with zeros behind it the
parse fails, with an earlier request behind it the parse finishes. -/
theorem httpRequestParse_reads_stale :
    ¬ ∀ (b b' : InputBuffer) (prevLen : Nat) (r r' : HttpRequest), prevLen ≤ b.offset →
      b.received = b'.received → r.numHeaders = r'.numHeaders →
      SameOutcome b b' prevLen r r' := by
  intro h
  have hsame := (h (holding (ascii "G") (List.replicate 1023 0))
    (holding (ascii "G") (ascii "ET / HTTP/1.1\r\n\r\n" ++ List.replicate 1006 0)) 0
    { clearRequest with numHeaders := 100 } { clearRequest with numHeaders := 100 }
    (Nat.zero_le _) (by rw [holding_received, holding_received]) rfl).1
  exact absurd hsame (by decide +kernel)

end Jullop
