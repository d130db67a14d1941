import Jullop.Fragments
import Mathlib.Data.List.Chain
import Mathlib.Data.List.Forall2

/-! Several requests on one connection: the context that the reset leaves for
the next request, and the bytes that arrive behind a request. -/

namespace Jullop

open HttpParser InputBuffer

/-- Calls of `output_buffer_write_to` on successive writable events, up to the
one that has written everything. -/
inductive Drained : OutputBuffer → OutputBuffer → Prop
  | finish {b b' : OutputBuffer} {ws : List WriteResult} {bytes : List UInt8} :
      outputBufferWriteTo b ws = some (.writeFinish, bytes, b') → Drained b b'
  | busy {b b' b'' : OutputBuffer} {ws : List WriteResult} {bytes : List UInt8} :
      outputBufferWriteTo b ws = some (.writeBusy, bytes, b') → Drained b' b'' → Drained b b''

/-- A request is handled, its response is written and, as it asks for that, the
context is reset for the next one. -/
inductive Answered : RequestContext → RequestContext → Prop
  | intro {c c' : RequestContext} {b : OutputBuffer} : handleRequest c = some c' →
      Drained c'.outputBuffer b → contextKeepAlive { c' with outputBuffer := b } = true →
      Answered c (contextFinalizeReset { c' with outputBuffer := b })

/-- One readable event: the reads of it, and the context before and after. -/
structure Exchange where
  chunks : List (List UInt8)
  before : RequestContext
  state : ReadState
  after : RequestContext

def Exchange.bytes (e : Exchange) : List UInt8 := e.chunks.flatten

/-- A run of one connection with one readable event for each request; the next
event comes after the response to the request before it. -/
inductive Conversation : RequestContext → List Exchange → Prop
  | nil (c : RequestContext) : Conversation c []
  | last {c c' : RequestContext} {chunks : List (List UInt8)} {st : ReadState} :
      tryParseHttpRequest c (arrival chunks) = some (st, c') →
      Conversation c [⟨chunks, c, st, c'⟩]
  | next {c c' d : RequestContext} {chunks : List (List UInt8)} {es : List Exchange} :
      tryParseHttpRequest c (arrival chunks) = some (.readFinish, c') → Answered c' d →
      Conversation d es → Conversation c (⟨chunks, c, .readFinish, c'⟩ :: es)

def AcceptedAs (e : Exchange) (q : List UInt8) : Prop :=
  e.state = .readFinish ∧ ∀ d whole d', Fresh d → whole.flatten = q →
    tryParseHttpRequest d (arrival whole) = some (.readFinish, d') →
    e.after.content = d'.content

/-- A context that waits for the first byte of a request. -/
structure Idle (limit : Nat) (c : RequestContext) : Prop where
  offset : c.inputBuffer.offset = 0
  length_pos : 0 < c.inputBuffer.length
  limit_eq : c.httpRequest.numHeaders = limit

theorem Idle.received {limit : Nat} {c : RequestContext} (h : Idle limit c) :
    c.inputBuffer.received = [] := by
  simp [InputBuffer.received, h.offset]

theorem Fresh.idle {c : RequestContext} (h : Fresh c) : Idle 100 c := by
  obtain ⟨heap, hread, h100⟩ := h.reading
  exact ⟨hread.offset, hread.untouched.length_pos, h100⟩

theorem tryParse_idle {limit : Nat} {c c' : RequestContext} {chunks : List (List UInt8)}
    {st : ReadState} (hc : Idle limit c)
    (ht : tryParseHttpRequest c (arrival chunks) = some (st, c')) :
    c'.inputBuffer.received = chunks.flatten ∧ 0 < c'.inputBuffer.length ∧
      st = .ofParse (.ofResult (parseResult
        (parseRequest limit ⟨0, c'.inputBuffer.buffer, clearRequest⟩)).1) ∧
      c'.httpRequest = (parseResult
        (parseRequest limit ⟨0, c'.inputBuffer.buffer, clearRequest⟩)).2 := by
  simp only [tryParseHttpRequest, Option.bind_eq_bind, Option.bind_eq_some_iff, Prod.exists] at ht
  obtain ⟨rst, b, hread, ht⟩ := ht
  obtain rfl := readInto_arrival hread
  obtain ⟨-, hrec, hlt, -⟩ := inputBufferReadInto_eq_some hc.length_pos hread
  rw [hc.received, List.nil_append, delivered_arrival] at hrec
  simp only [Option.pure_def, Option.some.injEq, Prod.mk.injEq] at ht
  obtain ⟨rfl, rfl⟩ := ht
  refine ⟨hrec, Nat.lt_of_le_of_lt (Nat.zero_le _) hlt, ?_, ?_⟩
  · rw [httpRequestParse, hc.offset, phrParseRequest_of_check (.inl rfl), hc.limit_eq]
  · rw [httpRequestParse, hc.offset, phrParseRequest_of_check (.inl rfl), hc.limit_eq]

theorem idle_accepts {n limit : Nat} {q : List UInt8} {c c' : RequestContext}
    {chunks : List (List UInt8)} {st : ReadState} {out : HttpRequest} (hout : Denotes n q out)
    (hc : Idle limit c) (hq : q <+: chunks.flatten) (hn : n ≤ limit)
    (ht : tryParseHttpRequest c (arrival chunks) = some (st, c')) :
    st = .ofParse (.ofResult (toInt q.length)) ∧ c'.httpRequest = out ∧
      c'.content = out.content q := by
  obtain ⟨hrec, -, hst, hreq⟩ := tryParse_idle hc ht
  obtain ⟨x, hx⟩ := hq
  have hbuf : c'.inputBuffer.buffer = q ++ (x ++ c'.inputBuffer.stale) := by
    rw [buffer_eq, hrec, ← hx, List.append_assoc]
  have hparse := hout.2 limit (x ++ c'.inputBuffer.stale) hn
  simp only [hbuf, hparse, parseResult] at hst hreq
  refine ⟨hst, hreq, ?_⟩
  rw [RequestContext.content, hreq, hbuf, HttpRequest.content_append hout.1]

theorem idle_refuses {n limit : Nat} {q : List UInt8} {c c' : RequestContext}
    {chunks : List (List UInt8)} {st : ReadState} (hb : Head n q)
    (hc : Idle limit c) (hq : q <+: chunks.flatten) (hn : limit < n)
    (ht : tryParseHttpRequest c (arrival chunks) = some (st, c')) : st = .readError := by
  obtain ⟨hrec, -, hst, -⟩ := tryParse_idle hc ht
  obtain ⟨x, hx⟩ := hq
  have hbuf : c'.inputBuffer.buffer = q ++ (x ++ c'.inputBuffer.stale) := by
    rw [buffer_eq, hrec, ← hx, List.append_assoc]
  rw [hbuf, parseResult_of_error (parseRequest_of_many _ _ _ hb rfl hn)] at hst
  exact hst

theorem Answered.input {c d : RequestContext} (h : Answered c d) :
    d.inputBuffer = inputBufferReset c.inputBuffer ∧ d.httpRequest = c.httpRequest := by
  cases h with
  | intro hhandle _ _ =>
    obtain ⟨-, _, -, rfl⟩ := handleRequest_eq_some.mp hhandle
    exact ⟨rfl, rfl⟩

theorem Answered.idle {c d : RequestContext} (h : Answered c d)
    (hpos : 0 < c.inputBuffer.length) : Idle c.httpRequest.numHeaders d := by
  obtain ⟨hin, hreq⟩ := h.input
  refine ⟨?_, ?_, by rw [hreq]⟩
  · rw [hin]
    rfl
  · rw [hin]
    exact hpos

theorem idle_acceptedAs_iff {n limit : Nat} {q : List UInt8} {c c' : RequestContext}
    {chunks : List (List UInt8)} {st : ReadState} (hb : Head n q) (hacc : AcceptedWhole q)
    (hc : Idle limit c) (hq : q <+: chunks.flatten)
    (ht : tryParseHttpRequest c (arrival chunks) = some (st, c')) :
    AcceptedAs ⟨chunks, c, st, c'⟩ q ↔ n ≤ limit := by
  constructor
  · rintro ⟨hst, -⟩
    by_contra hn
    have herr := idle_refuses hb hc hq (Nat.lt_of_not_le hn) ht
    cases hst.symm.trans herr
  · intro hn
    obtain ⟨out, -, hin, hread⟩ := parseRequest_head hb
    have hout : Denotes n q out := ⟨hin, hread⟩
    obtain ⟨hst, -, hcontent⟩ := idle_accepts hout hc hq hn ht
    obtain ⟨d, whole, d', hd, hw, htd⟩ := hacc
    have hfin := (whole_accepted hb hout hd hw htd).2.1
    refine ⟨hst.trans hfin, fun d whole d' hd hw htd => ?_⟩
    exact hcontent.trans (whole_accepted hb hout hd hw htd).2.2.symm

theorem idle_next {n limit : Nat} {q : List UInt8} {c c' d : RequestContext}
    {chunks : List (List UInt8)} (hb : Head n q) (hc : Idle limit c) (hq : q <+: chunks.flatten)
    (ht : tryParseHttpRequest c (arrival chunks) = some (.readFinish, c'))
    (ha : Answered c' d) : n ≤ limit ∧ Idle n d := by
  obtain ⟨-, hpos, -⟩ := tryParse_idle hc ht
  have hn : n ≤ limit := by
    by_contra hn
    cases idle_refuses hb hc hq (Nat.lt_of_not_le hn) ht
  obtain ⟨out, hcount, hin, hread⟩ := parseRequest_head hb
  obtain ⟨-, hreq, -⟩ := idle_accepts ⟨hin, hread⟩ hc hq hn ht
  have hidle := ha.idle hpos
  rw [hreq, hcount] at hidle
  exact ⟨hn, hidle⟩

/-- Each request is held against the number of headers of the one before it. -/
theorem conversation_accepts_iff {limit : Nat} {c : RequestContext} {es : List Exchange}
    {ns : List Nat} {qs : List (List UInt8)} (hc : Idle limit c) (hconv : Conversation c es)
    (hheads : List.Forall₂ Head ns qs)
    (hsent : List.Forall₂ (fun e q => q <+: e.bytes) es qs) (hacc : ∀ q ∈ qs, AcceptedWhole q) :
    List.Forall₂ AcceptedAs es qs ↔ (limit :: ns).IsChain (· ≥ ·) := by
  induction hconv generalizing limit ns qs with
  | nil =>
    cases hsent
    cases hheads
    simp
  | last ht =>
    cases hsent with
    | cons hq hrest =>
      cases hrest
      cases hheads with
      | cons hb hrest =>
        cases hrest
        have hfirst := idle_acceptedAs_iff hb (hacc _ (by simp)) hc hq ht
        simpa using hfirst
  | next ht ha _ ih =>
    cases hsent with
    | cons hq hrest =>
      cases hheads with
      | cons hb hheads =>
        have hfirst := idle_acceptedAs_iff hb (hacc _ (by simp)) hc hq ht
        have hidle := (idle_next hb hc hq ht ha).2
        have hlater := ih hidle hheads hrest (fun q hq => hacc q (by simp [hq]))
        rw [List.forall₂_cons, hfirst, hlater, List.isChain_cons_cons]

theorem conversation_forgets {limit : Nat} {c : RequestContext} {es : List Exchange}
    (hc : Idle limit c) (hconv : Conversation c es) :
    (∀ e ∈ es, e.after.inputBuffer.received = e.bytes) ∧
      (∀ e ∈ es, e.before.inputBuffer.received = []) := by
  induction hconv generalizing limit with
  | nil => simp
  | last ht =>
    have hrec := (tryParse_idle hc ht).1
    simp [Exchange.bytes, hrec, hc.received]
  | next ht ha _ ih =>
    obtain ⟨hrec, hpos, -⟩ := tryParse_idle hc ht
    obtain ⟨hafter, hbefore⟩ := ih (ha.idle hpos)
    constructor
    · intro e he
      rcases List.mem_cons.mp he with rfl | he
      · exact hrec
      · exact hafter e he
    · intro e he
      rcases List.mem_cons.mp he with rfl | he
      · exact hc.received
      · exact hbefore e he

theorem AcceptedWhole.limit {n : Nat} {q : List UInt8} (h : AcceptedWhole q) (hb : Head n q) :
    n ≤ 100 := by
  obtain ⟨d, whole, d', hd, hw, ht⟩ := h
  obtain ⟨out, -, hin, hread⟩ := parseRequest_head hb
  exact (whole_accepted hb ⟨hin, hread⟩ hd hw ht).1

theorem descending_iff {ns : List Nat} {qs : List (List UInt8)} (hheads : List.Forall₂ Head ns qs)
    (hacc : ∀ q ∈ qs, AcceptedWhole q) :
    (100 :: ns).IsChain (· ≥ ·) ↔ ns.Pairwise (· ≥ ·) := by
  have hlimit : ∀ n ∈ ns, 100 ≥ n := by
    induction hheads with
    | nil => simp
    | cons hb _ ih =>
      intro n hn
      rcases List.mem_cons.mp hn with rfl | hn
      · exact (hacc _ (by simp)).limit hb
      · exact ih (fun q hq => hacc q (by simp [hq])) n hn
  rw [List.isChain_iff_pairwise, List.pairwise_cons]
  exact and_iff_right hlimit

theorem sent_self (es : List Exchange) :
    List.Forall₂ (fun e q => q <+: e.bytes) es (es.map Exchange.bytes) := by
  rw [List.forall₂_map_right_iff, List.forall₂_same]
  exact fun e _ => List.prefix_rfl

/-- What is in the input buffer behind the request of one event is what the next
event starts from. -/
def Carried (e e' : Exchange) : Prop :=
  ∀ n q, Head n q → q <+: e.after.inputBuffer.received →
    e'.before.inputBuffer.received = e.after.inputBuffer.received.drop q.length

theorem carried_iff {e e' : Exchange} {n : Nat} {q : List UInt8} (hb : Head n q)
    (hq : q <+: e.after.inputBuffer.received) (hnil : e'.before.inputBuffer.received = []) :
    Carried e e' ↔ e.after.inputBuffer.received = q := by
  constructor
  · intro h
    have hdrop := h n q hb hq
    rw [hnil] at hdrop
    have hlen := List.drop_eq_nil_iff.mp hdrop.symm
    exact (hq.eq_of_length_le hlen).symm
  · rintro rfl n' q' hb' hq'
    rw [hb.prefix_eq hb' hq', hnil, List.drop_length]

theorem sent_mem {es : List Exchange} {ns : List Nat} {qs : List (List UInt8)}
    (hheads : List.Forall₂ Head ns qs)
    (hsent : List.Forall₂ (fun e q => q <+: e.bytes) es qs) {e : Exchange} (he : e ∈ es) :
    ∃ n q, Head n q ∧ q <+: e.bytes := by
  induction hsent generalizing ns with
  | nil => cases he
  | cons hq _ ih =>
    cases hheads with
    | cons hb hheads =>
      rcases List.mem_cons.mp he with rfl | he
      · exact ⟨_, _, hb, hq⟩
      · exact ih hheads he

theorem drained_exists (b : OutputBuffer) : ∃ b', Drained b b' := by
  by_cases h : b.writeFromOffset < b.writeIntoOffset
  · have hpos : 0 < b.writeIntoOffset - b.writeFromOffset := by omega
    have hle : b.writeFromOffset + (b.writeIntoOffset - b.writeFromOffset) ≤ b.writeIntoOffset := by
      omega
    have hall : ∃ bytes b', outputBufferWriteTo b
        [.accepted (b.writeIntoOffset - b.writeFromOffset)] = some (.writeFinish, bytes, b') := by
      rw [outputBufferWriteTo, dif_pos ⟨hpos, hle⟩, outputBufferWriteTo]
      rw [if_neg (by dsimp only; omega)]
      exact ⟨_, _, rfl⟩
    obtain ⟨bytes, b', hw⟩ := hall
    exact ⟨b', .finish hw⟩
  · have hnone : outputBufferWriteTo b [] = some (.writeFinish, [], b) := by
      simp [outputBufferWriteTo, h]
    exact ⟨b, .finish hnone⟩
def CarriesKeepAlive (q : List UInt8) : Prop :=
  ∀ d whole d', Fresh d → whole.flatten = q →
    tryParseHttpRequest d (arrival whole) = some (.readFinish, d') → contextKeepAlive d' = true

theorem contextKeepAlive_of_content {c d : RequestContext} (h : c.content = d.content) :
    contextKeepAlive c = contextKeepAlive d := by
  rw [contextKeepAlive, h, contextKeepAlive]

theorem answered_exists {c : RequestContext}
    (hpath : (c.httpRequest.path.map Slice.len).getD 0 < 10 ^ 9)
    (hkeep : contextKeepAlive c = true) : ∃ d, Answered c d := by
  obtain ⟨c', hc'⟩ := handleRequest_exists hpath
  obtain ⟨b, hb⟩ := drained_exists c'.outputBuffer
  have hsame : ({ c' with outputBuffer := b } : RequestContext).content = c.content := by
    obtain ⟨-, _, -, rfl⟩ := handleRequest_eq_some.mp hc'
    rfl
  exact ⟨_, .intro hc' hb ((contextKeepAlive_of_content hsame).trans hkeep)⟩

theorem path_within {r : HttpRequest} {n : Nat} (h : r.Within n) :
    (r.path.map Slice.len).getD 0 ≤ n := by
  cases hpath : r.path with
  | none => simp
  | some s =>
    have hs := h s (by simp [HttpRequest.slices, hpath])
    simp only [Option.map_some, Option.getD_some]
    omega

theorem idle_serves {n limit : Nat} {q : List UInt8} {c : RequestContext} (hb : Head n q)
    (hacc : AcceptedWhole q) (hkeep : CarriesKeepAlive q) (hlen : q.length < 10 ^ 9)
    (hc : Idle limit c) (hn : n ≤ limit) (x : List UInt8) :
    ∃ c' d, tryParseHttpRequest c (arrival ((q ++ x).map fun y => [y])) = some (.readFinish, c') ∧
      Answered c' d := by
  obtain ⟨out, -, hin, hread⟩ := parseRequest_head hb
  have hout : Denotes n q out := ⟨hin, hread⟩
  obtain ⟨st, c', ht⟩ := tryParse_bytes hc.length_pos (q ++ x)
  have hq : q <+: ((q ++ x).map fun y => [y]).flatten := by
    rw [bytes_flatten]
    exact List.prefix_append q x
  obtain ⟨hst, hreq, hcontent⟩ := idle_accepts hout hc hq hn ht
  obtain ⟨d, whole, d', hd, hw, htd⟩ := hacc
  obtain ⟨-, hfin, hcontent'⟩ := whole_accepted hb hout hd hw htd
  rw [hfin] at hst
  subst hst
  have hkeep' : contextKeepAlive c' = true :=
    (contextKeepAlive_of_content (hcontent.trans hcontent'.symm)).trans (hkeep d whole d' hd hw htd)
  have hpath := path_within hin
  obtain ⟨e, he⟩ := answered_exists (by rw [hreq]; omega) hkeep'
  exact ⟨c', e, ht, he⟩

theorem carriesKeepAlive_of_head {n : Nat} {q : List UInt8} (hb : Head n q)
    (h : (((parseRequest n ⟨0, q, clearRequest⟩).2.out.content q).headers.any fun (name, value) =>
      name = some (ascii "Connection") && value = ascii "Keep-Alive") = true) :
    CarriesKeepAlive q := by
  intro d whole d' hd hw ht
  obtain ⟨out, -, hin, hread⟩ := parseRequest_head hb
  have hcontent := (whole_accepted hb ⟨hin, hread⟩ hd hw ht).2.2
  have hparse := hread n [] (Nat.le_refl n)
  rw [List.append_nil] at hparse
  rw [hparse] at h
  rw [contextKeepAlive, hcontent]
  exact h

def keepAliveRequest : List UInt8 := ascii "GET / HTTP/1.1\r\nConnection: Keep-Alive\r\n\r\n"

def longerRequest : List UInt8 :=
  ascii "GET / HTTP/1.1\r\nConnection: Keep-Alive\r\nHost: a\r\n\r\n"

theorem head_of_fields {n : Nat} {ls : List UInt8} (h : Fields 0 n ls) :
    Head n (ascii "GET / HTTP/1.1\r\n" ++ (ls ++ ascii "\r\n")) := by
  have hget : IsToken (ascii "GET") := by decide
  have hslash : IsToken (ascii "/") := by decide
  exact .intro (.intro (.inl rfl) hget hslash) (.intro (d := 0x31) (by decide) (by decide)) .crlf
    h .crlf

theorem connection_field (k : Nat) : Field k (ascii "Connection: Keep-Alive") := by
  have hname : IsName (ascii "Connection") := by decide
  have htext : IsText (ascii " Keep-Alive") := by decide
  exact .named hname htext

theorem host_field (k : Nat) : Field k (ascii "Host: a") := by
  have hname : IsName (ascii "Host") := by decide
  have htext : IsText (ascii " a") := by decide
  exact .named hname htext

theorem keepAliveRequest_head : Head 1 keepAliveRequest :=
  head_of_fields (.more (connection_field 0) .crlf .none)

theorem longerRequest_head : Head 2 longerRequest :=
  head_of_fields (.more (connection_field 0) .crlf (.more (host_field 1) .crlf .none))

theorem keepAliveRequest_accepted : AcceptedWhole keepAliveRequest :=
  acceptedWhole_of_head keepAliveRequest_head (by omega) (by decide)

theorem longerRequest_accepted : AcceptedWhole longerRequest :=
  acceptedWhole_of_head longerRequest_head (by omega) (by decide)

theorem keepAliveRequest_carries : CarriesKeepAlive keepAliveRequest :=
  carriesKeepAlive_of_head keepAliveRequest_head (by decide +kernel)

theorem longerRequest_carries : CarriesKeepAlive longerRequest :=
  carriesKeepAlive_of_head longerRequest_head (by decide +kernel)

theorem conversation_exists {n : Nat} {p : List UInt8} (hp : Head n p) (hacc : AcceptedWhole p)
    (hkeep : CarriesKeepAlive p) (hlen : p.length < 10 ^ 9) (hn : n ≤ 100) (x q : List UInt8) :
    ∃ c es, Fresh c ∧ Conversation c es ∧ es.map Exchange.bytes = [p ++ x, q] := by
  have hc : Fresh (initRequestContext 0 (fun _ => 0) (fun _ => 0) 0) := ⟨_, _, _, _, rfl⟩
  obtain ⟨c', d, ht, ha⟩ := idle_serves hp hacc hkeep hlen hc.idle hn x
  have hd := ha.idle (tryParse_idle hc.idle ht).2.1
  obtain ⟨st, d', htd⟩ := tryParse_bytes hd.length_pos q
  refine ⟨_, _, hc, .next ht ha (.last htd), ?_⟩
  simp [Exchange.bytes, bytes_flatten]

theorem keepAliveRequest_conversation (x q : List UInt8) : ∃ c es, Fresh c ∧ Conversation c es ∧
    es.map Exchange.bytes = [keepAliveRequest ++ x, q] :=
  conversation_exists keepAliveRequest_head keepAliveRequest_accepted keepAliveRequest_carries
    (by decide) (by omega) x q

theorem keepAlive_accepts_iff {c : RequestContext} {es : List Exchange} {ns : List Nat}
    (hc : Fresh c) (hconv : Conversation c es)
    (hheads : List.Forall₂ Head ns (es.map Exchange.bytes))
    (hacc : ∀ e ∈ es, AcceptedWhole e.bytes) :
    (∀ e ∈ es, AcceptedAs e e.bytes) ↔ ns.Pairwise (· ≥ ·) := by
  have hacc' : ∀ q ∈ es.map Exchange.bytes, AcceptedWhole q := by
    intro q hq
    obtain ⟨e, he, rfl⟩ := List.mem_map.mp hq
    exact hacc e he
  have hiff := conversation_accepts_iff hc.idle hconv hheads (sent_self es) hacc'
  rw [List.forall₂_map_right_iff, List.forall₂_same] at hiff
  rw [hiff, descending_iff hheads hacc']

/-- A request with two headers and then one with one header are both accepted. -/
theorem keepAlive_accepts_iff_twice :
    ∃ c es, Fresh c ∧ Conversation c es ∧ es.map Exchange.bytes = [longerRequest, keepAliveRequest] ∧
      ∀ e ∈ es, AcceptedAs e e.bytes := by
  obtain ⟨c, es, hc, hconv, hes⟩ := conversation_exists longerRequest_head longerRequest_accepted
    longerRequest_carries (by decide) (by omega) [] keepAliveRequest
  rw [List.append_nil] at hes
  have hheads : List.Forall₂ Head [2, 1] (es.map Exchange.bytes) := by
    rw [hes]
    exact .cons longerRequest_head (.cons keepAliveRequest_head .nil)
  have hacc : ∀ e ∈ es, AcceptedWhole e.bytes := by
    intro e he
    have hmem := List.mem_map_of_mem (f := Exchange.bytes) he
    rw [hes] at hmem
    simp only [List.mem_cons, List.not_mem_nil, or_false] at hmem
    rcases hmem with heq | heq
    · exact heq ▸ longerRequest_accepted
    · exact heq ▸ keepAliveRequest_accepted
  exact ⟨c, es, hc, hconv, hes, (keepAlive_accepts_iff hc hconv hheads hacc).mpr (by decide)⟩

/-- A request with one header and then a request with two: the second is
refused. -/
theorem keepAlive_refuses_more_headers :
    ¬ ∀ c es, Fresh c → Conversation c es →
      (∀ q ∈ es.map Exchange.bytes, (∃ n, Head n q) ∧ AcceptedWhole q ∧ CarriesKeepAlive q) →
      ∀ e ∈ es, AcceptedAs e e.bytes := by
  intro h
  obtain ⟨c, es, hc, hconv, hes⟩ := keepAliveRequest_conversation [] longerRequest
  rw [List.append_nil] at hes
  have hreqs : ∀ q ∈ es.map Exchange.bytes,
      (∃ n, Head n q) ∧ AcceptedWhole q ∧ CarriesKeepAlive q := by
    intro q hq
    rw [hes] at hq
    simp only [List.mem_cons, List.not_mem_nil, or_false] at hq
    rcases hq with rfl | rfl
    · exact ⟨⟨1, keepAliveRequest_head⟩, keepAliveRequest_accepted, keepAliveRequest_carries⟩
    · exact ⟨⟨2, longerRequest_head⟩, longerRequest_accepted, longerRequest_carries⟩
  have hall := h c es hc hconv hreqs
  have hheads : List.Forall₂ Head [1, 2] (es.map Exchange.bytes) := by
    rw [hes]
    exact .cons keepAliveRequest_head (.cons longerRequest_head .nil)
  have hchain := (conversation_accepts_iff hc.idle hconv hheads (sent_self es)
    (fun q hq => (hreqs q hq).2.1)).mp (by
      rw [List.forall₂_map_right_iff, List.forall₂_same]
      exact hall)
  simp at hchain

/-- The requests at the head of the events are served, one for each event and in
their order. A reset leaves nothing of what was behind one of them. -/
theorem keepAlive_serves_heads {c : RequestContext} {es : List Exchange} {ns : List Nat}
    {qs : List (List UInt8)} (hc : Fresh c) (hconv : Conversation c es)
    (hheads : List.Forall₂ Head ns qs)
    (hsent : List.Forall₂ (fun e q => q <+: e.bytes) es qs) (hacc : ∀ q ∈ qs, AcceptedWhole q)
    (hdesc : ns.Pairwise (· ≥ ·)) :
    List.Forall₂ AcceptedAs es qs ∧ es.IsChain fun e e' =>
      e'.before.inputBuffer.received = [] ∧
        (Carried e e' ↔ ∃ n, Head n e.after.inputBuffer.received) := by
  obtain ⟨hafter, hbefore⟩ := conversation_forgets hc.idle hconv
  refine ⟨?_, ?_⟩
  · rw [conversation_accepts_iff hc.idle hconv hheads hsent hacc, descending_iff hheads hacc]
    exact hdesc
  · refine List.Pairwise.isChain (List.pairwise_of_forall_mem_list fun e he e' he' => ?_)
    have hnil := hbefore e' he'
    refine ⟨hnil, ?_⟩
    obtain ⟨n, q, hb, hq⟩ := sent_mem hheads hsent he
    rw [← hafter e he] at hq
    rw [carried_iff hb hq hnil]
    constructor
    · intro heq
      exact ⟨n, heq ▸ hb⟩
    · rintro ⟨n', hb'⟩
      exact (hb'.prefix_eq hb hq).symm

theorem keepAlive_serves_heads_twice :
    ∃ c es, Fresh c ∧ Conversation c es ∧
      List.Forall₂ Head [1, 1] [keepAliveRequest, keepAliveRequest] ∧
      List.Forall₂ (fun e q => q <+: e.bytes) es [keepAliveRequest, keepAliveRequest] ∧
      (∀ q ∈ [keepAliveRequest, keepAliveRequest], AcceptedWhole q) ∧ [1, 1].Pairwise (· ≥ ·) ∧
      List.Forall₂ AcceptedAs es [keepAliveRequest, keepAliveRequest] ∧ es.IsChain fun e e' =>
        e'.before.inputBuffer.received = [] ∧
          (Carried e e' ↔ ∃ n, Head n e.after.inputBuffer.received) := by
  obtain ⟨c, es, hc, hconv, hes⟩ := keepAliveRequest_conversation longerRequest keepAliveRequest
  have hheads : List.Forall₂ Head [1, 1] [keepAliveRequest, keepAliveRequest] :=
    .cons keepAliveRequest_head (.cons keepAliveRequest_head .nil)
  have hsent : List.Forall₂ (fun e q => q <+: e.bytes) es [keepAliveRequest, keepAliveRequest] := by
    have hpre : List.Forall₂ (fun b q => q <+: b) (es.map Exchange.bytes)
        [keepAliveRequest, keepAliveRequest] := by
      rw [hes]
      exact .cons (List.prefix_append _ _) (.cons List.prefix_rfl .nil)
    exact List.forall₂_map_left_iff.mp hpre
  have hacc : ∀ q ∈ [keepAliveRequest, keepAliveRequest], AcceptedWhole q := by
    intro q hq
    have heq : q = keepAliveRequest := by simpa using hq
    rw [heq]
    exact keepAliveRequest_accepted
  have hdesc : [1, 1].Pairwise (· ≥ ·) := by decide
  exact ⟨c, es, hc, hconv, hheads, hsent, hacc, hdesc,
    keepAlive_serves_heads hc hconv hheads hsent hacc hdesc⟩

/-- Two requests in one event and a third in the next: the second is lost. -/
theorem keepAlive_loses_second :
    ¬ ∀ c es (qs : List (List UInt8)), Fresh c → Conversation c es →
      (∀ q ∈ qs, (∃ n, Head n q) ∧ AcceptedWhole q ∧ CarriesKeepAlive q) →
      (es.map Exchange.bytes).flatten = qs.flatten → es.IsChain Carried := by
  intro h
  obtain ⟨c, es, hc, hconv, hes⟩ := keepAliveRequest_conversation keepAliveRequest keepAliveRequest
  have hchain := h c es [keepAliveRequest, keepAliveRequest, keepAliveRequest] hc hconv (by
    intro q hq
    have heq : q = keepAliveRequest := by simpa using hq
    rw [heq]
    exact ⟨⟨1, keepAliveRequest_head⟩, keepAliveRequest_accepted, keepAliveRequest_carries⟩) (by
    rw [hes]
    simp)
  obtain ⟨hafter, hbefore⟩ := conversation_forgets hc.idle hconv
  rcases es with _ | ⟨e, _ | ⟨e', es⟩⟩
  · simp at hes
  · simp at hes
  · simp only [List.map_cons, List.cons.injEq] at hes
    have hrec := (hafter e (by simp)).trans hes.1
    have hcarried := (List.isChain_cons_cons.mp hchain).1
    have hpre : keepAliveRequest <+: e.after.inputBuffer.received := by
      rw [hrec]
      exact List.prefix_append _ _
    have hsame := (carried_iff keepAliveRequest_head hpre (hbefore e' (by simp))).mp hcarried
    rw [hrec] at hsame
    exact absurd (List.append_right_eq_self.mp hsame) (by decide)

end Jullop
