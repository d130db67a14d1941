import Jullop.Framing
import Jullop.ResponseRoundTrip
import Jullop.StableRequest
import Mathlib.Data.List.Infix

/-! What a client makes of the bytes that are written to its connection, when it
parses the heads of the responses with `phr_parse_response`. -/

namespace Jullop

open HttpParser OutputBuffer

namespace RequestContent

variable (q : RequestContent)

def target : List UInt8 := q.path.getD []

def keepAlive : Bool :=
  q.headers.any fun (name, value) => name = some (ascii "Connection") && value = ascii "Keep-Alive"

/-- The head of the response to a request. -/
def answer : ResponseContent :=
  ⟨1, 200, some (ascii "Ok"),
    [(some (ascii "Content-Length"), ascii (toString q.target.length)),
     (some (ascii "Connection"), if q.keepAlive then ascii "keep-alive" else ascii "close")]⟩

end RequestContent

/-- The number of bytes that a client takes for the body. -/
def HttpParser.ResponseContent.bodyLength (c : ResponseContent) : Nat :=
  ((c.headers.find? fun h => h.1 = some (ascii "Content-Length")).map
    fun h => readDecimal h.2).getD 0

def readReply (bytes : List UInt8) : Option ((ResponseContent × List UInt8) × List UInt8) :=
  let (n, r) := phrParseResponse bytes numHeadersMax 0
  if n < 0 then none
  else
    let c := r.content bytes
    let rest := bytes.drop n.toNat
    if rest.length < c.bodyLength then none
    else some ((c, rest.take c.bodyLength), rest.drop c.bodyLength)

/-- The responses that a client has whole. -/
def clientReads (bytes : List UInt8) : List (ResponseContent × List UInt8) :=
  readAll readReply bytes.length bytes

/-- The body is the path of the request. Its last byte is lost if the response is as
long as the output buffer, which has `BUF_SIZE` bytes at least. -/
structure Answers (q : RequestContent) (reply : ResponseContent × List UInt8) : Prop where
  head : reply.1 = q.answer
  body : reply.2 = q.target ∨
    bufSize < 72 + q.target.length ∧ reply.2 = q.target.dropLast ++ [0]

/-- The bytes of a response. -/
inductive ReplyBytes : ResponseContent × List UInt8 → List UInt8 → Prop
  | intro {c : ResponseContent} {head body : List UInt8} (hhead : ResponseOf c head)
      (hmax : c.headers.length ≤ numHeadersMax) (hbody : c.bodyLength = body.length)
      (hlen : (head ++ body).length < 2 ^ 31) : ReplyBytes (c, body) (head ++ body)

theorem readReply_eq {bytes head rest : List UInt8} {c : ResponseContent} (hc : ResponseOf c head)
    (hmax : c.headers.length ≤ numHeadersMax) (hlen : head.length < 2 ^ 31)
    (hbytes : bytes = head ++ rest) :
    readReply bytes =
      if rest.length < c.bodyLength then none
      else some ((c, rest.take c.bodyLength), rest.drop c.bodyLength) := by
  subst hbytes
  obtain ⟨r, hparse, hr⟩ := phrParseResponse_of_head hc rest hmax hlen
  have hpos : ¬ ((head.length : Nat) : Int) < 0 := by omega
  simp only [readReply, hparse, hr, if_neg hpos, Int.toNat_natCast, List.drop_left]

/-- A head is nowhere the beginning of another one. -/
theorem responseOf_unique {c c' : ResponseContent} {b b' rest rest' : List UInt8}
    (h : ResponseOf c b) (h' : ResponseOf c' b') (heq : b ++ rest = b' ++ rest') :
    c = c' ∧ b = b' ∧ rest = rest' := by
  obtain ⟨r, hr, hread⟩ := parseResponse_content h rest
  obtain ⟨r', hr', hread'⟩ := parseResponse_content h' rest'
  have hboth := hread (max c.headers.length c'.headers.length) (by omega)
  have hboth' := hread' (max c.headers.length c'.headers.length) (by omega)
  rw [heq, hboth', Prod.mk.injEq, Cursor.mk.injEq] at hboth
  obtain ⟨-, hlen, rfl, rfl⟩ := hboth
  obtain ⟨rfl, -⟩ := List.append_inj' heq rfl
  exact ⟨by rw [← hr, ← hr'], rfl, rfl⟩

/-- What is accepted of the part of a response that has arrived is its head. -/
theorem readReply_part {c : ResponseContent} {head body p rest : List UInt8}
    (hhead : ResponseOf c head) (hmax : c.headers.length ≤ numHeadersMax)
    (hbody : c.bodyLength = body.length) (hlen : (head ++ body).length < 2 ^ 31)
    (heq : p ++ rest = head ++ body) (hrest : rest ≠ []) : readReply p = none := by
  have hsum := congrArg List.length heq
  rw [List.length_append] at hsum
  rcases hparse : phrParseResponse p numHeadersMax 0 with ⟨n, r⟩
  by_cases hneg : n < 0
  · simp only [readReply, hparse, if_pos hneg]
  · obtain ⟨m, rfl⟩ := Int.eq_ofNat_of_zero_le (Int.not_lt.mp hneg)
    obtain ⟨b, rest', ⟨hb, -⟩, rfl, -⟩ :=
      (phrParseResponse_accepts_iff (by omega) numHeadersMax m _).mp ⟨r, hparse, rfl⟩
    rw [List.append_assoc] at heq
    obtain ⟨-, rfl, rfl⟩ := responseOf_unique hb hhead heq
    have hpos := List.length_pos_of_ne_nil hrest
    rw [List.length_append] at hbody hlen
    rw [readReply_eq hhead hmax (by omega) rfl, hbody, if_pos (by omega)]

theorem framed_readReply : Framed readReply ReplyBytes where
  nil := by decide
  whole := by
    rintro _ _ ⟨hhead, hmax, hbody, hlen⟩ rest
    rw [List.length_append] at hlen
    rw [readReply_eq hhead hmax (by omega) (List.append_assoc _ _ _), hbody,
      if_neg (by rw [List.length_append]; omega), List.take_left, List.drop_left]
  part := by
    intro reply p rest hreply hrest
    generalize hw : p ++ rest = w at hreply
    obtain ⟨hhead, hmax, hbody, hlen⟩ := hreply
    exact readReply_part hhead hmax hbody hlen hw hrest

section

variable {c c' : RequestContext}

theorem digit_moves : ∀ b, IsDigit b → eolMove b = .go ∧ blankMove b = .halt :=
  forall_byte (by decide +kernel)

theorem formatString_digits (h : c.pathLen < 10 ^ 9) :
    formatString (ascii (toString c.pathLen)).length (ascii (toString c.pathLen)) =
      ascii (toString c.pathLen) := by
  have hdigits := digits_length c h
  refine formatString_self (by omega) fun h0 => ?_
  exact absurd (mem_digits h0) (by decide)

theorem answer_bodyLength (q : RequestContent) : q.answer.bodyLength = q.target.length := by
  rw [ResponseContent.bodyLength, RequestContent.answer, List.find?_cons_of_pos (by simp),
    Option.map_some, Option.getD_some, readDecimal_digits]

/-- A text behind the blank line is stored whole, but for its last byte if it ends
where the buffer does. -/
theorem fitted_body (text : List UInt8) {room : Nat} (h : 2 < room) :
    ∃ body, fitted (ascii "\r\n" ++ text) room = ascii "\r\n" ++ body ∧
      body.length = text.length ∧
      (body = text ∨ room = 2 + text.length ∧ body = text.dropLast ++ [0]) := by
  have hcrlf : (ascii "\r\n").length = 2 := by decide
  by_cases hfit : (ascii "\r\n" ++ text).length = room
  · have hsum := hfit
    rw [List.length_append, hcrlf] at hsum
    have hne : text ≠ [] := List.ne_nil_of_length_pos (by omega)
    have hall : ascii "\r\n" ++ text ≠ [] := List.append_ne_nil_of_right_ne_nil _ hne
    refine ⟨text.dropLast ++ [0], ?_, ?_, .inr ⟨hsum.symm, rfl⟩⟩
    · rw [fitted, if_pos ⟨hall, hfit⟩, List.dropLast_append_of_ne_nil hne, List.append_assoc]
    · rw [List.length_append, List.length_dropLast, List.length_singleton]
      omega
  · exact ⟨text, fitted_of_ne hfit, rfl, .inl rfl⟩

theorem responseHeaders_sendable (h : c.pathLen < 10 ^ 9) : ∀ x ∈ c.responseHeaders, x.Sendable := by
  have hdigits := formatString_digits h
  intro x hx
  rw [RequestContext.responseHeaders, List.mem_cons, List.mem_singleton] at hx
  rcases hx with rfl | rfl
  · refine ⟨show IsName (formatString 14 (ascii "Content-Length")) by decide +kernel, ?_, ?_⟩
    · rw [hdigits]
      exact fun b hb => (digit_moves b (digits_isDigit hb)).1
    · rw [hdigits]
      exact fun b hb => (digit_moves b (digits_isDigit (List.mem_of_mem_head? hb))).2
  · rcases connectionValue_cases c with hv | hv <;> rw [hv] <;>
      exact ⟨by decide +kernel, by decide +kernel, by decide +kernel⟩

theorem responseHeaders_content (h : c.pathLen < 10 ^ 9) (hpath : c.path.length = c.pathLen) :
    c.responseHeaders.map HttpHeader.content = c.content.answer.headers := by
  have hvalue : formatString c.connectionValue.length c.connectionValue = c.connectionValue := by
    rcases connectionValue_cases c with hv | hv <;> rw [hv] <;> decide
  have hnames : formatString 14 (ascii "Content-Length") = ascii "Content-Length" ∧
      formatString 10 (ascii "Connection") = ascii "Connection" := by decide
  have htarget : c.content.target.length = c.pathLen := hpath
  simp only [RequestContext.responseHeaders, List.map_cons, List.map_nil, HttpHeader.content,
    hnames.1, hnames.2, formatString_digits h, hvalue, RequestContent.answer, htarget]
  rfl

/-- A request that was parsed whole gets its answer. -/
theorem handleRequest_answers {prevLen : Nat} {request : HttpRequest}
    (hparse : httpRequestParse c.inputBuffer prevLen request = (.parseFinish, c.httpRequest))
    (hsize : bufSize ≤ c.outputBuffer.length) (hempty : c.outputBuffer.writeIntoOffset = 0)
    (h : handleRequest c = some c') :
    ∃ reply, Answers c.content reply ∧ ReplyBytes reply c'.outputBuffer.content := by
  obtain ⟨hpath, hnul, hformat⟩ := path_of_finish hparse
  obtain ⟨hlt, -⟩ := handleRequest_eq_some.mp h
  have hcontent := handleRequest_content hsize hempty h
  have hhead := responseLines_length c hlt
  have hlines : responseHead 200 c.responseHeaders = c.responseLines.flatten ++ ascii "\r\n" := by
    rw [responseHead, responseLines_eq c hlt]
  have hresponse := responseOf_lines (n := 200) (by decide) (by decide) (responseHeaders_sendable hlt)
  rw [responseHeaders_content hlt hpath, hlines] at hresponse
  rw [bufSize] at hsize
  obtain ⟨body, hbody, hlength, hcases⟩ := fitted_body c.path
    (show 2 < c.outputBuffer.length - c.responseLines.flatten.length by omega)
  rw [hformat (by omega), hbody, ← List.append_assoc] at hcontent
  refine ⟨(c.content.answer, body), ⟨rfl, ?_⟩, ?_⟩
  · rcases hcases with rfl | ⟨hroom, rfl⟩
    · exact .inl rfl
    · refine .inr ⟨?_, rfl⟩
      have htarget : c.content.target.length = c.pathLen := hpath
      rw [bufSize]
      omega
  · rw [hcontent]
    have htwo : c.content.answer.headers.length ≤ numHeadersMax := show 2 ≤ numHeadersMax by decide
    have hcrlf : (ascii "\r\n").length = 2 := by decide
    refine .intro hresponse htwo ?_ ?_
    · rw [answer_bodyLength, hlength]
      rfl
    · rw [List.length_append, List.length_append, hlength]
      omega

end

/-! Over whole runs. -/

open Trace RequestContext

/-- Every response is one that answers its request. -/
def Obs.Answered : Obs → Prop
  | .handled _ q _ _ response => ∃ reply, Answers q reply ∧ ReplyBytes reply response
  | _ => True

theorem Connection.Kept.process {a : Nat} {c c' : RequestContext} {clock : Nat → Timespec}
    (h : Connection.Kept (.held a) c) (hc : c.process clock = .ok c') :
    ∃ reply, Answers c.content reply ∧ ReplyBytes reply c'.outputBuffer.content := by
  obtain ⟨⟨prevLen, request, hfinish⟩, -⟩ := h.parsed nofun
  obtain ⟨stats, stats', buffer, hhandle, rfl⟩ := process_eq_ok hc
  have hanswers := handleRequest_answers (c := { c with timeStats := stats }) hfinish h.size
    (h.empty rfl) hhandle
  exact hanswers

theorem Connection.Stable.answered {r : Nat} {x y : Connection} {act : ConnectionAct}
    {obs : List Obs} (h : x.Stable) (hs : x.step r act = .ok (y, obs)) : ∀ o ∈ obs, o.Answered := by
  cases step_cases hs with
  | @handle _ c _ _ hc =>
    intro o ho
    rw [List.mem_singleton.mp ho]
    exact Kept.process h hc
  | parse | write | writeClose | reset =>
    intro o ho
    rw [List.mem_singleton.mp ho]
    trivial
  | accept | read | readFail | delete | push | pop | register | writeFail => simp

theorem connections_answered {k : Nat → Connection} {tr : List Obs} (h : connections.Run k tr) :
    ∀ o ∈ tr, o.Answered := by
  induction h with
  | start => simp
  | @next k _ tr _ l hrun hs ih =>
    have hstable : ∀ r, (k r).Stable :=
      connections_each trivial (fun _ _ _ _ _ hx => hx.step) hrun
    obtain ⟨r, act⟩ := l
    simp only [connections] at hs
    split at hs
    case h_2 => cases hs
    case h_1 x o hx =>
      cases hs
      intro o' ho'
      rcases List.mem_append.mp ho' with ho' | ho'
      · exact ih o' ho'
      · exact (hstable r).answered hx o' ho'

theorem exists_replies {l : List (RequestContent × List UInt8)}
    (h : ∀ p ∈ l, ∃ reply, Answers p.1 reply ∧ ReplyBytes reply p.2) :
    ∃ replies, List.Forall₂ Answers (l.map Prod.fst) replies ∧
      List.Forall₂ ReplyBytes replies (l.map Prod.snd) := by
  induction l with
  | nil => exact ⟨[], .nil, .nil⟩
  | cons p l ih =>
    obtain ⟨reply, hanswers, hbytes⟩ := h p (by simp)
    obtain ⟨replies, hall, hall'⟩ := ih fun p hp => h p (by simp [hp])
    exact ⟨reply :: replies, .cons hanswers hall, .cons hbytes hall'⟩

theorem exists_replies_of_trace {r : Nat} {tr : List Obs} (h : ∀ o ∈ tr, o.Answered) :
    ∃ replies, List.Forall₂ Answers (requests r tr) replies ∧
      List.Forall₂ ReplyBytes replies (responses r tr) := by
  refine exists_replies fun p hp => ?_
  obtain ⟨o, ho, hop⟩ := List.mem_filterMap.mp hp
  cases o with
  | parsed | wrote => cases hop
  | handled r' q i j response =>
    simp only [Obs.answeredOn, Option.ite_none_right_eq_some, Option.some.injEq] at hop
    obtain ⟨-, rfl⟩ := hop
    exact h _ ho

theorem settled_of_idle {r : Nat} {tr : List Obs} {x : Connection} (h : x.Progress r tr)
    (hopen : x.context ≠ none) (hidle : x.serving = false) : Settled r tr := by
  cases x with
  | unborn | closed => exact absurd rfl hopen
  | live st c =>
    cases st with
    | input => exact h.1
    | parsed | deleted | queued | held | handled | output => cases hidle

theorem connections_replies {k : Nat → Connection} {tr : List Obs} (h : connections.Run k tr)
    (r : Nat) :
    (∃ n ≤ (responses r tr).length,
      List.Forall₂ Answers ((parsed r tr).take n) (clientReads (written r tr)) ∧
      ((responses r tr).take n).flatten <+: written r tr ∧
      (n < (responses r tr).length → ¬ ((responses r tr).take (n + 1)).flatten <+: written r tr)) ∧
    ((k r).context ≠ none → (k r).serving = false →
      List.Forall₂ Answers (parsed r tr) (clientReads (written r tr))) := by
  obtain ⟨replies, hanswers, hbytes⟩ := exists_replies_of_trace (r := r) (connections_answered h)
  have hprogress := (connections_progress h).1 r
  obtain ⟨hrequests, hwritten⟩ := hprogress.summary
  obtain ⟨n, hn, hread, hprefix, hnext⟩ :=
    framed_readReply.readAll_prefix hbytes hwritten (Nat.le_refl _)
  have hcount : (requests r tr).length = (responses r tr).length := by
    rw [Trace.requests, Trace.responses, List.length_map, List.length_map]
  have hall : List.Forall₂ Answers ((requests r tr).take n) (clientReads (written r tr)) := by
    rw [clientReads, hread]
    exact List.forall₂_take n hanswers
  refine ⟨⟨n, hn, ?_, hprefix, hnext⟩, fun hopen hidle => ?_⟩
  · obtain ⟨more, hmore⟩ := hrequests
    rwa [← hmore, List.take_append_of_le_length (by omega)]
  · have hsettled := settled_of_idle hprogress hopen hidle
    -- all that was to be written is, so that no response is left
    have hall' : n = (requests r tr).length := by
      by_contra hne
      refine hnext (by omega) ?_
      rw [hsettled.written]
      exact List.IsPrefix.flatten (List.take_prefix _ _)
    rwa [hall', List.take_length, hsettled.requests] at hall

/-- In every run the client of a connection reads the answers to the first requests
that were parsed on it, in their order: as many as have all their bytes written. When
the server waits for another request, these are the answers to all of them. -/
theorem client_reads_answers {cfg : Config} {s : State} {tr : List Obs}
    (h : (server cfg).Run s tr) (r : Nat) :
    (∃ n ≤ (responses r tr).length,
      List.Forall₂ Answers ((parsed r tr).take n) (clientReads (written r tr)) ∧
      ((responses r tr).take n).flatten <+: written r tr ∧
      (n < (responses r tr).length → ¬ ((responses r tr).take (n + 1)).flatten <+: written r tr)) ∧
    (s.requests r ≠ none → s.serving r = false →
      List.Forall₂ Answers (parsed r tr) (clientReads (written r tr))) := by
  obtain ⟨k, hk, howned⟩ := server_simulates h
  obtain ⟨hread, hidle⟩ := connections_replies hk r
  refine ⟨hread, fun hopen hserving => ?_⟩
  rw [howned.wired.requests] at hopen
  rw [howned.serving_eq] at hserving
  exact hidle hopen hserving

/-- Two requests that ask to be kept alive come one after the other on a connection. The
responses are written to their last bytes, and the client reads both. -/
theorem client_reads_answers_kept : ∃ s tr, (server smallConfig).Run s tr ∧
    (parsed 1 tr).length = 2 ∧
    List.Forall₂ Answers (parsed 1 tr) (clientReads (written 1 tr)) := by
  have hexec : ((server smallConfig).exec (initState smallConfig fun _ => ⟨0, 0⟩)
      (acceptLabels 4 ++ servedLabels 2 3 (ascii "GET / HTTP/1.1\r\nConnection: Keep-Alive\r\n\r\n") ++
        againLabels ++
        servedLabels 3 4 (ascii "GET / HTTP/1.1\r\nConnection: Keep-Alive\r\n\r\n"))).any (fun x =>
      (parsed 1 x.2).length = 2 && (x.1.requests 1).isSome && !x.1.serving 1) = true := by
    decide +kernel
  obtain ⟨⟨s, tr⟩, hs, htr⟩ := (Option.any_eq_true _ _).mp hexec
  simp only [Bool.and_eq_true, decide_eq_true_eq, Bool.not_eq_true'] at htr
  obtain ⟨⟨hparsed, hopen⟩, hidle⟩ := htr
  have hrun := server_run_exec hs
  exact ⟨s, tr, hrun, hparsed, (client_reads_answers hrun 1).2 (Option.isSome_iff_ne_none.mp hopen) hidle⟩

end Jullop
