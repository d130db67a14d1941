import Jullop.Delivery
import Jullop.RequestCount
import Jullop.Response

/-! The request that is in service: its slices point into the allocation that was
parsed until the response is finished, so that the header of the response and what
becomes of the connection are decided by the same bytes. -/

namespace Jullop

namespace RequestContext

/-- The request is the result of a finished parse of the input buffer as it is
now. -/
structure Parsed (c : RequestContext) : Prop where
  finished : ∃ prevLen request,
    httpRequestParse c.inputBuffer prevLen request = (.parseFinish, c.httpRequest)
  allocation : c.parsedBuffer = c.inputBuffer.resizeCount

structure SameRequest (c c' : RequestContext) : Prop where
  inputBuffer : c'.inputBuffer = c.inputBuffer
  httpRequest : c'.httpRequest = c.httpRequest
  parsedBuffer : c'.parsedBuffer = c.parsedBuffer

variable {c c' c'' : RequestContext} {clock : Nat → Timespec}

theorem SameRequest.rfl : SameRequest c c := ⟨Eq.refl _, Eq.refl _, Eq.refl _⟩

theorem SameRequest.trans (h : SameRequest c c') (h' : SameRequest c' c'') : SameRequest c c'' :=
  ⟨h'.inputBuffer.trans h.inputBuffer, h'.httpRequest.trans h.httpRequest,
    h'.parsedBuffer.trans h.parsedBuffer⟩

theorem SameRequest.parsed (h : SameRequest c c') (hc : c.Parsed) : c'.Parsed := by
  obtain ⟨⟨prevLen, request, hfinish⟩, hallocation⟩ := hc
  refine ⟨⟨prevLen, request, ?_⟩, ?_⟩
  · rw [h.inputBuffer, h.httpRequest, hfinish]
  · rw [h.parsedBuffer, h.inputBuffer, hallocation]

theorem SameRequest.content (h : SameRequest c c') : c'.content = c.content := by
  rw [RequestContext.content, RequestContext.content, h.inputBuffer, h.httpRequest]

theorem SameRequest.keepAlive (h : SameRequest c c') : contextKeepAlive c' = contextKeepAlive c := by
  rw [contextKeepAlive, contextKeepAlive, h.content]

theorem SameRequest.responseLines (h : SameRequest c c') : c'.responseLines = c.responseLines := by
  have hlen : c'.pathLen = c.pathLen := by rw [pathLen, pathLen, h.httpRequest]
  have hvalue : c'.connectionValue = c.connectionValue := by
    rw [connectionValue, connectionValue, h.keepAlive]
  rw [RequestContext.responseLines, RequestContext.responseLines, hlen, hvalue]

theorem recordStart_same {type : TimeType} {now : Timespec} (h : c.recordStart type now = .ok c') :
    SameRequest c c' := by
  obtain ⟨stats, rfl⟩ := recordStart_eq_ok h
  exact ⟨rfl, rfl, rfl⟩

theorem write_same {ws : List WriteResult} {st : WriteState} {bytes : List UInt8}
    (h : c.write ws clock = .ok (st, bytes, c')) : SameRequest c c' := by
  obtain ⟨buffer, stats, -, rfl⟩ := write_eq_ok h
  exact ⟨rfl, rfl, rfl⟩

theorem process_same (h : c.process clock = .ok c') : SameRequest c c' := by
  obtain ⟨stats, stats', buffer, -, rfl⟩ := process_eq_ok h
  exact ⟨rfl, rfl, rfl⟩

theorem read_parsed {rs : List ReadResult} (h : c.read rs clock = .ok (.readFinish, c')) :
    c'.Parsed := by
  obtain ⟨stats, stats', c1, hparse, rfl⟩ := read_eq_ok h
  obtain ⟨b, ⟨hst, -⟩ | ⟨result, request, hresult, hst, rfl⟩⟩ := tryParse_eq_some hparse
  · rcases hst with hst | hst <;> cases hst
  · have hfinish : result = .parseFinish := by
      cases result with
      | parseFinish => rfl
      | parseError | parseIncomplete => cases hst
    rw [hfinish] at hresult
    exact ⟨⟨_, _, hresult⟩, rfl⟩

end RequestContext

open RequestContext

def Stage.answered : Stage → Bool
  | .handled _ | .output => true
  | _ => false

namespace Connection

/-- The request of a connection that is past its parse is stable, and the response
that is written has the head that the request asks for. -/
structure Kept (st : Stage) (c : RequestContext) : Prop where
  size : bufSize ≤ c.outputBuffer.length
  empty : st.answered = false → c.outputBuffer.writeIntoOffset = 0
  parsed : st ≠ .input → c.Parsed
  head : st.answered = true → ∃ rest,
    c.outputBuffer.content = c.responseLines.flatten ++ (ascii "\r\n" ++ rest)

def Stable : Connection → Prop
  | .live st c => Kept st c
  | _ => True

variable {r : Nat} {x y : Connection} {st : Stage} {c c' : RequestContext} {obs : List Obs}

theorem Kept.same {st' : Stage} (h : Kept st c) (hsame : SameRequest c c')
    (hbuffer : c'.outputBuffer = c.outputBuffer) (hanswered : st'.answered = st.answered)
    (hinput : st ≠ .input) : Kept st' c' := by
  refine ⟨?_, ?_, ?_, ?_⟩
  · rw [hbuffer]
    exact h.size
  · rw [hbuffer, hanswered]
    exact h.empty
  · exact fun _ => hsame.parsed (h.parsed hinput)
  · rw [hbuffer, hanswered, hsame.responseLines]
    exact h.head

theorem Kept.handle {a : Nat} {clock : Nat → Timespec} (h : Kept (.held a) c)
    (hc : c.process clock = .ok c') : Kept (.handled a) c' := by
  have hsame := process_same hc
  obtain ⟨stats, stats', buffer, hhandle, rfl⟩ := process_eq_ok hc
  have hempty : c.outputBuffer.writeIntoOffset = 0 := h.empty rfl
  obtain ⟨rest, hrest⟩ := handleRequest_head (c := { c with timeStats := stats }) h.size hempty hhandle
  have hlength := handleRequest_length hhandle
  refine ⟨Nat.le_trans h.size hlength, nofun, ?_, fun _ => ⟨rest, hrest⟩⟩
  exact fun _ => hsame.parsed (h.parsed nofun)

theorem Kept.write {ws : List WriteResult} {state : WriteState} {bytes : List UInt8}
    {clock : Nat → Timespec} (h : Kept .output c) (hc : c.write ws clock = .ok (state, bytes, c')) :
    Kept .output c' := by
  have hsame := write_same hc
  obtain ⟨buffer, stats, hwrite, rfl⟩ := write_eq_ok hc
  obtain ⟨hbytes, -, -⟩ := outputBufferWriteTo_keeps hwrite
  obtain ⟨hcontent, -, -⟩ := outputBufferWriteTo_content hwrite
  obtain ⟨rest, hrest⟩ := h.head rfl
  refine ⟨?_, nofun, fun _ => hsame.parsed (h.parsed nofun), fun _ => ⟨rest, ?_⟩⟩
  · have hsize := h.size
    rwa [OutputBuffer.length, ← hbytes] at hsize
  · rw [hsame.responseLines, ← hrest]
    exact hcontent

theorem Kept.read {rs : List ReadResult} {state : ReadState} {clock : Nat → Timespec}
    (h : Kept .input c) (hc : c.read rs clock = .ok (state, c')) : Kept .input c' := by
  have hbuffer := (read_keeps hc).2.2
  refine ⟨?_, ?_, fun hst => absurd rfl hst, nofun⟩
  · rw [hbuffer]
    exact h.size
  · rw [hbuffer]
    exact h.empty

theorem Stable.step {act : ConnectionAct} (h : x.Stable) (hs : x.step r act = .ok (y, obs)) :
    y.Stable := by
  cases step_cases hs with
  | @accept _ _ _ outputHeap _ _ hc =>
    obtain ⟨stats, rfl⟩ := accept_eq_ok hc
    refine ⟨?_, fun _ => rfl, fun hst => absurd rfl hst, nofun⟩
    exact (OutputStream.Inv.start outputHeap bufSize).size_le
  | parse hc =>
    have hread : Kept .input _ := Kept.read h hc
    exact ⟨hread.size, hread.empty, fun _ => read_parsed hc, nofun⟩
  | read hc => exact Kept.read h hc
  | delete | pop | register => exact Kept.same h .rfl rfl rfl nofun
  | push hc =>
    have hsame := recordStart_same hc
    obtain ⟨stats, rfl⟩ := recordStart_eq_ok hc
    exact Kept.same h hsame rfl rfl nofun
  | handle hc => exact Kept.handle h hc
  | write hc => exact Kept.write h hc
  | reset hc hend hstart =>
    have hwrite : Kept .output _ := Kept.write h hc
    obtain ⟨stats, rfl⟩ := recordEnd_eq_ok hend
    obtain ⟨stats', rfl⟩ := recordStart_eq_ok hstart
    exact ⟨hwrite.size, fun _ => rfl, fun hst => absurd rfl hst, nofun⟩
  | readFail | writeClose | writeFail => trivial

/-- Within the service of a request no step changes it. -/
theorem step_same {act : ConnectionAct} (hs : x.step r act = .ok (y, obs))
    (hx : x.serving = true) (hy : y.serving = true) :
    ∃ c c', x.context = some c ∧ y.context = some c' ∧ SameRequest c c' := by
  cases step_cases hs with
  | delete | pop | register => exact ⟨_, _, rfl, rfl, .rfl⟩
  | push hc => exact ⟨_, _, rfl, rfl, recordStart_same hc⟩
  | handle hc => exact ⟨_, _, rfl, rfl, process_same hc⟩
  | write hc => exact ⟨_, _, rfl, rfl, write_same hc⟩
  | accept | parse | read | readFail => cases hx
  | writeClose | reset | writeFail => cases hy

/-- The service of a request begins with its parse. -/
theorem step_begins {act : ConnectionAct} (hs : x.step r act = .ok (y, obs))
    (hx : x.serving = false) (hy : y.serving = true) :
    ∃ c, y.context = some c ∧ obs = [.parsed r c.content] := by
  cases step_cases hs with
  | parse => exact ⟨_, rfl, rfl⟩
  | delete | push | pop | handle | register | write | writeClose | reset | writeFail => cases hx
  | accept | read | readFail => cases hy

theorem serving_live (h : x.serving = true) : ∃ st c, x = .live st c ∧ st ≠ .input := by
  cases x with
  | unborn | closed => cases h
  | live st c =>
    refine ⟨st, c, rfl, ?_⟩
    rintro rfl
    cases h

end Connection

section

variable {cfg : Config} {s t : State} {k : Nat → Connection} {r : Nat} {l : Label} {tr obs : List Obs}

theorem server_step_same (h : (server cfg).Run s tr) (hstep : (server cfg).step s l = some (t, obs))
    (hs : s.serving r = true) (ht : t.serving r = true) :
    ∃ c c', s.requests r = some c ∧ t.requests r = some c' ∧ SameRequest c c' := by
  obtain ⟨k, -, howned, htimed⟩ := server_simulates_timed h
  rw [howned.serving_eq] at hs
  obtain ⟨st, c, hk, -⟩ := Connection.serving_live hs
  have hr : s.requests r = some c := (howned.wired.live hk).1
  rcases server_step howned htimed hstep with ⟨-, howned', -⟩ | ⟨r', act, x, hx, howned', -⟩
  · exact ⟨c, c, hr, (howned'.wired.live hk).1, .rfl⟩
  · by_cases hrr : r' = r
    · subst hrr
      rw [howned'.serving_eq, Function.update_self] at ht
      rw [howned.wired.requests, howned'.wired.requests, Function.update_self]
      exact Connection.step_same hx hs ht
    · have hk' : Function.update k r' x r = .live st c := by
        rw [Function.update_of_ne (Ne.symm hrr), hk]
      exact ⟨c, c, hr, (howned'.wired.live hk').1, .rfl⟩

theorem server_step_begins (h : (server cfg).Run s tr)
    (hstep : (server cfg).step s l = some (t, obs)) (hs : s.serving r = false)
    (ht : t.serving r = true) : ∃ c, t.requests r = some c ∧ obs = [.parsed r c.content] := by
  obtain ⟨k, -, howned, htimed⟩ := server_simulates_timed h
  rw [howned.serving_eq] at hs
  rcases server_step howned htimed hstep with ⟨-, howned', -⟩ | ⟨r', act, x, hx, howned', -⟩
  · rw [howned'.serving_eq, hs] at ht
    cases ht
  · rw [howned'.serving_eq] at ht
    by_cases hrr : r' = r
    · subst hrr
      rw [Function.update_self] at ht
      rw [howned'.wired.requests, Function.update_self]
      exact Connection.step_begins hx hs ht
    · rw [Function.update_of_ne (Ne.symm hrr), hs] at ht
      cases ht

/-- From the parse of a request to its end its bytes and its slices stay as they
are. -/
theorem server_stays_same (h : (server cfg).Run s tr)
    (hstays : (server cfg).Stays (fun s => s.serving r = true) s t) :
    ∃ c c', s.requests r = some c ∧ t.requests r = some c' ∧ SameRequest c c' := by
  induction hstays with
  | refl hs =>
    obtain ⟨k, -, howned⟩ := server_simulates h
    rw [howned.serving_eq] at hs
    obtain ⟨st, c, hk, -⟩ := Connection.serving_live hs
    have hr := (howned.wired.live hk).1
    exact ⟨c, c, hr, hr, .rfl⟩
  | next l hstays hstep ht ih =>
    obtain ⟨tr', hrun⟩ := h.stays hstays
    obtain ⟨c, c', hc, hc', hsame⟩ := ih
    obtain ⟨d, d', hd, hd', hsame'⟩ := server_step_same hrun hstep hstays.last ht
    rw [hc'] at hd
    cases hd
    exact ⟨c, d', hc, hd', hsame.trans hsame'⟩

/-- What a response says of the connection, in the lines of its head. -/
def saysKeepAlive (response : List UInt8) : Bool :=
  (readHead [] response).any fun (lines, _) => ascii "Connection: keep-alive" ∈ lines

theorem saysKeepAlive_response (c : RequestContext) (rest : List UInt8) :
    saysKeepAlive (c.responseLines.flatten ++ (ascii "\r\n" ++ rest)) = contextKeepAlive c := by
  have hstatus : ascii "Connection: keep-alive" ≠ ascii "HTTP/1.1 200 Ok" := by decide
  have hlength : ascii "Connection: keep-alive" ≠
      ascii "Content-Length: " ++ ascii c.pathLen.repr := by
    intro heq
    have htake := congrArg (List.take 4) heq
    rw [List.take_append_of_le_length (by decide)] at htake
    exact absurd htake (by decide)
  have hclose : ascii "Connection: keep-alive" ≠ ascii "Connection: " ++ ascii "close" := by decide
  have hkeep : ascii "Connection: keep-alive" = ascii "Connection: " ++ ascii "keep-alive" := by
    decide
  rw [saysKeepAlive, readHead_response, Option.any_some, RequestContext.headLines, connectionValue]
  cases contextKeepAlive c with
  | true => simp [hkeep]
  | false => simp [hstatus, hlength, hclose]

/-- The worker `w` has a call of `client_handle_write` before it that writes the
last byte to the connection `r`. -/
def State.WriteFinishes (s : State) (w : Nat) (ws : List WriteResult) (r : Nat) : Prop :=
  ∃ e rest context c bytes c', s.workers w = .output e rest ∧ s.sockets e.ptr = some context ∧
    context.data = .ptr r ∧ s.requests r = some c ∧
    c.write ws s.clock = .ok (.writeFinish, bytes, c')

def State.writeFinishes (s : State) (w : Nat) (ws : List WriteResult) (r : Nat) : Bool :=
  match s.workers w, s.requests r with
  | .output e _, some c =>
    (s.sockets e.ptr).any (fun context => context.data = .ptr r) &&
      match c.write ws s.clock with
      | .ok (.writeFinish, _, _) => true
      | _ => false
  | _, _ => false

theorem State.writeFinishes_sound {w : Nat} {ws : List WriteResult}
    (h : s.writeFinishes w ws r = true) : s.WriteFinishes w ws r := by
  simp only [State.writeFinishes] at h
  split at h
  · rename_i e rest c hpc hr
    rw [Bool.and_eq_true, Option.any_eq_true] at h
    obtain ⟨⟨context, hcontext, hdata⟩, hwrite⟩ := h
    split at hwrite
    · rename_i bytes c' hwrote
      exact ⟨e, rest, context, c, bytes, c', hpc, hcontext, of_decide_eq_true hdata, hr, hwrote⟩
    · cases hwrite
  · cases h

theorem Expects.unique {w r' : Nat} {e : Event} {st : Stage} {c c' : RequestContext}
    {context : SocketContext} (he : Expects s k w e r' st c') (hs : s.sockets e.ptr = some context)
    (hd : context.data = .ptr r) (hr : s.requests r = some c) : r' = r ∧ c' = c := by
  have hcontext := he.socket.symm.trans hs
  cases hcontext
  have hr' : r' = r := by cases st <;> exact SocketData.ptr.inj hd
  subst hr'
  exact ⟨rfl, Option.some.inj (he.request.symm.trans hr)⟩

/-- The call that writes the last byte keeps the connection if its request asks for it. -/
theorem Steps.finish {w : Nat} {ws : List WriteResult} {e : Event} {rest : List Event}
    {c c' : RequestContext} {bytes : List UInt8} {context : SocketContext}
    (hstep : Steps cfg s k (.worker w (.write ws)) t obs) (hpc : s.workers w = .output e rest)
    (hs : s.sockets e.ptr = some context) (hd : context.data = .ptr r)
    (hr : s.requests r = some c) (hwrite : c.write ws s.clock = .ok (.writeFinish, bytes, c')) :
    k r = .live .output c ∧ (t.requests r ≠ none ↔ contextKeepAlive c' = true) := by
  cases hstep with
  | walk _ hwalk =>
    rw [hpc] at hwalk
    cases hwalk
  | write _ hpc' _ he hwrite' =>
    cases hpc.symm.trans hpc'
    obtain ⟨rfl, rfl⟩ := he.unique hs hd hr
    cases hwrite.symm.trans hwrite'
  | writeClose _ hpc' _ he hwrite' hstate =>
    cases hpc.symm.trans hpc'
    obtain ⟨rfl, rfl⟩ := he.unique hs hd hr
    cases hwrite.symm.trans hwrite'
    refine ⟨he.live, iff_of_false ?_ ?_⟩
    · exact not_not_intro (Function.update_self _ _ _)
    · rcases hstate with hstate | ⟨-, hkeep⟩
      · cases hstate
      · rw [hkeep]
        exact Bool.false_ne_true
  | reset _ hpc' _ he hwrite' hkeep =>
    cases hpc.symm.trans hpc'
    obtain ⟨rfl, rfl⟩ := he.unique hs hd hr
    cases hwrite.symm.trans hwrite'
    refine ⟨he.live, iff_of_true ?_ hkeep⟩
    exact (Function.update_self _ _ _).trans_ne (Option.some_ne_none _)

theorem server_write_keeps {w : Nat} {ws : List WriteResult} (h : (server cfg).Run s tr)
    (hfinish : s.WriteFinishes w ws r)
    (hstep : (server cfg).step s (.worker w (.write ws)) = some (t, obs)) :
    ∃ response, (Trace.responses r tr).getLast? = some response ∧
      (t.requests r ≠ none ↔ saysKeepAlive response = true) := by
  obtain ⟨k, hrun, howned, htimed⟩ := server_simulates_timed h
  obtain ⟨e, rest, context, c, bytes, c', hpc, hs, hd, hr, hwrite⟩ := hfinish
  obtain ⟨-, hsteps | ⟨_, hends, -⟩⟩ := server_step_cases howned htimed hstep
  · obtain ⟨hk, hkeeps⟩ := hsteps.finish hpc hs hd hr hwrite
    have hstable : (k r).Stable := connections_each trivial (fun _ _ _ _ _ hx => hx.step) hrun r
    have hprogress := (connections_progress hrun).1 r
    rw [hk] at hstable hprogress
    obtain ⟨-, earlier, hresponses, -⟩ := hprogress
    obtain ⟨body, hcontent⟩ := hstable.head rfl
    refine ⟨c.outputBuffer.content, by rw [hresponses, List.getLast?_concat], ?_⟩
    rw [hkeeps, (write_same hwrite).keepAlive, hcontent, saysKeepAlive_response]
  · cases hends

theorem serving_parsed {c : RequestContext} (h : (server cfg).Run s tr)
    (hr : s.requests r = some c) (hs : s.serving r = true) : c.Parsed := by
  obtain ⟨k, hrun, howned⟩ := server_simulates h
  rw [howned.serving_eq] at hs
  obtain ⟨st, c0, hk, hst⟩ := Connection.serving_live hs
  rw [(howned.wired.live hk).1] at hr
  cases hr
  have hstable : (k r).Stable := connections_each trivial (fun _ _ _ _ _ hx => hx.step) hrun r
  rw [hk] at hstable
  exact hstable.parsed hst

/-- A request that is in service is the result of a parse of its input buffer, which
stays as it is to the end; and when its response is written the connection is kept
exactly when the response says so. -/
theorem request_stable_in_service (h : (server cfg).Run s tr) :
    (∀ r c, s.requests r = some c → s.serving r = true → c.Parsed) ∧
    (∀ r l t obs, (server cfg).step s l = some (t, obs) → s.serving r = false →
      t.serving r = true → ∃ c, t.requests r = some c ∧ obs = [.parsed r c.content]) ∧
    (∀ r t, (server cfg).Stays (fun s => s.serving r = true) s t →
      ∃ c c', s.requests r = some c ∧ t.requests r = some c' ∧ SameRequest c c') ∧
    ∀ r w ws t obs, s.WriteFinishes w ws r →
      (server cfg).step s (.worker w (.write ws)) = some (t, obs) →
      ∃ response, (Trace.responses r tr).getLast? = some response ∧
        (t.requests r ≠ none ↔ saysKeepAlive response = true) := by
  refine ⟨?_, ?_, ?_, ?_⟩
  · intro r c
    exact serving_parsed h
  · intro r l t obs
    exact server_step_begins h
  · intro r t
    exact server_stays_same h
  · intro r w ws t obs
    exact server_write_keeps h

end

/-- A response with the header is written to its last byte, and the connection is
kept. -/
theorem request_stable_in_service_kept : ∃ s tr t obs response, (server smallConfig).Run s tr ∧
    s.WriteFinishes 0 [.accepted 63] 1 ∧
    (server smallConfig).step s (.worker 0 (.write [.accepted 63])) = some (t, obs) ∧
    (Trace.responses 1 tr).getLast? = some response ∧ saysKeepAlive response = true ∧
    t.requests 1 ≠ none := by
  have hexec : ((server smallConfig).exec (initState smallConfig fun _ => ⟨0, 0⟩)
      (acceptLabels 4 ++ readLabels 4 2 (ascii "GET / HTTP/1.1\r\nConnection: Keep-Alive\r\n\r\n") ++
        respondLabels ++ (writeLabels 4 3 []).dropLast)).any (fun x =>
      ((server smallConfig).step x.1 (.worker 0 (.write [.accepted 63]))).isSome &&
      (Trace.responses 1 x.2).getLast?.any saysKeepAlive &&
      x.1.writeFinishes 0 [.accepted 63] 1) = true := by
    decide +kernel
  obtain ⟨⟨s, tr⟩, hs, htr⟩ := (Option.any_eq_true _ _).mp hexec
  have hrun := server_run_exec hs
  simp only [Bool.and_eq_true, Option.any_eq_true] at htr
  obtain ⟨⟨hstep, response, hresponse, hsays⟩, hwrites⟩ := htr
  obtain ⟨⟨t, obs⟩, ht⟩ := Option.isSome_iff_exists.mp hstep
  have hfinish := State.writeFinishes_sound hwrites
  obtain ⟨response', hresponse', hkept⟩ :=
    (request_stable_in_service hrun).2.2.2 1 0 [.accepted 63] t obs hfinish ht
  rw [hresponse] at hresponse'
  cases hresponse'
  exact ⟨s, tr, t, obs, response, hrun, hfinish, ht, hresponse, hsays, hkept.mpr hsays⟩

end Jullop
