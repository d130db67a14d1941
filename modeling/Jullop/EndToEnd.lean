import Jullop.ClientView
import Jullop.KeepAlive
import Jullop.TimerLog
import Jullop.Traffic

/-! A client and the server, from the bytes of the requests to those of the responses.
The events of a connection each bring a whole request at their start. -/

namespace Jullop

open HttpParser InputBuffer Trace

/-- What a readable event hands to the parser, with its connection. -/
def handedOver (s : State) (e : Event) (rs : List ReadResult) :
    Outcome Halt (List (Nat × List UInt8)) := do
  let context ← s.socket e.ptr
  let r ← context.request
  let c ← s.request r
  let (state, _) ← .enabled (inputBufferReadInto c.inputBuffer rs)
  match state with
  | .readFinish | .readBusy => return [(r, delivered rs)]
  | .readError | .clientDisconnect => return []

def arrived (s : State) : Label → List (Nat × List UInt8)
  | .worker w (.read rs) =>
    match s.workers w with
    | .batch (e :: _) => (handedOver s e rs).toList.flatten
    | _ => []
  | _ => []

/-- The server with the bytes that arrive on its connections. -/
def listening (cfg : Config) : Machine State Label (Obs ⊕ Nat × List UInt8) :=
  (server cfg).record arrived

/-- The bytes of each event of the connection `r`. -/
def arrivals (r : Nat) (notes : List (Nat × List UInt8)) : List (List UInt8) :=
  notes.filterMap fun note => if note.1 = r then some note.2 else none

/-- The head of the request `q` stands at the start of these bytes. -/
def Begins (q : RequestContent) (bytes : List UInt8) : Prop :=
  ∃ b, RequestOf q b ∧ b <+: bytes ∧ b.length < 2 ^ 31

def RequestContent.headerCount (q : RequestContent) : Nat := q.headers.length

/-- The room for the headers of the next request: what those of the last one took. -/
def headerRoom (qs : List RequestContent) : Nat :=
  (qs.map RequestContent.headerCount).getLastD numHeadersMax

/-- No request has more headers than the one before it. -/
def Fits (qs : List RequestContent) : Prop :=
  (numHeadersMax :: qs.map RequestContent.headerCount).IsChain (· ≥ ·)

/-- A step that reads nothing leaves what was read, or forgets it. -/
structure RequestContext.Resumes (c c' : RequestContext) : Prop where
  request : c'.httpRequest = c.httpRequest
  length : c'.inputBuffer.length = c.inputBuffer.length
  offset : c'.inputBuffer.offset = c.inputBuffer.offset ∨ c'.inputBuffer.offset = 0

def State.Resumes (s t : State) : Prop :=
  ∀ r c', t.requests r = some c' → ∃ c, s.requests r = some c ∧ c.Resumes c'

/-- So it is with the context `r`, if it was there before. -/
def State.ResumesAt (s t : State) (r : Nat) : Prop :=
  s.requests r ≠ none → ∀ c', t.requests r = some c' →
    ∃ c, s.requests r = some c ∧ c.Resumes c'

/-- What `client_handle_read` leaves of the context, and what it shows. -/
def readEffect (r : Nat) : ReadState → RequestContext → Option RequestContext × List Obs
  | .readFinish, c => (some c, [.parsed r c.content])
  | .readBusy, c => (some c, [])
  | _, _ => (none, [])

/-- What a step can have to do with the bytes that arrive. -/
inductive Hearing (s : State) (k : Nat → Connection) (l : Label) (t : State) (obs : List Obs) : Prop
  | quiet (hl : arrived s l = []) (hobs : ∀ r q, Obs.parsed r q ∉ obs)
      (hrequests : ∀ r, s.ResumesAt t r)
  | read {w r : Nat} {e : Event} {rest : List Event} {rs : List ReadResult} {state : ReadState}
      {c c' : RequestContext} (hl : l = .worker w (.read rs))
      (hpc : s.workers w = .batch (e :: rest)) (he : Expects s k w e r .input c)
      (hread : c.read rs s.clock = .ok (state, c'))
      (hrequests : t.requests = Function.update s.requests r (readEffect r state c').1)
      (hobs : obs = (readEffect r state c').2)

section

variable {cfg : Config} {s t u : State} {k : Nat → Connection} {l : Label} {obs : List Obs} {r : Nat}
  {c c' c'' : RequestContext}

theorem RequestContext.Resumes.rfl : c.Resumes c := ⟨Eq.refl _, Eq.refl _, .inl (Eq.refl _)⟩

theorem RequestContext.Resumes.trans (h : c.Resumes c') (h' : c'.Resumes c'') : c.Resumes c'' := by
  refine ⟨h'.request.trans h.request, h'.length.trans h.length, ?_⟩
  rcases h'.offset with heq | hzero
  · rw [heq]
    exact h.offset
  · exact .inr hzero

theorem State.Resumes.of_eq (h : t.requests = s.requests) : s.Resumes t :=
  fun _ c' hc' => ⟨c', h ▸ hc', .rfl⟩

theorem State.Resumes.trans (h : s.Resumes t) (h' : t.Resumes u) : s.Resumes u := by
  intro r c'' hc''
  obtain ⟨c', hc', hresumes'⟩ := h' r c'' hc''
  obtain ⟨c, hc, hresumes⟩ := h r c' hc'
  exact ⟨c, hc, hresumes.trans hresumes'⟩

theorem State.Resumes.set (hc : s.requests r = some c) (hresumes : c.Resumes c')
    (h : t.requests = Function.update s.requests r (some c')) : s.Resumes t := by
  intro r' d hd
  by_cases hr : r' = r
  · subst hr
    rw [h, Function.update_self] at hd
    cases hd
    exact ⟨c, hc, hresumes⟩
  · rw [h, Function.update_of_ne hr] at hd
    exact ⟨d, hd, .rfl⟩

theorem State.Resumes.remove (h : t.requests = Function.update s.requests r none) :
    s.Resumes t := by
  intro r' d hd
  by_cases hr : r' = r
  · subst hr
    rw [h, Function.update_self] at hd
    cases hd
  · rw [h, Function.update_of_ne hr] at hd
    exact ⟨d, hd, .rfl⟩

theorem recordStart_resumes {type : TimeType} {now : Timespec}
    (h : c.recordStart type now = .ok c') : c.Resumes c' := by
  obtain ⟨stats, rfl⟩ := RequestContext.recordStart_eq_ok h
  exact ⟨rfl, rfl, .inl rfl⟩

theorem write_resumes {ws : List WriteResult} {st : WriteState} {bytes : List UInt8}
    {clock : Nat → Timespec} (h : c.write ws clock = .ok (st, bytes, c')) : c.Resumes c' := by
  obtain ⟨buffer, stats, -, rfl⟩ := RequestContext.write_eq_ok h
  exact ⟨rfl, rfl, .inl rfl⟩

theorem process_resumes {clock : Nat → Timespec} (h : c.process clock = .ok c') :
    c.Resumes c' := by
  obtain ⟨stats, stats', buffer, -, rfl⟩ := RequestContext.process_eq_ok h
  exact ⟨rfl, rfl, .inl rfl⟩

theorem reset_resumes {now now' : Timespec} (h : c.recordEnd .totalTime now = .ok c')
    (h' : (contextFinalizeReset c').recordStart .totalTime now' = .ok c'') :
    c.Resumes c'' ∧ c''.inputBuffer.offset = 0 := by
  obtain ⟨stats, rfl⟩ := RequestContext.recordEnd_eq_ok h
  obtain ⟨stats', rfl⟩ := RequestContext.recordStart_eq_ok h'
  exact ⟨⟨rfl, rfl, .inr rfl⟩, rfl⟩

theorem State.Resumes.tick_setRequest (hc : s.requests r = some c) (hresumes : c.Resumes c')
    (n : Nat) : s.Resumes ((s.tick n).setRequest r c') := .set hc hresumes rfl

theorem State.Resumes.quiet (h : s.Resumes t) (hl : arrived s l = [])
    (hobs : ∀ r q, Obs.parsed r q ∉ obs) : Hearing s k l t obs :=
  .quiet hl hobs fun r _ => h r

theorem Hearing.idle (hl : arrived s l = []) (h : t.requests = s.requests) : Hearing s k l t [] :=
  State.Resumes.quiet (.of_eq h) hl (by simp)

theorem Walk.arrived {w : Nat} {act : WorkerAct} {pc pc' : WorkerPc}
    (h : Walk cfg w pc act pc') : arrived s (.worker w act) = [] := by
  cases h <;> rfl

/-- Only a worker that reads hears something. -/
theorem Steps.hearing (hstep : Steps cfg s k l t obs) (h : Owned cfg s k) :
    Hearing s k l t obs := by
  cases hstep with
  | walk _ hwalk => exact .idle hwalk.arrived rfl
  | wait | delete | load | store => exact .idle rfl rfl
  | actorWalk | eventRead | popNull | pop | register => exact .idle rfl rfl
  | fail => exact State.Resumes.quiet (.remove rfl) rfl (by simp)
  | parse _ hpc _ he _ hread => exact .read rfl hpc he hread rfl rfl
  | read _ hpc _ he _ hread => exact .read rfl hpc he hread rfl rfl
  | readClose _ hpc _ he _ hread hstate =>
    refine .read rfl hpc he hread ?_ ?_
    · rcases hstate with rfl | rfl <;> exact Function.update_idem _ _ _
    · rcases hstate with rfl | rfl <;> rfl
  | push _ _ hk _ _ hstart =>
    have hset : s.Resumes _ := .tick_setRequest (h.wired.live hk).1 (recordStart_resumes hstart) 1
    exact .quiet rfl (by simp) fun r _ => hset r
  | write _ _ _ he hwrite =>
    have hset : s.Resumes _ := .tick_setRequest he.request (write_resumes hwrite) 2
    exact .quiet rfl (by simp) fun r _ => hset r
  | writeClose _ _ _ he hwrite =>
    have hset : s.Resumes _ := .tick_setRequest he.request (write_resumes hwrite) 2
    exact (hset.trans (.remove rfl)).quiet rfl (by simp)
  | reset _ _ _ he hwrite _ hend hstart =>
    have hset : s.Resumes _ := .tick_setRequest he.request (write_resumes hwrite) 2
    have hreset := (reset_resumes hend hstart).1
    exact (hset.trans (.set (Function.update_self _ _ _) hreset rfl)).quiet rfl (by simp)
  | accept =>
    refine .quiet rfl (by simp) fun r hr c' hc' => ?_
    have hfresh : s.requests s.next = none := by
      rw [h.wired.requests, h.wired.unborn s.next (Nat.le_refl _)]
      rfl
    have hne : r ≠ s.next := by
      rintro rfl
      exact hr hfresh
    exact ⟨c', (Function.update_of_ne hne _ _).symm.trans hc', .rfl⟩
  | process _ _ hk hprocess =>
    have hset : s.Resumes _ := .tick_setRequest (h.wired.live hk).1 (process_resumes hprocess) 3
    exact .quiet rfl (by simp) fun r _ => hset r

/-- The process does not end where a worker reads. -/
theorem Ends.arrived {h : Halt} (hends : Ends cfg s l h) : arrived s l = [] := by
  cases hends <;> rfl

end

/-! One connection. -/

section

variable {q : RequestContent} {qs : List RequestContent} {b : List UInt8} {c c' : RequestContext}
  {rs : List ReadResult} {st : ReadState} {clock : Nat → Timespec} {limit : Nat}

theorem HttpParser.RequestOf.denotes (h : RequestOf q b) :
    ∃ out, out.numHeaders = q.headerCount ∧ Denotes q.headerCount b out ∧ out.content b = q := by
  obtain ⟨out, hcount, hin, hread⟩ := parseRequest_head h.head
  refine ⟨out, hcount, ⟨hin, hread⟩, ?_⟩
  obtain ⟨r, hcontent, hread'⟩ := parseRequest_content h []
  have hboth := hread' q.headerCount (Nat.le_refl _)
  rw [hread q.headerCount [] (Nat.le_refl _), Prod.mk.injEq, Cursor.mk.injEq] at hboth
  obtain ⟨-, -, -, rfl⟩ := hboth
  rwa [List.append_nil] at hcontent

theorem readInto_busy {b b' : InputBuffer} (h : inputBufferReadInto b rs = some (.readBusy, b')) :
    ∃ chunks, rs = arrival chunks := by
  induction rs generalizing b with
  | nil => cases h
  | cons r rs ih =>
    cases r with
    | data bytes =>
      simp only [inputBufferReadInto, Option.ite_none_right_eq_some] at h
      obtain ⟨chunks, rfl⟩ := ih h.2
      exact ⟨bytes :: chunks, rfl⟩
    | wouldBlock =>
      cases rs with
      | nil => exact ⟨[], rfl⟩
      | cons => cases h
    | endOfStream | failed => cases rs <;> cases h

theorem readInto_ne_finish {b b' : InputBuffer} :
    inputBufferReadInto b rs ≠ some (.readFinish, b') := by
  induction rs generalizing b with
  | nil => simp [inputBufferReadInto]
  | cons r rs ih =>
    cases r with
    | data bytes =>
      simp only [inputBufferReadInto]
      split
      · exact ih
      · simp
    | wouldBlock | endOfStream | failed => cases rs <;> simp [inputBufferReadInto]

theorem ofParse_toInt {n : Nat} (h : n < 2 ^ 31) :
    ReadState.ofParse (.ofResult (toInt n)) = .readFinish := by
  rw [toInt_of_lt h]
  rfl

/-- A context that waits for a request takes it if its headers fit. -/
theorem Idle.read {b : InputBuffer} (hc : Idle limit c) (hread : c.read rs clock = .ok (st, c'))
    (hbusy : inputBufferReadInto c.inputBuffer rs = some (.readBusy, b))
    (hq : Begins q (delivered rs)) :
    if q.headerCount ≤ limit then
      st = .readFinish ∧ c'.content = q ∧ 0 < c'.inputBuffer.length ∧
        c'.httpRequest.numHeaders = q.headerCount
    else st = .readError := by
  obtain ⟨chunks, rfl⟩ := readInto_busy hbusy
  rw [delivered_arrival] at hq
  obtain ⟨b, hb, hprefix, hlen⟩ := hq
  obtain ⟨stats, stats', c1, ht, rfl⟩ := RequestContext.read_eq_ok hread
  have hidle : Idle limit { c with timeStats := stats } := ⟨hc.offset, hc.length_pos, hc.limit_eq⟩
  split
  · rename_i hroom
    obtain ⟨out, hcount, hout, hcontent⟩ := hb.denotes
    obtain ⟨-, hpos, -⟩ := tryParse_idle hidle ht
    obtain ⟨hst, hreq, hcontent'⟩ := idle_accepts hout hidle hprefix hroom ht
    refine ⟨hst.trans (ofParse_toInt hlen), hcontent'.trans hcontent, hpos, ?_⟩
    exact (congrArg HttpRequest.numHeaders hreq).trans hcount
  · rename_i hroom
    exact idle_refuses hb.head hidle hprefix (Nat.lt_of_not_le hroom) ht

theorem Idle.resumes (h : Idle limit c) (hresumes : c.Resumes c') : Idle limit c' where
  offset := hresumes.offset.elim (fun heq => heq.trans h.offset) id
  length_pos := by
    rw [hresumes.length]
    exact h.length_pos
  limit_eq := by
    rw [hresumes.request]
    exact h.limit_eq

theorem fits_snoc : Fits (qs ++ [q]) ↔ Fits qs ∧ q.headerCount ≤ headerRoom qs := by
  rw [Fits, List.map_append, ← List.cons_append, List.isChain_append]
  simp [Fits, headerRoom, List.getLast?_cons, List.getLastD_eq_getLast?]

theorem headerRoom_snoc : headerRoom (qs ++ [q]) = q.headerCount := by
  simp [headerRoom]

/-- The connection can take a request with so many headers, once it has answered the
one that it has. -/
def Connection.Ready (limit : Nat) : Connection → Prop
  | .unborn => limit = numHeadersMax
  | .live .input c => Idle limit c
  | .live _ c => 0 < c.inputBuffer.length ∧ c.httpRequest.numHeaders = limit
  | .closed => True

/-- What has become of the requests `qs`: all are parsed, or the last one has more
headers than there is room for. -/
inductive Heard : Connection → (qs parsed : List RequestContent) → Prop
  | fits {x : Connection} {qs : List RequestContent} (hfits : Fits qs)
      (hready : x.Ready (headerRoom qs)) : Heard x qs qs
  | refused {qs : List RequestContent} {q : RequestContent} (hfits : ¬ Fits (qs ++ [q])) :
      Heard .closed (qs ++ [q]) qs

theorem Heard.live {stage : Stage} {ps : List RequestContent} (h : Heard (.live stage c) qs ps) :
    ps = qs ∧ Fits qs ∧ (Connection.live stage c).Ready (headerRoom qs) := by
  cases h with
  | fits hfits hready => exact ⟨rfl, hfits, hready⟩

theorem accept_idle {fd epollInfo : Nat} {inputHeap outputHeap : Nat → UInt8}
    (h : RequestContext.accept fd inputHeap outputHeap epollInfo clock = .ok c) :
    Idle numHeadersMax c := by
  obtain ⟨stats, rfl⟩ := RequestContext.accept_eq_ok h
  have hidle : Idle 100 (initRequestContext fd inputHeap outputHeap epollInfo) :=
    Fresh.idle ⟨_, _, _, _, rfl⟩
  exact ⟨hidle.offset, hidle.length_pos, hidle.limit_eq⟩

theorem Connection.Ready.stage {st' : Stage} {st : Stage} (hst : st ≠ .input) (hst' : st' ≠ .input)
    (h : (Connection.live st c).Ready limit) (hresumes : c.Resumes c') :
    (Connection.live st' c').Ready limit := by
  obtain ⟨hpos, hlimit⟩ : 0 < c.inputBuffer.length ∧ c.httpRequest.numHeaders = limit := by
    cases st <;> first | exact absurd rfl hst | exact h
  have hafter : 0 < c'.inputBuffer.length ∧ c'.httpRequest.numHeaders = limit := by
    rw [hresumes.length, hresumes.request]
    exact ⟨hpos, hlimit⟩
  cases st' <;> first | exact absurd rfl hst' | exact hafter

/-- Nothing else than a request takes from what the connection is ready for. -/
theorem Connection.Transition.ready {r : Nat} {x y : Connection} {obs : List Obs}
    (h : Transition r x y obs) (hobs : ∀ q, Obs.parsed r q ∉ obs)
    (hresumes : ∀ c c', x.context = some c → y.context = some c' → c.Resumes c')
    (hx : x.Ready limit) : y.Ready limit := by
  cases h with
  | accept haccept =>
    have hlimit : limit = numHeadersMax := hx
    rw [hlimit]
    exact accept_idle haccept
  | parse => simp at hobs
  | read => exact Idle.resumes hx (hresumes _ _ rfl rfl)
  | readFail | writeClose | writeFail => trivial
  | delete | push | pop | handle | register | write =>
    exact Ready.stage (by simp) (by simp) hx (hresumes _ _ rfl rfl)
  | reset hwrite hend hstart =>
    obtain ⟨hpos, hlimit⟩ := hx
    obtain ⟨hresumes', hzero⟩ := reset_resumes hend hstart
    have hwrite' := write_resumes hwrite
    refine ⟨hzero, ?_, ?_⟩
    · rw [hresumes'.length, hwrite'.length]
      exact hpos
    · rw [hresumes'.request, hwrite'.request]
      exact hlimit

theorem Heard.transition {r : Nat} {x y : Connection} {obs : List Obs} {ps : List RequestContent}
    (hheard : Heard x qs ps) (h : Connection.Transition r x y obs)
    (hobs : ∀ q, Obs.parsed r q ∉ obs)
    (hresumes : ∀ c c', x.context = some c → y.context = some c' → c.Resumes c') :
    Heard y qs ps := by
  cases hheard with
  | fits hfits hready => exact .fits hfits (h.ready hobs hresumes hready)
  | refused => cases h

/-- Whatever else a request does to its connection, it is heard. -/
theorem Heard.read {r : Nat} {y : Connection} {obs : List Obs} {b : InputBuffer}
    (hheard : Heard (.live .input c) qs qs) (hread : c.read rs clock = .ok (st, c'))
    (hbusy : inputBufferReadInto c.inputBuffer rs = some (.readBusy, b))
    (hq : Begins q (delivered rs)) (hcontext : y.context = (readEffect r st c').1)
    (hobs : obs = (readEffect r st c').2)
    (h : (y = .live .input c ∧ ∀ q, Obs.parsed r q ∉ obs) ∨
      Connection.Transition r (.live .input c) y obs) :
    Heard y (qs ++ [q]) (qs ++ Trace.parsed r obs) := by
  obtain ⟨-, hfits, hidle⟩ := hheard.live
  have hcase := Idle.read hidle hread hbusy hq
  split at hcase
  · rename_i hroom
    obtain ⟨rfl, hcontent, hpos, hcount⟩ := hcase
    simp only [readEffect, hcontent] at hcontext hobs
    subst hobs
    have hready : y.Ready (headerRoom (qs ++ [q])) := by
      rw [headerRoom_snoc]
      rcases h with ⟨-, hnone⟩ | h
      · exact absurd (List.mem_singleton.mpr rfl) (hnone q)
      · cases h with
        | parse =>
          cases hcontext
          exact ⟨hpos, hcount⟩
    have hparsed : Trace.parsed r [.parsed r q] = [q] := by simp [Trace.parsed]
    rw [hparsed]
    exact .fits (fits_snoc.mpr ⟨hfits, hroom⟩) hready
  · rename_i hroom
    subst hcase
    simp only [readEffect] at hcontext hobs
    subst hobs
    have hclosed : y = .closed := by
      rcases h with ⟨rfl, -⟩ | h
      · cases hcontext
      · cases h with
        | readFail => rfl
        | read => cases hcontext
    rw [hclosed, Trace.parsed, List.filterMap_nil, List.append_nil]
    exact .refused fun hfits' => hroom (fits_snoc.mp hfits').2

end

/-! The server. -/

section

variable {cfg : Config} {s t : State} {k k' : Nat → Connection} {l : Label} {obs : List Obs}
  {w r : Nat} {e : Event} {rs : List ReadResult} {c c' : RequestContext}

/-- A step of the server as its connections see it. -/
inductive Followed (k k' : Nat → Connection) (obs : List Obs) : Prop
  | silent (hk : k' = k) (hobs : obs = [])
  | one {r : Nat} {act : ConnectionAct} {x : Connection}
      (hstep : (k r).step r act = .ok (x, obs)) (hk : k' = Function.update k r x)

theorem Matched.followed (h : Matched cfg s k (t, obs)) :
    ∃ k', Followed k k' obs ∧ Owned cfg t k' := by
  rcases h with ⟨hobs, howned, -⟩ | ⟨r, act, x, hstep, howned, -⟩
  · exact ⟨k, .silent rfl hobs, howned⟩
  · exact ⟨_, .one hstep rfl, howned⟩

theorem Followed.run {tr : List Obs} (h : Followed k k' obs) (hk : connections.Run k tr) :
    connections.Run k' (tr ++ obs) := by
  cases h with
  | silent hk' hobs =>
    subst hk' hobs
    rwa [List.append_nil]
  | @one r act x hstep hk' =>
    subst hk'
    exact hk.next (r, act) (by simp [connections, hstep])

theorem Followed.timed (h : Followed k k' obs) (hk : AllTimed k) : AllTimed k' := by
  cases h with
  | silent hk' => rwa [hk']
  | one hstep hk' =>
    rw [hk']
    exact hk.update _ ((hk _).step hstep)

theorem Connection.Transition.on {x y : Connection} {o : Obs} (h : Transition r x y obs)
    (ho : o ∈ obs) : o.On r := by
  cases h with
  | parse | handle | write | writeClose | reset =>
    rw [List.mem_singleton.mp ho]
    rfl
  | accept | read | readFail | delete | push | pop | register | writeFail => cases ho

theorem Followed.each (h : Followed k k' obs) (r : Nat) :
    (k' r = k r ∧ ∀ q, Obs.parsed r q ∉ obs) ∨ Connection.Transition r (k r) (k' r) obs := by
  cases h with
  | silent hk hobs =>
    subst hk hobs
    exact .inl ⟨rfl, by simp⟩
  | @one r' act x hstep hk =>
    have htransition := Connection.step_cases hstep
    subst hk
    by_cases hr : r = r'
    · subst hr
      rw [Function.update_self]
      exact .inr htransition
    · refine .inl ⟨Function.update_of_ne hr _ _, fun q hq => ?_⟩
      exact hr (htransition.on hq)

/-- What has become of the requests on a connection of which nothing is read. -/
theorem Followed.heard {qs ps : List RequestContent} (h : Followed k k' obs)
    (hs : Owned cfg s k) (ht : Owned cfg t k') (hobs : ∀ q, Obs.parsed r q ∉ obs)
    (hrequests : s.ResumesAt t r)
    (hheard : Heard (k r) qs ps) : Heard (k' r) qs ps := by
  rcases h.each r with ⟨hk, -⟩ | htransition
  · rwa [hk]
  · refine hheard.transition htransition hobs fun c c' hc hc' => ?_
    rw [← hs.wired.requests] at hc
    rw [← ht.wired.requests] at hc'
    obtain ⟨d, hd, hresumes⟩ := hrequests (by rw [hc]; simp) c' hc'
    rw [hc] at hd
    cases hd
    exact hresumes

/-- The parser is given all that has arrived, unless the connection is at its end. -/
theorem handedOver_cases {st : ReadState} (he : Expects s k w e r .input c)
    (hread : c.read rs s.clock = .ok (st, c')) :
    (∃ b, inputBufferReadInto c.inputBuffer rs = some (.readBusy, b) ∧
      handedOver s e rs = .ok [(r, delivered rs)]) ∨
    ((readEffect r st c') = (none, []) ∧ handedOver s e rs = .ok []) := by
  obtain ⟨stats, stats', c1, ht, rfl⟩ := RequestContext.read_eq_ok hread
  simp only [tryParseHttpRequest, Option.bind_eq_bind, Option.bind_eq_some_iff, Prod.exists] at ht
  obtain ⟨state, b, hinto, ht⟩ := ht
  have hcontext := State.socket_eq he.socket
  have hrequest := State.request_eq he.request
  cases state with
  | readBusy =>
    refine .inl ⟨b, hinto, ?_⟩
    simp only [handedOver, hcontext, Stage.context_request, hrequest, hinto,
      Outcome.enabled, Outcome.ok_bind, Outcome.pure_eq]
  | readFinish => exact absurd hinto readInto_ne_finish
  | readError | clientDisconnect =>
    cases ht
    refine .inr ⟨rfl, ?_⟩
    simp only [handedOver, hcontext, Stage.context_request, hrequest, hinto,
      Outcome.enabled, Outcome.ok_bind, Outcome.pure_eq]

theorem arrivals_append (r : Nat) (notes more : List (Nat × List UInt8)) :
    arrivals r (notes ++ more) = arrivals r notes ++ arrivals r more := by
  simp [arrivals, List.filterMap_append]

theorem parsed_append (r : Nat) (tr obs : List Obs) :
    Trace.parsed r (tr ++ obs) = Trace.parsed r tr ++ Trace.parsed r obs := by
  simp [Trace.parsed, List.filterMap_append]

theorem parsed_nil (hobs : ∀ q, Obs.parsed r q ∉ obs) : Trace.parsed r obs = [] := by
  refine List.filterMap_eq_nil_iff.mpr fun o ho => ?_
  cases o with
  | parsed r' q =>
    have hr : r' ≠ r := by
      rintro rfl
      exact hobs q ho
    simp [hr]
  | handled | wrote => rfl

/-- On each connection the requests that arrived have been heard. -/
def AllHeard (k : Nat → Connection) (notes : List (Nat × List UInt8)) (tr : List Obs) : Prop :=
  ∀ r qs, List.Forall₂ Begins qs (arrivals r notes) → Heard (k r) qs (Trace.parsed r tr)

theorem AllHeard.quiet {notes more : List (Nat × List UInt8)} {tr : List Obs}
    {qs : List RequestContent} (hheard : AllHeard k notes tr) (hmore : arrivals r more = [])
    (hobs : ∀ q, Obs.parsed r q ∉ obs) (hf : Followed k k' obs) (hs : Owned cfg s k)
    (ht : Owned cfg t k')
    (hrequests : s.ResumesAt t r)
    (hqs : List.Forall₂ Begins qs (arrivals r (notes ++ more))) :
    Heard (k' r) qs (Trace.parsed r (tr ++ obs)) := by
  rw [arrivals_append, hmore, List.append_nil] at hqs
  rw [parsed_append, parsed_nil hobs, List.append_nil]
  exact hf.heard hs ht hobs hrequests (hheard r qs hqs)

/-- What `client_handle_read` makes of the bytes that it is given. -/
theorem AllHeard.read {notes : List (Nat × List UInt8)} {tr : List Obs} {r' : Nat}
    {qs : List RequestContent} {st : ReadState} (hheard : AllHeard k notes tr)
    (hf : Followed k k' obs) (hs : Owned cfg s k) (ht : Owned cfg t k')
    (he : Expects s k w e r .input c) (hread : c.read rs s.clock = .ok (st, c'))
    (hrequests : t.requests = Function.update s.requests r (readEffect r st c').1)
    (hobs : obs = (readEffect r st c').2)
    (hqs : List.Forall₂ Begins qs (arrivals r' (notes ++ (handedOver s e rs).toList.flatten))) :
    Heard (k' r') qs (Trace.parsed r' (tr ++ obs)) := by
  have hk := he.live
  have hcases := handedOver_cases he hread
  by_cases hr' : r' = r
  · subst hr'
    rcases hcases with ⟨b, hbusy, hhanded⟩ | ⟨heffect, hhanded⟩
    · have hmore : arrivals r' (handedOver s e rs).toList.flatten = [delivered rs] := by
        rw [hhanded]
        simp [Outcome.toList, arrivals]
      rw [arrivals_append, hmore] at hqs
      have hbefore := hheard r' _ (List.forall₂_take_append _ _ _ hqs)
      have hlast := List.forall₂_drop_append _ _ _ hqs
      generalize hq : qs.drop (arrivals r' notes).length = new at hlast
      obtain ⟨q, rfl, hbegins⟩ : ∃ q, new = [q] ∧ Begins q (delivered rs) := by
        cases hlast with
        | cons hbegins hnil =>
          cases hnil
          exact ⟨_, rfl, hbegins⟩
      have hsplit := List.take_append_drop (arrivals r' notes).length qs
      rw [hk] at hbefore
      have hparsed := hbefore.live.1
      rw [hparsed] at hbefore
      have hcontext : (k' r').context = (readEffect r' st c').1 := by
        rw [← ht.wired.requests, hrequests, Function.update_self]
      have hafter := hf.each r'
      rw [hk] at hafter
      have hheard' := hbefore.read hread hbusy hbegins hcontext hobs hafter
      rwa [← hq, hsplit, ← hparsed, ← parsed_append] at hheard'
    · have hnil : obs = [] := by rw [hobs, heffect]
      refine hheard.quiet (by rw [hhanded]; rfl) (by simp [hnil]) hf hs ht ?_ hqs
      intro _ c1 hc1
      rw [hrequests, heffect, Function.update_self] at hc1
      cases hc1
  · have hmore : arrivals r' (handedOver s e rs).toList.flatten = [] := by
      rcases hcases with ⟨b, -, hhanded⟩ | ⟨-, hhanded⟩
      · rw [hhanded]
        simp [Outcome.toList, arrivals, Ne.symm hr']
      · rw [hhanded]
        rfl
    have hother : ∀ q, Obs.parsed r' q ∉ obs := by
      rw [hobs]
      cases st <;> simp [readEffect, hr']
    refine hheard.quiet hmore hother hf hs ht ?_ hqs
    intro _ c1 hc1
    rw [hrequests, Function.update_of_ne hr'] at hc1
    exact ⟨c1, hc1, .rfl⟩

theorem AllHeard.step {notes : List (Nat × List UInt8)} {tr : List Obs} (hs : Owned cfg s k)
    (htimed : AllTimed k) (hheard : AllHeard k notes tr)
    (hstep : (server cfg).step s l = some (t, obs)) :
    ∃ k', Followed k k' obs ∧ Owned cfg t k' ∧ AllHeard k' (notes ++ arrived s l) (tr ++ obs) := by
  obtain ⟨k', hf, ht⟩ := (server_step hs htimed hstep).followed
  refine ⟨k', hf, ht, fun r qs hqs => ?_⟩
  obtain ⟨-, hsteps | ⟨e, hends, rfl, rfl⟩⟩ := server_step_cases hs htimed hstep
  · cases hsteps.hearing hs with
    | quiet hl hobs hrequests =>
      exact hheard.quiet (by rw [hl]; rfl) (hobs r) hf hs ht (hrequests r) hqs
    | read hl hpc he hread hrequests hobs =>
      subst hl
      simp only [arrived, hpc] at hqs
      exact hheard.read hf hs ht he hread hrequests hobs hqs
  · refine hheard.quiet (by rw [hends.arrived]; rfl) nofun hf hs ht ?_ hqs
    exact fun _ => State.Resumes.of_eq rfl r

theorem listening_heard {tr : List (Obs ⊕ Nat × List UInt8)} (h : (listening cfg).Run s tr) :
    ∃ k, connections.Run k (Machine.shown tr) ∧ Owned cfg s k ∧ AllTimed k ∧
      AllHeard k (Machine.noted tr) (Machine.shown tr) := by
  induction h with
  | start hi =>
    obtain ⟨clock, rfl⟩ := hi
    refine ⟨fun _ => .unborn, .start fun _ => rfl, owned_init cfg clock, fun _ => trivial, ?_⟩
    intro r qs hqs
    cases hqs
    exact .fits (List.isChain_singleton _) rfl
  | next l _ hrecord ih =>
    obtain ⟨k, hk, hs, htimed, hheard⟩ := ih
    obtain ⟨obs, hstep, rfl⟩ := Machine.record_step.mp hrecord
    obtain ⟨k', hf, ht, hheard'⟩ := hheard.step hs htimed hstep
    rw [Machine.shown_append, Machine.noted_append]
    exact ⟨k', hf.run hk, ht, hf.timed htimed, hheard'⟩

def keepAliveContent : RequestContent :=
  ⟨some (ascii "GET"), some (ascii "/"), 1, [(some (ascii "Connection"), ascii "Keep-Alive")]⟩

theorem keepAliveRequest_begins : Begins keepAliveContent keepAliveRequest := by
  have hline : RequestLine (ascii "GET") (ascii "/") 1 (ascii "GET / HTTP/1.1\r\n") :=
    .intro (d := 0x31) (.inl rfl) (by decide) (by decide) (by decide) (by decide) .crlf
  have hblank : ∀ c ∈ [SP], blankMove c = .go := by
    intro c hc
    rw [List.mem_singleton.mp hc]
    decide
  have hstart : ∀ c ∈ (ascii "Keep-Alive").head?, blankMove c = .halt := by
    rintro c ⟨⟩
    decide
  have hfield : FieldOf 0 (some (ascii "Connection"), ascii "Keep-Alive")
      (ascii "Connection: Keep-Alive") :=
    .named (b := [SP]) (by decide) hblank (by decide) hstart
  have hrequest : RequestOf keepAliveContent keepAliveRequest :=
    .intro hline (.cons hfield .crlf .nil) .crlf
  exact ⟨keepAliveRequest, hrequest, List.prefix_rfl, by decide +kernel⟩

/-- When each event of a connection brings a whole request, these are the requests that
are parsed, as long as none of them has more headers than the one before it. The first
that has is refused and the connection is closed. The client reads the answers to the
first of its requests, and to all of them once the server waits for another one. -/
theorem client_served {tr : List (Obs ⊕ Nat × List UInt8)} (h : (listening cfg).Run s tr) (r : Nat)
    {qs : List RequestContent}
    (hqs : List.Forall₂ Begins qs (arrivals r (Machine.noted tr))) :
    (Fits qs → Trace.parsed r (Machine.shown tr) = qs) ∧
    (¬ Fits qs → Trace.parsed r (Machine.shown tr) = qs.dropLast ∧ s.requests r = none) ∧
    (∃ n ≤ qs.length,
      List.Forall₂ Answers (qs.take n) (clientReads (Trace.written r (Machine.shown tr)))) ∧
    (s.requests r ≠ none → s.serving r = false →
      List.Forall₂ Answers qs (clientReads (Trace.written r (Machine.shown tr)))) := by
  obtain ⟨k, hk, howned, -, hheard⟩ := listening_heard h
  obtain ⟨⟨n, -, hread, -⟩, hidle⟩ := connections_replies hk r
  have hheard' := hheard r qs hqs
  generalize Trace.parsed r (Machine.shown tr) = ps at hheard' hread hidle
  rw [howned.wired.requests, howned.serving_eq]
  generalize k r = x at hheard' hidle
  cases hheard' with
  | fits hfits =>
    refine ⟨fun _ => rfl, fun hnot => absurd hfits hnot, ?_, hidle⟩
    refine ⟨min n qs.length, Nat.min_le_right _ _, ?_⟩
    rwa [← List.take_eq_take_min]
  | @refused _ q hfits =>
    refine ⟨fun h => absurd h hfits, fun _ => ⟨List.dropLast_concat.symm, rfl⟩, ?_,
      fun hopen => absurd rfl hopen⟩
    refine ⟨min n ps.length, ?_, ?_⟩
    · rw [List.length_append]
      omega
    · rwa [List.take_append_of_le_length (Nat.min_le_right _ _), ← List.take_eq_take_min]

/-- The client of the only worker sends two requests, one after the other, and reads their
answers. -/
theorem client_served_kept : ∃ s tr, (listening smallConfig).Run s tr ∧
    Trace.parsed 1 (Machine.shown tr) = [keepAliveContent, keepAliveContent] ∧
    List.Forall₂ Answers [keepAliveContent, keepAliveContent]
      (clientReads (Trace.written 1 (Machine.shown tr))) := by
  have hexec : ((listening smallConfig).exec (initState smallConfig fun _ => ⟨0, 0⟩)
      (acceptLabels 4 ++ servedLabels 2 3 keepAliveRequest ++ againLabels ++
        servedLabels 3 4 keepAliveRequest)).any (fun x =>
      arrivals 1 (Machine.noted x.2) = [keepAliveRequest, keepAliveRequest] &&
        (x.1.requests 1).isSome && !x.1.serving 1) = true := by
    decide +kernel
  obtain ⟨⟨s, tr⟩, hs, htr⟩ := (Option.any_eq_true _ _).mp hexec
  simp only [Bool.and_eq_true, decide_eq_true_eq, Bool.not_eq_true'] at htr
  obtain ⟨⟨harrivals, hopen⟩, hidle⟩ := htr
  have hrun : (listening smallConfig).Run s tr := .of_exec ⟨_, rfl⟩ hs
  have hqs : List.Forall₂ Begins [keepAliveContent, keepAliveContent]
      (arrivals 1 (Machine.noted tr)) := by
    rw [harrivals]
    exact .cons keepAliveRequest_begins (.cons keepAliveRequest_begins .nil)
  have hfits : Fits [keepAliveContent, keepAliveContent] := by
    simp [Fits, keepAliveContent, RequestContent.headerCount, numHeadersMax]
  obtain ⟨hparsed, -, -, hall⟩ := client_served hrun 1 hqs
  exact ⟨s, tr, hrun, hparsed hfits, hall (Option.isSome_iff_ne_none.mp hopen) hidle⟩

end

end Jullop
