import Jullop.Machine
import Jullop.RequestContext

/-! What the handlers of `client.c`, `io_worker.c` and `actor.c` do to the context
of one request. The readings of the clock that a handler makes are numbered from
zero. -/

namespace Jullop

/-- Why the process ends. A use of released memory or of a closed descriptor
counts as an end too. -/
inductive Halt
  | epollCheck
  | invalidAccess
  | queueCheck
  | eventCheck
  | timeCheck
  | acceptCheck
  | waitCheck
  | responseCheck
  deriving DecidableEq, Repr

namespace RequestContext

def recordStart (c : RequestContext) (type : TimeType) (now : Timespec) :
    Outcome Halt RequestContext := do
  let stats ← Outcome.check .timeCheck (perRequestRecordStart c.timeStats type now)
  return { c with timeStats := stats }

def recordEnd (c : RequestContext) (type : TimeType) (now : Timespec) :
    Outcome Halt RequestContext := do
  let stats ← Outcome.check .timeCheck (perRequestRecordEnd c.timeStats type now)
  return { c with timeStats := stats }

def accept (fd : Nat) (inputHeap outputHeap : Nat → UInt8) (epollInfo : Nat)
    (clock : Nat → Timespec) : Outcome Halt RequestContext :=
  (initRequestContext fd inputHeap outputHeap epollInfo).recordStart .totalTime (clock 0)

def read (c : RequestContext) (rs : List ReadResult) (clock : Nat → Timespec) :
    Outcome Halt (ReadState × RequestContext) := do
  let c ← c.recordStart .clientReadTime (clock 0)
  let (state, c) ← Outcome.enabled (tryParseHttpRequest c rs)
  let c ← c.recordEnd .clientReadTime (clock 1)
  return (state, c)

def write (c : RequestContext) (ws : List WriteResult) (clock : Nat → Timespec) :
    Outcome Halt (WriteState × List UInt8 × RequestContext) := do
  let c ← c.recordStart .clientWriteTime (clock 0)
  let (state, bytes, buffer) ← Outcome.enabled (outputBufferWriteTo c.outputBuffer ws)
  let c ← { c with outputBuffer := buffer }.recordEnd .clientWriteTime (clock 1)
  return (state, bytes, c)

/-- What `process_epoll_event` does between its pop and its new registration. -/
def process (c : RequestContext) (clock : Nat → Timespec) : Outcome Halt RequestContext := do
  let c ← c.recordEnd .queueTime (clock 0)
  let c ← c.recordStart .actorTime (clock 1)
  let c ← Outcome.check .responseCheck (handleRequest c)
  c.recordEnd .actorTime (clock 2)

variable {c c' : RequestContext} {type : TimeType} {now : Timespec} {clock : Nat → Timespec}
  {h : Halt}

theorem recordStart_eq_ok (hc : c.recordStart type now = .ok c') :
    ∃ stats, c' = { c with timeStats := stats } := by
  simp only [recordStart, Outcome.bind_eq_ok, Outcome.pure_eq, Outcome.ok.injEq] at hc
  obtain ⟨stats, -, rfl⟩ := hc
  exact ⟨stats, rfl⟩

theorem recordEnd_eq_ok (hc : c.recordEnd type now = .ok c') :
    ∃ stats, c' = { c with timeStats := stats } := by
  simp only [recordEnd, Outcome.bind_eq_ok, Outcome.pure_eq, Outcome.ok.injEq] at hc
  obtain ⟨stats, -, rfl⟩ := hc
  exact ⟨stats, rfl⟩

theorem recordStart_eq_halt (hc : c.recordStart type now = .halt h) : h = .timeCheck := by
  simp only [recordStart, Outcome.bind_eq_halt, Outcome.check_eq_halt, Outcome.pure_eq,
    reduceCtorEq, and_false, exists_false, or_false] at hc
  exact hc.2.symm

theorem recordEnd_eq_halt (hc : c.recordEnd type now = .halt h) : h = .timeCheck := by
  simp only [recordEnd, Outcome.bind_eq_halt, Outcome.check_eq_halt, Outcome.pure_eq,
    reduceCtorEq, and_false, exists_false, or_false] at hc
  exact hc.2.symm

theorem accept_eq_ok {fd epollInfo : Nat} {inputHeap outputHeap : Nat → UInt8}
    (hc : accept fd inputHeap outputHeap epollInfo clock = .ok c) :
    ∃ stats, c = { initRequestContext fd inputHeap outputHeap epollInfo with timeStats := stats } :=
  recordStart_eq_ok hc

theorem read_eq_ok {rs : List ReadResult} {st : ReadState} (hc : c.read rs clock = .ok (st, c')) :
    ∃ stats stats' c1, tryParseHttpRequest { c with timeStats := stats } rs = some (st, c1) ∧
      c' = { c1 with timeStats := stats' } := by
  simp only [read, Outcome.bind_eq_ok, Outcome.enabled_eq_ok, Outcome.pure_eq, Outcome.ok.injEq,
    Prod.mk.injEq, Prod.exists] at hc
  obtain ⟨c0, h0, st', c1, h1, c2, h2, rfl, rfl⟩ := hc
  obtain ⟨stats, rfl⟩ := recordStart_eq_ok h0
  obtain ⟨stats', rfl⟩ := recordEnd_eq_ok h2
  exact ⟨stats, stats', c1, h1, rfl⟩

theorem write_eq_ok {ws : List WriteResult} {st : WriteState} {bytes : List UInt8}
    (hc : c.write ws clock = .ok (st, bytes, c')) :
    ∃ buffer stats, outputBufferWriteTo c.outputBuffer ws = some (st, bytes, buffer) ∧
      c' = { c with outputBuffer := buffer, timeStats := stats } := by
  simp only [write, Outcome.bind_eq_ok, Outcome.enabled_eq_ok, Outcome.pure_eq, Outcome.ok.injEq,
    Prod.mk.injEq, Prod.exists] at hc
  obtain ⟨c0, h0, st', bytes', buffer, h1, c2, h2, rfl, rfl, rfl⟩ := hc
  obtain ⟨stats, rfl⟩ := recordStart_eq_ok h0
  obtain ⟨stats', rfl⟩ := recordEnd_eq_ok h2
  exact ⟨buffer, stats', h1, rfl⟩

theorem write_keeps {ws : List WriteResult} {st : WriteState} {bytes : List UInt8}
    (hc : c.write ws clock = .ok (st, bytes, c')) : c'.fd = c.fd ∧ c'.epollInfo = c.epollInfo := by
  obtain ⟨buffer, stats, -, rfl⟩ := write_eq_ok hc
  exact ⟨rfl, rfl⟩

theorem process_eq_ok (hc : c.process clock = .ok c') :
    ∃ stats stats' buffer,
      handleRequest { c with timeStats := stats } =
        some { c with outputBuffer := buffer, timeStats := stats } ∧
      c' = { c with outputBuffer := buffer, timeStats := stats' } := by
  simp only [process, Outcome.bind_eq_ok, Outcome.check_eq_ok] at hc
  obtain ⟨c0, h0, c1, h1, c2, h2, h3⟩ := hc
  obtain ⟨stats0, rfl⟩ := recordEnd_eq_ok h0
  obtain ⟨stats, rfl⟩ := recordStart_eq_ok h1
  obtain ⟨stats', rfl⟩ := recordEnd_eq_ok h3
  have hbuffer : ∃ buffer, c2 = { c with outputBuffer := buffer, timeStats := stats } := by
    obtain ⟨-, buffer, -, rfl⟩ := handleRequest_eq_some.mp h2
    exact ⟨buffer, rfl⟩
  obtain ⟨buffer, rfl⟩ := hbuffer
  exact ⟨stats, stats', buffer, h2, rfl⟩

theorem process_keeps (hc : c.process clock = .ok c') :
    c'.content = c.content ∧ c'.outputBuffer.writeFromOffset = c.outputBuffer.writeFromOffset := by
  obtain ⟨stats, stats', buffer, hhandle, rfl⟩ := process_eq_ok hc
  have hfrom := handleRequest_from hhandle
  exact ⟨rfl, hfrom⟩

theorem tryParse_eq_some {rs : List ReadResult} {st : ReadState}
    (h : tryParseHttpRequest c rs = some (st, c')) :
    ∃ b, ((st = .readError ∨ st = .clientDisconnect) ∧ c' = { c with inputBuffer := b }) ∨
      ∃ result request, httpRequestParse b c.inputBuffer.offset c.httpRequest = (result, request) ∧
        st = .ofParse result ∧
        c' = { c with inputBuffer := b, httpRequest := request, parsedBuffer := b.resizeCount } := by
  simp only [tryParseHttpRequest, Option.bind_eq_bind, Option.bind_eq_some_iff, Prod.exists] at h
  obtain ⟨state, b, -, h⟩ := h
  refine ⟨b, ?_⟩
  cases state with
  | readError =>
    cases h
    exact .inl ⟨.inl rfl, rfl⟩
  | clientDisconnect =>
    cases h
    exact .inl ⟨.inr rfl, rfl⟩
  | readFinish | readBusy =>
    cases h
    exact .inr ⟨_, _, rfl, rfl, rfl⟩

theorem tryParse_keeps {rs : List ReadResult} {st : ReadState}
    (h : tryParseHttpRequest c rs = some (st, c')) :
    c'.fd = c.fd ∧ c'.epollInfo = c.epollInfo ∧ c'.outputBuffer = c.outputBuffer := by
  obtain ⟨b, ⟨-, rfl⟩ | ⟨result, request, -, -, rfl⟩⟩ := tryParse_eq_some h
  · exact ⟨rfl, rfl, rfl⟩
  · exact ⟨rfl, rfl, rfl⟩

theorem tryParse_timeStats {rs : List ReadResult} {st : ReadState}
    (h : tryParseHttpRequest c rs = some (st, c')) : c'.timeStats = c.timeStats := by
  obtain ⟨b, ⟨-, rfl⟩ | ⟨result, request, -, -, rfl⟩⟩ := tryParse_eq_some h
  · rfl
  · rfl

theorem read_keeps {rs : List ReadResult} {st : ReadState} (hc : c.read rs clock = .ok (st, c')) :
    c'.fd = c.fd ∧ c'.epollInfo = c.epollInfo ∧ c'.outputBuffer = c.outputBuffer := by
  obtain ⟨stats, stats', c1, ht, rfl⟩ := read_eq_ok hc
  have hkeeps := tryParse_keeps ht
  exact hkeeps

end RequestContext

end Jullop
