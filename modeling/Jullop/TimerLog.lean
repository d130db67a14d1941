import Jullop.RequestTimes
import Jullop.Refinement

/-! The calls that a run of the server makes for the times of each request, with those
of `server_stats_record_request` among them, and what the steps that make them do. -/

namespace Jullop

def Outcome.toList {Halt α : Type} : Outcome Halt α → List α
  | .ok a => [a]
  | _ => []

/-- `client_handle_read` and `client_handle_write` up to the point where they know
what to do with the connection. -/
def readResult (s : State) (e : Event) (rs : List ReadResult) : Outcome Halt (ReadState × State) := do
  let context ← s.socket e.ptr
  let r ← context.request
  let c ← s.request r
  let (state, c) ← c.read rs s.clock
  return (state, (s.tick 2).setRequest r c)

def writeResult (s : State) (e : Event) (ws : List WriteResult) :
    Outcome Halt (WriteState × State) := do
  let context ← s.socket e.ptr
  let r ← context.request
  let c ← s.request r
  let (state, _, c) ← c.write ws s.clock
  return (state, (s.tick 2).setRequest r c)

/-- A call of `per_request_clear_time`, of `per_request_record_start` or
`per_request_record_end`, or of `server_stats_record_request`. -/
inductive TimerEntry
  | clear
  | call (call : TimeCall)
  | record (stats : PerRequestStats)

/-- The calls since the times were cleared. -/
def TimerEntry.apply (calls : List TimeCall) : TimerEntry → List TimeCall
  | clear => []
  | call c => calls ++ [c]
  | record _ => calls

def TimerEntry.stats : TimerEntry → Option PerRequestStats
  | record x => some x
  | _ => none

/-- The calls of `client_close_connection` for the context `r` of the socket context
`p`. -/
def closeLog (s : State) (p : Nat) : Outcome Halt (List (Nat × TimerEntry)) := do
  let context ← s.socket p
  let r ← context.request
  let c ← s.request r
  let c ← c.recordEnd .totalTime (s.clock 0)
  return [(r, .call (.stop .totalTime (s.clock 0))), (r, .record c.timeStats)]

def resetLog (s : State) (p : Nat) : Outcome Halt (List (Nat × TimerEntry)) := do
  let context ← s.socket p
  let r ← context.request
  let log ← closeLog s p
  return log ++ [(r, .clear), (r, .call (.start .totalTime (s.clock 1)))]

/-- The interval of a component that is measured within one handler. -/
def spanLog (r : Nat) (type : TimeType) (clock : Nat → Timespec) : List (Nat × TimerEntry) :=
  [(r, .call (.start type (clock 0))), (r, .call (.stop type (clock 1)))]

def readLog (s : State) (e : Event) (rs : List ReadResult) :
    Outcome Halt (List (Nat × TimerEntry)) := do
  let context ← s.socket e.ptr
  let r ← context.request
  let (state, t) ← readResult s e rs
  match state with
  | .readError | .clientDisconnect =>
    let last ← closeLog t e.ptr
    return spanLog r .clientReadTime s.clock ++ last
  | .readFinish | .readBusy => return spanLog r .clientReadTime s.clock

def writeLog (s : State) (e : Event) (ws : List WriteResult) :
    Outcome Halt (List (Nat × TimerEntry)) := do
  let context ← s.socket e.ptr
  let r ← context.request
  let (state, t) ← writeResult s e ws
  let c ← t.request r
  match state with
  | .writeBusy => return spanLog r .clientWriteTime s.clock
  | .writeError =>
    let last ← closeLog t e.ptr
    return spanLog r .clientWriteTime s.clock ++ last
  | .writeFinish =>
    let last ← if contextKeepAlive c then resetLog t e.ptr else closeLog t e.ptr
    return spanLog r .clientWriteTime s.clock ++ last

/-- What `process_epoll_event` does for a request that it has popped. -/
def processLog (s : State) (r : Nat) : Outcome Halt (List (Nat × TimerEntry)) := do
  let c ← s.request r
  let _ ← c.process s.clock
  return (r, .call (.stop .queueTime (s.clock 0))) ::
    spanLog r .actorTime fun i => s.clock (i + 1)

/-- The calls in one step, each with the context that it is made for. -/
def stepLog (s : State) : Label → Outcome Halt (List (Nat × TimerEntry))
  | .worker w act =>
    match s.workers w, act with
    | .batch (e :: _), .next => do
      if e.events.error then
        let context ← s.socket e.ptr
        if context.errorHandler = some .clientHandleError then closeLog s e.ptr else return []
      else return []
    | .batch (e :: _), .read rs =>
      if e.events.error || !e.events.epollin then .ok [] else readLog s e rs
    | .output e _, .write ws => if e.events.epollout then writeLog s e ws else .ok []
    | .accepting _ _, .accept _ _ _ =>
      .ok [(s.next, .clear), (s.next, .call (.start .totalTime (s.clock 0)))]
    | .dispatching (.push _) r _ _, .next => .ok [(r, .call (.start .queueTime (s.clock 0)))]
    | _, _ => .ok []
  | .actor a act =>
    match s.actors a, act with
    | .popped _ _ _ r, .next => processLog s r
    | _, _ => .ok []

/-- When the process ends in the middle of a handler its calls are left out. -/
def timerLog (s : State) (l : Label) : List (Nat × TimerEntry) := (stepLog s l).toList.flatten

def timedServer (cfg : Config) : Machine State Label (Nat × TimerEntry) :=
  (server cfg).log timerLog

/-- What `server_stats_record_request` is given. -/
def records (log : List (Nat × TimerEntry)) : List PerRequestStats :=
  log.filterMap fun entry => entry.2.stats

/-- What a step does with the contexts of the requests and with the counters, with the
calls that it makes on the way. -/
inductive Handling : State → State → List (Nat × TimerEntry) → Prop
  | quiet {s t : State} (hreq : t.requests = s.requests) (hstats : t.stats = s.stats) :
      Handling s t []
  | accept {s t : State} {fd w : Nat} {inputHeap outputHeap : Nat → UInt8} {c : RequestContext}
      (haccept : RequestContext.accept fd inputHeap outputHeap w s.clock = .ok c)
      (hreq : t.requests = Function.update s.requests s.next (some c))
      (hstats : t.stats = serverStatsIncrActiveRequests s.stats) :
      Handling s t [(s.next, .clear), (s.next, .call (.start .totalTime (s.clock 0)))]
  | read {s t : State} {r : Nat} {rs : List ReadResult} {state : ReadState}
      {c c' : RequestContext} (hr : s.requests r = some c)
      (hb : c.bits = TimeType.totalTime.bit) (hread : c.read rs s.clock = .ok (state, c'))
      (hreq : t.requests = Function.update s.requests r (some c')) (hstats : t.stats = s.stats) :
      Handling s t (spanLog r .clientReadTime s.clock)
  | push {s t : State} {r : Nat} {c c' : RequestContext} (hr : s.requests r = some c)
      (hb : c.bits = TimeType.totalTime.bit)
      (hstart : c.recordStart .queueTime (s.clock 0) = .ok c')
      (hreq : t.requests = Function.update s.requests r (some c')) (hstats : t.stats = s.stats) :
      Handling s t [(r, .call (.start .queueTime (s.clock 0)))]
  | process {s t : State} {r : Nat} {c c' : RequestContext} (hr : s.requests r = some c)
      (hb : c.bits = TimeType.totalTime.bit ||| TimeType.queueTime.bit)
      (hprocess : c.process s.clock = .ok c')
      (hreq : t.requests = Function.update s.requests r (some c')) (hstats : t.stats = s.stats) :
      Handling s t ((r, .call (.stop .queueTime (s.clock 0))) ::
        spanLog r .actorTime fun i => s.clock (i + 1))
  | write {s t : State} {r : Nat} {ws : List WriteResult} {state : WriteState}
      {bytes : List UInt8} {c c' : RequestContext} (hr : s.requests r = some c)
      (hb : c.bits = TimeType.totalTime.bit) (hwrite : c.write ws s.clock = .ok (state, bytes, c'))
      (hreq : t.requests = Function.update s.requests r (some c')) (hstats : t.stats = s.stats) :
      Handling s t (spanLog r .clientWriteTime s.clock)
  | close {s t : State} {r : Nat} {c d : RequestContext} (hr : s.requests r = some c)
      (hb : c.bits = TimeType.totalTime.bit)
      (hend : c.recordEnd .totalTime (s.clock 0) = .ok d)
      (hreq : t.requests = Function.update s.requests r none)
      (hstats : t.stats = serverStatsRecordRequest
        (serverStatsIncrTotalRequests (serverStatsDecrActiveRequests s.stats)) d.timeStats) :
      Handling s t [(r, .call (.stop .totalTime (s.clock 0))), (r, .record d.timeStats)]
  | reset {s t : State} {r : Nat} {c d d' : RequestContext} (hr : s.requests r = some c)
      (hb : c.bits = TimeType.totalTime.bit)
      (hend : c.recordEnd .totalTime (s.clock 0) = .ok d)
      (hstart : (contextFinalizeReset d).recordStart .totalTime (s.clock 1) = .ok d')
      (hreq : t.requests = Function.update s.requests r (some d'))
      (hstats : t.stats = serverStatsRecordRequest (serverStatsIncrTotalRequests s.stats)
        d.timeStats) :
      Handling s t [(r, .call (.stop .totalTime (s.clock 0))), (r, .record d.timeStats),
        (r, .clear), (r, .call (.start .totalTime (s.clock 1)))]
  | seq {s t u : State} {log log' : List (Nat × TimerEntry)} (h : Handling s u log)
      (h' : Handling u t log') : Handling s t (log ++ log')

section

variable {cfg : Config} {s t : State} {k : Nat → Connection} {l : Label} {p r w : Nat}
  {st : Stage} {c c' d d' : RequestContext} {e : Event} {obs : List Obs}

theorem Waits.closeLog_eq (h : Waits s p r st c)
    (hend : c.recordEnd .totalTime (s.clock 0) = .ok d) :
    closeLog s p = .ok [(r, .call (.stop .totalTime (s.clock 0))), (r, .record d.timeStats)] := by
  simp only [closeLog, State.socket_eq h.socket, Stage.context_request, State.request_eq h.request,
    hend, Outcome.ok_bind, Outcome.pure_eq]

theorem Waits.resetLog_eq (h : Waits s p r st c)
    (hend : c.recordEnd .totalTime (s.clock 0) = .ok d) :
    resetLog s p = .ok [(r, .call (.stop .totalTime (s.clock 0))), (r, .record d.timeStats),
      (r, .clear), (r, .call (.start .totalTime (s.clock 1)))] := by
  simp only [resetLog, h.closeLog_eq hend, State.socket_eq h.socket, Stage.context_request,
    Outcome.ok_bind, Outcome.pure_eq]
  rfl

theorem Waits.readResult_eq {rs : List ReadResult} {state : ReadState}
    (h : Waits s e.ptr r st c) (hread : c.read rs s.clock = .ok (state, c')) :
    readResult s e rs = .ok (state, (s.tick 2).setRequest r c') := by
  simp only [readResult, State.socket_eq h.socket, Stage.context_request,
    State.request_eq h.request, hread, Outcome.ok_bind, Outcome.pure_eq]

theorem Waits.writeResult_eq {ws : List WriteResult} {state : WriteState} {bytes : List UInt8}
    (h : Waits s e.ptr r st c) (hwrite : c.write ws s.clock = .ok (state, bytes, c')) :
    writeResult s e ws = .ok (state, (s.tick 2).setRequest r c') := by
  simp only [writeResult, State.socket_eq h.socket, Stage.context_request,
    State.request_eq h.request, hwrite, Outcome.ok_bind, Outcome.pure_eq]

theorem Waits.read {rs : List ReadResult} {state : ReadState} (h : Waits s p r st c)
    (hread : c.read rs s.clock = .ok (state, c')) : Waits ((s.tick 2).setRequest r c') p r st c' :=
  h.setRequest (RequestContext.read_keeps hread).1 (RequestContext.read_keeps hread).2.1
    (RequestContext.read_bits h.bits hread) 2

theorem Waits.write {ws : List WriteResult} {state : WriteState} {bytes : List UInt8}
    (h : Waits s p r st c) (hwrite : c.write ws s.clock = .ok (state, bytes, c')) :
    Waits ((s.tick 2).setRequest r c') p r st c' :=
  h.setRequest (RequestContext.write_keeps hwrite).1 (RequestContext.write_keeps hwrite).2
    (RequestContext.write_bits h.bits hwrite) 2

theorem Walk.stepLog_eq {act : WorkerAct} {pc pc' : WorkerPc} (hpc : s.workers w = pc)
    (hwalk : Walk cfg w pc act pc') : stepLog s (.worker w act) = .ok [] := by
  cases hwalk with
  | finish | accepted | unwritten => simp only [stepLog, hpc]
  | unread herror | listen herror =>
    simp only [stepLog, hpc, herror]
    rfl

theorem ActorWalk.stepLog_eq {a : Nat} {act : ActorAct} {pc pc' : ActorPc}
    (hpc : s.actors a = pc) (hwalk : ActorWalk cfg s a pc act pc') :
    stepLog s (.actor a act) = .ok [] := by
  cases hwalk <;> simp only [stepLog, hpc]

theorem readClose_handling {rs : List ReadResult} {state : ReadState}
    (he : Expects s k w e r st c) (hread : c.read rs s.clock = .ok (state, c'))
    (hstate : state = .readError ∨ state = .clientDisconnect)
    (hend : c'.recordEnd .totalTime (s.clock 2) = .ok d) :
    ∃ entries, readLog s e rs = .ok entries ∧
      Handling s (((s.tick 2).setRequest r c').closeConnection e.ptr r c' d.timeStats) entries := by
  have hwaits := he.toWaits.read hread
  have hfirst : Handling s ((s.tick 2).setRequest r c') (spanLog r .clientReadTime s.clock) :=
    .read he.request he.bits hread rfl rfl
  refine ⟨_, ?_, hfirst.seq (.close hwaits.request hwaits.bits hend rfl rfl)⟩
  simp only [readLog, State.socket_eq he.socket, Stage.context_request,
    he.toWaits.readResult_eq hread, Outcome.ok_bind]
  rcases hstate with rfl | rfl
  · rw [hwaits.closeLog_eq hend]
    rfl
  · rw [hwaits.closeLog_eq hend]
    rfl

theorem writeClose_handling {ws : List WriteResult} {state : WriteState} {bytes : List UInt8}
    (he : Expects s k w e r st c) (hwrite : c.write ws s.clock = .ok (state, bytes, c'))
    (hstate : state = .writeError ∨ state = .writeFinish ∧ contextKeepAlive c' = false)
    (hend : c'.recordEnd .totalTime (s.clock 2) = .ok d) :
    ∃ entries, writeLog s e ws = .ok entries ∧
      Handling s (((s.tick 2).setRequest r c').closeConnection e.ptr r c' d.timeStats) entries := by
  have hwaits := he.toWaits.write hwrite
  have hfirst : Handling s ((s.tick 2).setRequest r c') (spanLog r .clientWriteTime s.clock) :=
    .write he.request he.bits hwrite rfl rfl
  refine ⟨_, ?_, hfirst.seq (.close hwaits.request hwaits.bits hend rfl rfl)⟩
  simp only [writeLog, State.socket_eq he.socket, Stage.context_request,
    he.toWaits.writeResult_eq hwrite, State.request_eq hwaits.request, Outcome.ok_bind]
  rcases hstate with rfl | ⟨rfl, hkeep⟩
  · rw [hwaits.closeLog_eq hend]
    rfl
  · simp only [hkeep, hwaits.closeLog_eq hend]
    rfl

theorem reset_handling {ws : List WriteResult} {bytes : List UInt8} (he : Expects s k w e r st c)
    (hwrite : c.write ws s.clock = .ok (.writeFinish, bytes, c'))
    (hkeep : contextKeepAlive c' = true) (hend : c'.recordEnd .totalTime (s.clock 2) = .ok d)
    (hstart : (contextFinalizeReset d).recordStart .totalTime (s.clock 3) = .ok d') :
    ∃ entries, writeLog s e ws = .ok entries ∧
      Handling s (((s.tick 2).setRequest r c').resetConnection e.ptr r d' d.timeStats) entries := by
  have hwaits := he.toWaits.write hwrite
  have hfirst : Handling s ((s.tick 2).setRequest r c') (spanLog r .clientWriteTime s.clock) :=
    .write he.request he.bits hwrite rfl rfl
  refine ⟨_, ?_, hfirst.seq (.reset hwaits.request hwaits.bits hend hstart rfl rfl)⟩
  simp only [writeLog, State.socket_eq he.socket, Stage.context_request,
    he.toWaits.writeResult_eq hwrite, State.request_eq hwaits.request, Outcome.ok_bind, hkeep,
    if_true, hwaits.resetLog_eq hend]
  rfl

theorem Handling.congr {u : State} {entries : List (Nat × TimerEntry)} (h : Handling s t entries)
    (hreq : u.requests = t.requests) (hstats : u.stats = t.stats) : Handling s u entries := by
  rw [← List.append_nil entries]
  exact h.seq (.quiet hreq hstats)

/-- The calls of a step go with what it does. -/
theorem Steps.handling (hstep : Steps cfg s k l t obs) (h : Owned cfg s k) (htimed : AllTimed k) :
    ∃ entries, stepLog s l = .ok entries ∧ Handling s t entries := by
  cases hstep with
  | wait _ hpc => exact ⟨[], by simp only [stepLog, hpc], .quiet rfl rfl⟩
  | walk _ hwalk => exact ⟨[], hwalk.stepLog_eq rfl, .quiet rfl rfl⟩
  | fail _ hpc herror he hend =>
    refine ⟨_, ?_, .close he.request he.bits hend rfl rfl⟩
    simp only [stepLog, hpc, herror, if_true, State.socket_eq he.socket, Outcome.ok_bind,
      Stage.context_errorHandler, he.toWaits.closeLog_eq hend]
  | parse _ hpc hin he _ hread | read _ hpc hin he _ hread =>
    refine ⟨_, ?_, .read he.request he.bits hread rfl rfl⟩
    simp only [stepLog, hpc, hin, readLog, State.socket_eq he.socket, Stage.context_request,
      he.toWaits.readResult_eq hread, Outcome.ok_bind]
    rfl
  | readClose _ hpc hin he _ hread hstate hend =>
    obtain ⟨entries, hlog, hhandling⟩ := readClose_handling he hread hstate hend
    refine ⟨entries, ?_, hhandling.congr rfl rfl⟩
    simp only [stepLog, hpc, hin, hlog]
    rfl
  | delete _ hpc | load _ hpc | store _ hpc =>
    exact ⟨[], by simp only [stepLog, hpc], .quiet rfl rfl⟩
  | push _ hpc hk _ _ hstart =>
    refine ⟨_, ?_, .push (h.wired.live hk).1 (htimed.live hk) hstart rfl rfl⟩
    simp only [stepLog, hpc]
  | write _ hpc hout he hwrite =>
    have hwaits := he.toWaits.write hwrite
    refine ⟨_, ?_, .write he.request he.bits hwrite rfl rfl⟩
    simp only [stepLog, hpc, hout, if_true, writeLog, State.socket_eq he.socket,
      Stage.context_request, he.toWaits.writeResult_eq hwrite, State.request_eq hwaits.request,
      Outcome.ok_bind, Outcome.pure_eq]
  | writeClose _ hpc hout he hwrite hstate hend =>
    obtain ⟨entries, hlog, hhandling⟩ := writeClose_handling he hwrite hstate hend
    refine ⟨entries, ?_, hhandling.congr rfl rfl⟩
    simp only [stepLog, hpc, hout, if_true, hlog]
  | reset _ hpc hout he hwrite hkeep hend hstart =>
    obtain ⟨entries, hlog, hhandling⟩ := reset_handling he hwrite hkeep hend hstart
    refine ⟨entries, ?_, hhandling.congr rfl rfl⟩
    simp only [stepLog, hpc, hout, if_true, hlog]
  | accept _ hpc _ haccept =>
    exact ⟨_, by simp only [stepLog, hpc], .accept haccept rfl rfl⟩
  | actorWalk _ hwalk => exact ⟨[], hwalk.stepLog_eq rfl, .quiet rfl rfl⟩
  | eventRead _ hpc | popNull _ hpc | pop _ hpc | register _ hpc =>
    exact ⟨[], by simp only [stepLog, hpc], .quiet rfl rfl⟩
  | process _ hpc hk hprocess =>
    refine ⟨_, ?_, .process (h.wired.live hk).1 (htimed.live hk) hprocess rfl rfl⟩
    simp only [stepLog, hpc, processLog, State.request_eq (h.wired.live hk).1, hprocess,
      Outcome.ok_bind, Outcome.pure_eq]

theorem records_append (log log' : List (Nat × TimerEntry)) :
    records (log ++ log') = records log ++ records log' :=
  List.filterMap_append

theorem processLog_records (s : State) (r : Nat) :
    records (processLog s r).toList.flatten = [] := by
  simp only [processLog]
  cases s.request r with
  | disabled | halt _ => rfl
  | ok c =>
    cases hprocess : c.process s.clock <;>
      simp [hprocess, Outcome.toList, records, spanLog, TimerEntry.stats]

/-- A step with which the process ends records nothing. -/
theorem Ends.records {e : Halt} (h : Ends cfg s l e) : records (timerLog s l) = [] := by
  cases h with
  | queue _ hpc | event _ hpc =>
    simp only [timerLog, stepLog, hpc]
    rfl
  | listener _ hpc herror hs hhandler =>
    simp only [timerLog, stepLog, hpc, herror, if_true, State.socket_eq hs, Outcome.ok_bind, hhandler]
    rfl
  | accept _ hpc | wait _ hpc =>
    simp only [timerLog, stepLog, hpc]
    rfl
  | response _ hpc =>
    simp only [timerLog, stepLog, hpc]
    exact processLog_records s _

theorem server_handling (h : Owned cfg s k) (htimed : AllTimed k)
    (hstep : (server cfg).step s l = some (t, obs)) :
    s.halted = none ∧ (Handling s t (timerLog s l) ∨
      t.halted ≠ none ∧ t.stats = s.stats ∧ records (timerLog s l) = []) := by
  obtain ⟨hrunning, hsteps | ⟨e, hends, rfl, -⟩⟩ := server_step_cases h htimed hstep
  · obtain ⟨entries, hlog, hhandling⟩ := hsteps.handling h htimed
    refine ⟨hrunning, .inl ?_⟩
    simpa [timerLog, hlog, Outcome.toList] using hhandling
  · exact ⟨hrunning, .inr ⟨nofun, rfl, hends.records⟩⟩

end

end Jullop
