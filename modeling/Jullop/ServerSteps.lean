import Jullop.Moves
import Jullop.Timers

/-! What a step of the server can be, found once from the code of the handlers: what the
thread has before it, and the state that it leaves. -/

namespace Jullop

open Outcome

/-- The mask and the socket context with which a connection waits. -/
def Stage.mask : Stage → Events
  | output => .outputMask
  | _ => .inputMask

def Stage.context (r w : Nat) : Stage → SocketContext
  | output => writeContext r w
  | _ => readContext r w

/-- The connection `r` waits in the epoll set of its worker, with the socket context `p`. -/
structure Waits (s : State) (p r : Nat) (st : Stage) (c : RequestContext) : Prop where
  request : s.requests r = some c
  file : s.files c.fd = some (.connection r)
  socket : s.sockets p = some (st.context r c.epollInfo)
  epoll : s.epoll c.epollInfo c.fd = some ⟨st.mask, p⟩
  bits : c.bits = TimeType.totalTime.bit

/-- The event `e` of the worker `w` is for the connection `r`. -/
structure Expects (s : State) (k : Nat → Connection) (w : Nat) (e : Event) (r : Nat) (st : Stage)
    (c : RequestContext) : Prop extends Waits s e.ptr r st c where
  live : k r = .live st c
  registered : st.registered = true
  worker : c.epollInfo = w
  fd : c.fd = e.fd

namespace State

/-- The state behind `client_close_connection`, which records `stats`. -/
def closeConnection (s : State) (p r : Nat) (c : RequestContext) (stats : PerRequestStats) : State :=
  { s.tick 1 with
    stats := serverStatsRecordRequest
      (serverStatsIncrTotalRequests (serverStatsDecrActiveRequests s.stats)) stats }.drop
    p r c.epollInfo c.fd

/-- The state behind `client_reset_connection`, with the new context `c`. -/
def resetConnection (s : State) (p r : Nat) (c : RequestContext) (stats : PerRequestStats) : State :=
  (({ s.tick 2 with
    stats := serverStatsRecordRequest (serverStatsIncrTotalRequests s.stats) stats }.setRequest
      r c).setSocket p (readContext r c.epollInfo)).setEpoll c.epollInfo c.fd
    (some ⟨.inputMask, p⟩)

/-- The state behind one turn of `handle_accept_read`. -/
def acceptConnection (s : State) (c : RequestContext) : State :=
  (({ s.tick 1 with
    next := s.next + 2
    stats := serverStatsIncrActiveRequests s.stats
    files := Function.update s.files c.fd (some (.connection s.next)) }.setRequest
      s.next c).setSocket (s.next + 1) (readContext s.next c.epollInfo)).setEpoll c.epollInfo c.fd
    (some ⟨.inputMask, s.next + 1⟩)

/-- The request is in the queue of the actor `a`, and its socket context is released. -/
def pushRequest (s : State) (a p r : Nat) (c : RequestContext) (q : LockQueue.Queue Nat) : State :=
  { ((s.tick 1).setRequest r c).setQueue a c.epollInfo q with
    sockets := Function.update s.sockets p none }

def registerConnection (s : State) (r : Nat) (c : RequestContext) : State :=
  ({ s with next := s.next + 1 }.setSocket s.next (writeContext r c.epollInfo)).setEpoll
    c.epollInfo c.fd (some ⟨.outputMask, s.next⟩)

end State

/-- A worker goes on, and nothing else changes. -/
inductive Walk (cfg : Config) (w : Nat) : WorkerPc → WorkerAct → WorkerPc → Prop
  | finish : Walk cfg w (.batch []) .next .waiting
  | unread {e : Event} {rest : List Event} (herror : e.events.error = false) :
      Walk cfg w (.batch (e :: rest)) .next (.output e rest)
  | listen {e : Event} {rest : List Event} (herror : e.events.error = false) (hp : e.ptr = w)
      (hw : w < cfg.workerCount) : Walk cfg w (.batch (e :: rest)) .next (.accepting e rest)
  | accepted {e : Event} {rest : List Event} :
      Walk cfg w (.accepting e rest) .acceptBlock (.output e rest)
  | unwritten {e : Event} {rest : List Event} (hout : e.events.epollout = false) :
      Walk cfg w (.output e rest) .next (.batch rest)

/-- So does an actor. -/
inductive ActorWalk (cfg : Config) (s : State) (a : Nat) : ActorPc → ActorAct → ActorPc → Prop
  | wait {queues : List Nat} (hlen : queues.length ≤ 10)
      (hready : ∀ w ∈ queues, w < cfg.workerCount ∧ 0 < (s.queues a w).addEvent) :
      ActorWalk cfg s a .waiting (.wait queues) (.ready queues)
  | finish : ActorWalk cfg s a (.ready []) .next .waiting
  | unread {w : Nat} {rest : List Nat} (hread : eventfdRead (s.queues a w).addEvent = none) :
      ActorWalk cfg s a (.ready (w :: rest)) .next (.ready rest)
  | again {w : Nat} {rest : List Nat} :
      ActorWalk cfg s a (.popping w 0 rest) .next (.ready (w :: rest))

/-- What a step can be. -/
inductive Steps (cfg : Config) (s : State) (k : Nat → Connection) : Label → State → List Obs → Prop
  | wait {w : Nat} {events : List Event} (hw : w < cfg.workerCount) (hpc : s.workers w = .waiting)
      (hreports : s.reports w events = true) :
      Steps cfg s k (.worker w (.wait events)) (s.setWorker w (.batch events)) []
  | walk {w : Nat} {act : WorkerAct} {pc : WorkerPc} (hw : w < cfg.workerCount)
      (hwalk : Walk cfg w (s.workers w) act pc) :
      Steps cfg s k (.worker w act) (s.setWorker w pc) []
  | fail {w r : Nat} {e : Event} {rest : List Event} {st : Stage} {c d : RequestContext}
      (hw : w < cfg.workerCount) (hpc : s.workers w = .batch (e :: rest))
      (herror : e.events.error = true) (he : Expects s k w e r st c)
      (hend : c.recordEnd .totalTime (s.clock 0) = .ok d) :
      Steps cfg s k (.worker w .next)
        ((s.closeConnection e.ptr r c d.timeStats).setWorker w (.batch rest)) []
  | parse {w r : Nat} {e : Event} {rest : List Event} {rs : List ReadResult} {c c' : RequestContext}
      (hw : w < cfg.workerCount) (hpc : s.workers w = .batch (e :: rest))
      (hin : (e.events.error || !e.events.epollin) = false) (he : Expects s k w e r .input c)
      (hout : e.events.epollout = false) (hread : c.read rs s.clock = .ok (.readFinish, c')) :
      Steps cfg s k (.worker w (.read rs))
        (((s.tick 2).setRequest r c').setWorker w (.dispatching .delete r e rest))
        [.parsed r c'.content]
  | read {w r : Nat} {e : Event} {rest : List Event} {rs : List ReadResult} {c c' : RequestContext}
      (hw : w < cfg.workerCount) (hpc : s.workers w = .batch (e :: rest))
      (hin : (e.events.error || !e.events.epollin) = false) (he : Expects s k w e r .input c)
      (hout : e.events.epollout = false) (hread : c.read rs s.clock = .ok (.readBusy, c')) :
      Steps cfg s k (.worker w (.read rs))
        (((s.tick 2).setRequest r c').setWorker w (.output e rest)) []
  | readClose {w r : Nat} {e : Event} {rest : List Event} {rs : List ReadResult} {state : ReadState}
      {c c' d : RequestContext} (hw : w < cfg.workerCount) (hpc : s.workers w = .batch (e :: rest))
      (hin : (e.events.error || !e.events.epollin) = false) (he : Expects s k w e r .input c)
      (hout : e.events.epollout = false) (hread : c.read rs s.clock = .ok (state, c'))
      (hstate : state = .readError ∨ state = .clientDisconnect)
      (hend : c'.recordEnd .totalTime (s.clock 2) = .ok d) :
      Steps cfg s k (.worker w (.read rs))
        ((((s.tick 2).setRequest r c').closeConnection e.ptr r c' d.timeStats).setWorker w
          (.output e rest)) []
  | delete {w r : Nat} {e : Event} {rest : List Event} {c : RequestContext}
      (hw : w < cfg.workerCount) (hpc : s.workers w = .dispatching .delete r e rest)
      (hk : k r = .live .parsed c) :
      Steps cfg s k (.worker w .next)
        ((s.setEpoll w c.fd none).setWorker w (.dispatching .load r e rest)) []
  | load {w r : Nat} {e : Event} {rest : List Event} (hw : w < cfg.workerCount)
      (hpc : s.workers w = .dispatching .load r e rest) :
      Steps cfg s k (.worker w .next) (s.setWorker w (.dispatching (.store s.count) r e rest)) []
  | store {w r count : Nat} {e : Event} {rest : List Event} (hw : w < cfg.workerCount)
      (hpc : s.workers w = .dispatching (.store count) r e rest) :
      Steps cfg s k (.worker w .next)
        ({ s with count := (count + 1) % 2 ^ 64 }.setWorker w (.dispatching (.push count) r e rest))
        []
  | push {w r count : Nat} {e : Event} {rest : List Event} {c c' : RequestContext}
      {q : LockQueue.Queue Nat} (hw : w < cfg.workerCount)
      (hpc : s.workers w = .dispatching (.push count) r e rest) (hk : k r = .live .deleted c)
      (hworker : c'.epollInfo = w) (hs : s.sockets e.ptr = some (readContext r w))
      (hstart : c.recordStart .queueTime (s.clock 0) = .ok c')
      (hpush : LockQueue.queuePush (s.queues (count % cfg.actorCount) w) r =
        some (.queueSuccess, q)) :
      Steps cfg s k (.worker w .next)
        ((s.pushRequest (count % cfg.actorCount) e.ptr r c' q).setWorker w (.output e rest)) []
  | write {w r : Nat} {e : Event} {rest : List Event} {ws : List WriteResult} {bytes : List UInt8}
      {c c' : RequestContext} (hw : w < cfg.workerCount) (hpc : s.workers w = .output e rest)
      (hout : e.events.epollout = true) (he : Expects s k w e r .output c)
      (hwrite : c.write ws s.clock = .ok (.writeBusy, bytes, c')) :
      Steps cfg s k (.worker w (.write ws)) (((s.tick 2).setRequest r c').setWorker w (.batch rest))
        [.wrote (some (.connection r)) bytes]
  | writeClose {w r : Nat} {e : Event} {rest : List Event} {ws : List WriteResult}
      {state : WriteState} {bytes : List UInt8} {c c' d : RequestContext} (hw : w < cfg.workerCount)
      (hpc : s.workers w = .output e rest) (hout : e.events.epollout = true)
      (he : Expects s k w e r .output c) (hwrite : c.write ws s.clock = .ok (state, bytes, c'))
      (hstate : state = .writeError ∨ state = .writeFinish ∧ contextKeepAlive c' = false)
      (hend : c'.recordEnd .totalTime (s.clock 2) = .ok d) :
      Steps cfg s k (.worker w (.write ws))
        ((((s.tick 2).setRequest r c').closeConnection e.ptr r c' d.timeStats).setWorker w
          (.batch rest)) [.wrote (some (.connection r)) bytes]
  | reset {w r : Nat} {e : Event} {rest : List Event} {ws : List WriteResult} {bytes : List UInt8}
      {c c' d d' : RequestContext} (hw : w < cfg.workerCount) (hpc : s.workers w = .output e rest)
      (hout : e.events.epollout = true) (he : Expects s k w e r .output c)
      (hwrite : c.write ws s.clock = .ok (.writeFinish, bytes, c'))
      (hkeep : contextKeepAlive c' = true) (hend : c'.recordEnd .totalTime (s.clock 2) = .ok d)
      (hstart : (contextFinalizeReset d).recordStart .totalTime (s.clock 3) = .ok d') :
      Steps cfg s k (.worker w (.write ws))
        ((((s.tick 2).setRequest r c').resetConnection e.ptr r d' d.timeStats).setWorker w
          (.batch rest)) [.wrote (some (.connection r)) bytes]
  | accept {w fd : Nat} {inputHeap outputHeap : Nat → UInt8} {e : Event} {rest : List Event}
      {c : RequestContext} (hw : w < cfg.workerCount) (hpc : s.workers w = .accepting e rest)
      (hfile : s.files fd = none)
      (haccept : RequestContext.accept fd inputHeap outputHeap w s.clock = .ok c) :
      Steps cfg s k (.worker w (.accept fd inputHeap outputHeap)) (s.acceptConnection c) []
  | actorWalk {a : Nat} {act : ActorAct} {pc : ActorPc} (ha : a < cfg.actorCount)
      (hwalk : ActorWalk cfg s a (s.actors a) act pc) :
      Steps cfg s k (.actor a act) (s.setActor a pc) []
  | eventRead {a w numToRead event : Nat} {rest : List Nat} (ha : a < cfg.actorCount)
      (hpc : s.actors a = .ready (w :: rest))
      (hread : eventfdRead (s.queues a w).addEvent = some (numToRead, event)) :
      Steps cfg s k (.actor a .next)
        ((s.setQueue a w { s.queues a w with addEvent := event }).setActor a
          (.popping w numToRead rest)) []
  | popNull {a w owed : Nat} {rest : List Nat} (ha : a < cfg.actorCount)
      (hpc : s.actors a = .popping w (owed + 1) rest)
      (hpop : LockQueue.queuePop (s.queues a w) = (none, s.queues a w)) :
      Steps cfg s k (.actor a .next) (s.setActor a (.ready rest)) []
  | pop {a w owed r : Nat} {rest items : List Nat} {q : LockQueue.Queue Nat} {c : RequestContext}
      (ha : a < cfg.actorCount) (hpc : s.actors a = .popping w (owed + 1) rest)
      (hpop : LockQueue.queuePop (s.queues a w) = (some r, q)) (hitems : s.waiting a w = r :: items)
      (hq : LockQueue.Represents q items) (hmax : q.maxSize = 1024)
      (hk : k r = .live (.queued a) c) :
      Steps cfg s k (.actor a .next) ((s.setQueue a w q).setActor a (.popped w owed rest r)) []
  | process {a w owed r : Nat} {rest : List Nat} {c c' : RequestContext} (ha : a < cfg.actorCount)
      (hpc : s.actors a = .popped w owed rest r) (hk : k r = .live (.held a) c)
      (hprocess : c.process s.clock = .ok c') :
      Steps cfg s k (.actor a .next)
        (((s.tick 3).setRequest r c').setActor a (.handled w owed rest r))
        [.handled r c.content c.outputBuffer.writeFromOffset c.outputBuffer.writeIntoOffset
          c'.outputBuffer.content]
  | register {a w owed r : Nat} {rest : List Nat} {c : RequestContext} (ha : a < cfg.actorCount)
      (hpc : s.actors a = .handled w owed rest r) (hk : k r = .live (.handled a) c) :
      Steps cfg s k (.actor a .next) ((s.registerConnection r c).setActor a (.popping w owed rest)) []

/-- How a step can end the process. -/
inductive Ends (cfg : Config) (s : State) : Label → Halt → Prop
  | queue {w count r : Nat} {e : Event} {rest : List Event} (hw : w < cfg.workerCount)
      (hpc : s.workers w = .dispatching (.push count) r e rest)
      (hs : s.sockets e.ptr = some (readContext r w))
      (hfull : LockQueue.isFull (s.queues (count % cfg.actorCount) w) = true) :
      Ends cfg s (.worker w .next) .queueCheck
  | event {w count r : Nat} {e : Event} {rest : List Event} (hw : w < cfg.workerCount)
      (hpc : s.workers w = .dispatching (.push count) r e rest)
      (hevent : eventfdMax ≤ (s.queues (count % cfg.actorCount) w).addEvent) :
      Ends cfg s (.worker w .next) .eventCheck
  | listener {w : Nat} {e : Event} {rest : List Event} {context : SocketContext}
      (hw : w < cfg.workerCount) (hpc : s.workers w = .batch (e :: rest))
      (herror : e.events.error = true) (hs : s.sockets e.ptr = some context)
      (hhandler : context.errorHandler = some .handleAcceptError) :
      Ends cfg s (.worker w .next) .acceptCheck
  | accept {w : Nat} {e : Event} {rest : List Event} (hw : w < cfg.workerCount)
      (hpc : s.workers w = .accepting e rest) : Ends cfg s (.worker w .acceptFail) .acceptCheck
  | wait {a : Nat} (ha : a < cfg.actorCount) (hpc : s.actors a = .waiting) :
      Ends cfg s (.actor a .waitFail) .waitCheck
  | response {a w owed r : Nat} {rest : List Nat} {c : RequestContext} (ha : a < cfg.actorCount)
      (hpc : s.actors a = .popped w owed rest r) (hr : s.requests r = some c)
      (hlen : 10 ^ 9 ≤ c.pathLen) : Ends cfg s (.actor a .next) .responseCheck

section

variable {cfg : Config} {s t : State} {k : Nat → Connection} {l : Label} {r w p : Nat}
  {c c' : RequestContext} {st : Stage} {e : Event} {rest : List Event}

theorem Event.matches_iff {reg : Option Registration} :
    e.matches reg = true ↔ ∃ mask, reg = some ⟨mask, e.ptr⟩ ∧ e.events.within mask = true := by
  cases reg with
  | none => simp [Event.matches]
  | some reg =>
    obtain ⟨mask, p⟩ := reg
    simp only [Event.matches, Bool.and_eq_true, beq_iff_eq, Option.some.injEq,
      Registration.mk.injEq]
    constructor
    · rintro ⟨rfl, hwithin⟩
      exact ⟨mask, ⟨rfl, rfl⟩, hwithin⟩
    · rintro ⟨mask', ⟨rfl, rfl⟩, hwithin⟩
      exact ⟨rfl, hwithin⟩

theorem Events.within_inputMask {events : Events} (h : events.within .inputMask = true) :
    events.epollout = false := by
  cases hout : events.epollout with
  | false => rfl
  | true => simp [Events.within, Events.inputMask, hout] at h

theorem Events.within_outputMask {events : Events} (h : events.within .outputMask = true) :
    events.epollin = false := by
  cases hin : events.epollin with
  | false => rfl
  | true => simp [Events.within, Events.outputMask, hin] at h

/-- What an event of the batch stands for: the listening socket, or a connection
that waits in the epoll set. -/
inductive Source (cfg : Config) (s : State) (k : Nat → Connection) (w : Nat) (e : Event) : Prop
  | listener : w < cfg.workerCount → e.ptr = w → e.events.epollout = false →
      s.sockets e.ptr = some (listenContext (cfg.sockFd w) w) → Source cfg s k w e
  | input {r : Nat} {c : RequestContext} : k r = .live .input c → c.epollInfo = w → c.fd = e.fd →
      e.events.epollout = false → s.epoll w c.fd = some ⟨.inputMask, e.ptr⟩ →
      s.sockets e.ptr = some (readContext r w) → Source cfg s k w e
  | output {r : Nat} {c : RequestContext} : k r = .live .output c → c.epollInfo = w →
      c.fd = e.fd → e.events.epollin = false → s.epoll w c.fd = some ⟨.outputMask, e.ptr⟩ →
      s.sockets e.ptr = some (writeContext r w) → Source cfg s k w e

/-- The events that are still to come are of the listening socket or of connections
that wait, also while the worker has a request in its hands. -/
theorem Owned.source (h : Owned cfg s k) (hm : e ∈ (s.workers w).pending) :
    Source cfg s k w e := by
  obtain ⟨mask, hreg, hwithin⟩ := Event.matches_iff.mp (h.batched.pending w e hm)
  rcases h.wired.only w e.fd (by simp [hreg]) with ⟨hw, hfd⟩ | ⟨r, st, c, hk, rfl, hfd⟩
  · obtain ⟨-, hlisten, hs⟩ := h.wired.listening w hw
    rw [← hfd, hreg] at hlisten
    simp only [Option.some.injEq, Registration.mk.injEq] at hlisten
    obtain ⟨rfl, hp⟩ := hlisten
    exact .listener hw hp (Events.within_inputMask hwithin) (by rw [hp]; exact hs)
  · rw [← hfd] at hreg
    have hlink := h.wired.registered r st c hk
    cases st with
    | input =>
      obtain ⟨p, hreg', hs⟩ := hlink
      rw [hreg'] at hreg
      cases hreg
      exact .input hk rfl hfd (Events.within_inputMask hwithin) hreg' hs
    | output =>
      obtain ⟨p, hreg', hs⟩ := hlink
      rw [hreg'] at hreg
      cases hreg
      exact .output hk rfl hfd (Events.within_outputMask hwithin) hreg' hs
    | parsed =>
      have hhand := (h.handed.workers c.epollInfo .parsed r).mpr
        ⟨by rw [hk, Connection.place], rfl⟩
      obtain ⟨e', rest, hpc⟩ := WorkerPc.hand_parsed hhand
      obtain ⟨c', hk', -, hnot⟩ := (h.batched.dispatching _ _ _ _ _ hpc).2 rfl
      rw [hk] at hk'
      cases hk'
      exact absurd (List.mem_map.mpr ⟨e, hm, hfd.symm⟩) hnot
    | deleted | queued _ | held _ | handled _ =>
      rw [hlink] at hreg
      cases hreg

theorem State.reports_iff {events : List Event} (hrep : s.reports w events = true) :
    (events.map Event.fd).Nodup ∧ ∀ e ∈ events, e.matches (s.epoll w e.fd) = true := by
  simp only [State.reports, Bool.and_eq_true, decide_eq_true_eq, List.all_eq_true] at hrep
  exact ⟨hrep.1.2, hrep.2⟩

theorem process_eq_responseCheck {c : RequestContext} {clock : Nat → Timespec}
    (h : c.process clock = .halt .responseCheck) : 10 ^ 9 ≤ c.pathLen := by
  by_contra hlen
  simp only [RequestContext.process, bind_eq_halt] at h
  obtain h | ⟨c1, hc1, h | ⟨c2, hc2, h | ⟨c3, -, h⟩⟩⟩ := h
  · cases RequestContext.recordEnd_eq_halt h
  · cases RequestContext.recordStart_eq_halt h
  · have hsame : c2.pathLen = c.pathLen := by
      obtain ⟨_, rfl⟩ := RequestContext.recordEnd_eq_ok hc1
      obtain ⟨_, rfl⟩ := RequestContext.recordStart_eq_ok hc2
      rfl
    have hless : c2.pathLen < 10 ^ 9 := by omega
    obtain ⟨c', hc'⟩ := handleRequest_exists hless
    cases (check_eq_halt.mp h).1.symm.trans hc'
  · cases RequestContext.recordEnd_eq_halt h

/-- The connection of an event that is not of the listening socket. -/
theorem Source.cases (h : Source cfg s k w e) (howned : Owned cfg s k) (htimed : AllTimed k) :
    (w < cfg.workerCount ∧ e.ptr = w ∧ e.events.epollout = false ∧
      s.sockets e.ptr = some (listenContext (cfg.sockFd w) w)) ∨
    (∃ r c, Expects s k w e r .input c ∧ e.events.epollout = false) ∨
    ∃ r c, Expects s k w e r .output c ∧ e.events.epollin = false := by
  cases h with
  | listener hw hp hout hs => exact .inl ⟨hw, hp, hout, hs⟩
  | @input r c hk hw hfd hout hreg hs =>
    subst hw
    obtain ⟨hr, hfile⟩ := howned.wired.live hk
    exact .inr (.inl ⟨r, c, ⟨⟨hr, hfile, hs, hreg, htimed.live hk⟩, hk, rfl, rfl, hfd⟩, hout⟩)
  | @output r c hk hw hfd hin hreg hs =>
    subst hw
    obtain ⟨hr, hfile⟩ := howned.wired.live hk
    exact .inr (.inr ⟨r, c, ⟨⟨hr, hfile, hs, hreg, htimed.live hk⟩, hk, rfl, rfl, hfd⟩, hin⟩)

@[simp] theorem Stage.context_request : (st.context r w).request = .ok r := by
  cases st <;> rfl

@[simp] theorem Stage.context_epollInfo : (st.context r w).epollInfo = w := by
  cases st <;> rfl

@[simp] theorem Stage.context_errorHandler :
    (st.context r w).errorHandler = some .clientHandleError := by
  cases st <;> rfl

/-- The times of the request may change, and all that the worker does not look at. -/
theorem Waits.setRequest (h : Waits s p r st c) (hfd : c'.fd = c.fd)
    (hw : c'.epollInfo = c.epollInfo) (hbits : c'.bits = TimeType.totalTime.bit) (n : Nat) :
    Waits ((s.tick n).setRequest r c') p r st c' := by
  refine ⟨Function.update_self _ _ _, ?_, ?_, ?_, hbits⟩
  · rw [hfd]
    exact h.file
  · rw [hw]
    exact h.socket
  · rw [hw, hfd]
    exact h.epoll

theorem Waits.close (h : Waits s p r st c) :
    (clientCloseConnection s p).Ensures (fun _ => False) fun t =>
      ∃ d, c.recordEnd .totalTime (s.clock 0) = .ok d ∧ t = s.closeConnection p r c d.timeStats := by
  simp only [clientCloseConnection, State.socket_eq h.socket, ok_bind, Stage.context_request,
    State.request_eq h.request]
  refine Ensures.bind ?_ fun d hend => ?_
  · intro _ hend
    exact absurd hend (RequestContext.final_ne_halt h.bits)
  · obtain ⟨stats, rfl⟩ := RequestContext.recordEnd_eq_ok hend
    simp only [State.deleteEpollEvent, State.tick, Stage.context_epollInfo, h.epoll, ne_eq,
      reduceCtorEq, not_false_eq_true, if_true, ok_bind, State.closeFile, State.setEpoll, h.file]
    exact ⟨_, hend, rfl⟩

theorem Waits.reset (h : Waits s p r .output c) :
    (clientResetConnection s p).Ensures (fun _ => False) fun t =>
      ∃ d d', c.recordEnd .totalTime (s.clock 0) = .ok d ∧
        (contextFinalizeReset d).recordStart .totalTime (s.clock 1) = .ok d' ∧
        t = s.resetConnection p r d' d.timeStats := by
  simp only [clientResetConnection, State.socket_eq h.socket, ok_bind, Stage.context_request,
    State.request_eq h.request]
  refine Ensures.bind ?_ fun d hend => ?_
  · intro _ hend
    exact absurd hend (RequestContext.final_ne_halt h.bits)
  · refine Ensures.bind ?_ fun d' hstart => ?_
    · intro _ hstart
      have hclear : (contextFinalizeReset d).bits = 0 := rfl
      exact absurd hstart (RequestContext.recordStart_ne_halt (by rw [hclear]; rfl))
    · have hkeep : d'.fd = c.fd ∧ d'.epollInfo = c.epollInfo := by
        obtain ⟨stats, rfl⟩ := RequestContext.recordEnd_eq_ok hend
        obtain ⟨stats', rfl⟩ := RequestContext.recordStart_eq_ok hstart
        exact ⟨rfl, rfl⟩
      have hreg : s.epoll d'.epollInfo d'.fd ≠ none := by simp [hkeep, h.epoll]
      have hreg' : s.epoll c.epollInfo d'.fd ≠ none := hkeep.2 ▸ hreg
      simp only [State.modInputEpollEvent, State.setSocket, State.setRequest, State.tick,
        Stage.context_epollInfo]
      rw [if_pos hreg']
      refine ⟨d, d', hend, hstart, ?_⟩
      rw [State.resetConnection, hkeep.2]
      rfl

theorem clientHandleRead_cases {rs : List ReadResult} (hw : w < cfg.workerCount)
    (hpc : s.workers w = .batch (e :: rest)) (hin : (e.events.error || !e.events.epollin) = false)
    (he : Expects s k w e r .input c) (hout : e.events.epollout = false) :
    (clientHandleRead s w e rest rs).Ensures (fun _ => False) fun y =>
      Steps cfg s k (.worker w (.read rs)) y.1 y.2 := by
  simp only [clientHandleRead, State.socket_eq he.socket, ok_bind, Stage.context_request,
    State.request_eq he.request]
  refine Ensures.bind ?_ fun y hread => ?_
  · intro _ hread
    exact absurd hread (RequestContext.read_ne_halt he.bits)
  · obtain ⟨state, c'⟩ := y
    obtain ⟨hfd, hworker, -⟩ := RequestContext.read_keeps hread
    have hwaits := he.toWaits.setRequest hfd hworker (RequestContext.read_bits he.bits hread) 2
    cases state with
    | readFinish => exact .parse hw hpc hin he hout hread
    | readBusy => exact .read hw hpc hin he hout hread
    | readError =>
      refine hwaits.close.seq fun t ht => ?_
      obtain ⟨d, hend, rfl⟩ := ht
      exact .readClose hw hpc hin he hout hread (.inl rfl) hend
    | clientDisconnect =>
      refine hwaits.close.seq fun t ht => ?_
      obtain ⟨d, hend, rfl⟩ := ht
      exact .readClose hw hpc hin he hout hread (.inr rfl) hend

theorem clientHandleWrite_cases {ws : List WriteResult} (hw : w < cfg.workerCount)
    (hpc : s.workers w = .output e rest) (hout : e.events.epollout = true)
    (he : Expects s k w e r .output c) :
    (clientHandleWrite s w e rest ws).Ensures (fun _ => False) fun y =>
      Steps cfg s k (.worker w (.write ws)) y.1 y.2 := by
  simp only [clientHandleWrite, State.socket_eq he.socket, ok_bind, Stage.context_request,
    State.request_eq he.request]
  refine Ensures.bind ?_ fun y hwrite => ?_
  · intro _ hwrite
    exact absurd hwrite (RequestContext.write_ne_halt he.bits)
  · obtain ⟨state, bytes, c'⟩ := y
    have hkeep := RequestContext.write_keeps hwrite
    have hwaits := he.toWaits.setRequest hkeep.1 hkeep.2
      (RequestContext.write_bits he.bits hwrite) 2
    have hclose : (state = .writeError ∨ state = .writeFinish ∧ contextKeepAlive c' = false) →
        (clientCloseConnection ((s.tick 2).setRequest r c') e.ptr >>= fun t =>
          pure (t.setWorker w (.batch rest), [Obs.wrote (some (.connection r)) bytes])).Ensures
          (fun _ => False) fun y => Steps cfg s k (.worker w (.write ws)) y.1 y.2 := by
      intro hstate
      refine hwaits.close.seq fun t ht => ?_
      obtain ⟨d, hend, rfl⟩ := ht
      exact .writeClose hw hpc hout he hwrite hstate hend
    simp only [hwaits.file]
    cases state with
    | writeBusy => exact .write hw hpc hout he hwrite
    | writeError => exact hclose (.inl rfl)
    | writeFinish =>
      dsimp only
      split
      · rename_i hkeep
        refine hwaits.reset.seq fun t ht => ?_
        obtain ⟨d, d', hend, hstart, rfl⟩ := ht
        exact .reset hw hpc hout he hwrite hkeep hend hstart
      · rename_i hkeep
        rw [Bool.not_eq_true] at hkeep
        exact hclose (.inr ⟨rfl, hkeep⟩)

theorem handleAcceptRead_cases {fd : Nat} {inputHeap outputHeap : Nat → UInt8} (h : Owned cfg s k)
    (hw : w < cfg.workerCount) (hpc : s.workers w = .accepting e rest) :
    (handleAcceptRead s e fd inputHeap outputHeap).Ensures (fun _ => False) fun t =>
      Steps cfg s k (.worker w (.accept fd inputHeap outputHeap)) t [] := by
  obtain ⟨hp, -⟩ := h.batched.accepting w e rest hpc
  have hs : s.sockets e.ptr = some (listenContext (cfg.sockFd w) w) := by
    rw [hp]
    exact (h.wired.listening w hw).2.2
  simp only [handleAcceptRead, State.socket_eq hs, ok_bind, listenContext]
  split
  · rename_i hfile
    refine Ensures.bind ?_ fun c haccept => ?_
    · intro _ haccept
      exact absurd haccept RequestContext.accept_ne_halt
    · have hstep : Steps cfg s k (.worker w (.accept fd inputHeap outputHeap))
          (s.acceptConnection c) [] := .accept hw hpc hfile haccept
      obtain ⟨stats, rfl⟩ := RequestContext.accept_eq_ok haccept
      have hnone : s.epoll w fd = none := h.wired.unopened hfile w
      have hopen : Function.update s.files fd (some (File.connection s.next)) fd ≠ none := by simp
      simp only [State.addInputEpollEvent, State.addEpollEvent]
      rw [if_pos ⟨hopen, hnone⟩]
      exact hstep
  · trivial

theorem clientDispatch_cases {point : Dispatch} (h : Owned cfg s k) (htimed : AllTimed k)
    (hw : w < cfg.workerCount) (hpc : s.workers w = .dispatching point r e rest) :
    (clientDispatch cfg s w point r e rest).Ensures (Ends cfg s (.worker w .next)) fun y =>
      Steps cfg s k (.worker w .next) y.1 y.2 := by
  cases point with
  | delete =>
    obtain ⟨c, hk, -, hreg, hs, -⟩ := h.unregister hpc
    simp only [clientDispatch, State.socket_eq hs, ok_bind, State.request_eq (h.wired.live hk).1,
      State.deleteEpollEvent, readContext]
    rw [if_pos hreg]
    exact .delete hw hpc hk
  | load => exact .load hw hpc
  | store count => exact .store hw hpc
  | push count =>
    obtain ⟨c, hk, hworker, hs⟩ := h.in_hand hpc (by simp)
    simp only [clientDispatch, State.socket_eq hs, ok_bind, State.request_eq (h.wired.live hk).1,
      readContext]
    refine Ensures.bind ?_ fun c' hstart => ?_
    · intro _ hstart
      exact absurd hstart (RequestContext.queue_ne_halt (htimed.live hk))
    · refine Ensures.bind ?_ fun y hcheck => ?_
      · intro _ hcheck
        obtain ⟨hnone, rfl⟩ := check_eq_halt.mp hcheck
        exact .event hw hpc (LockQueue.queuePush_eq_none hnone)
      · obtain ⟨result, q⟩ := y
        have hpush := check_eq_ok.mp hcheck
        dsimp only
        split
        · rename_i hresult
          subst hresult
          have hworker' : c'.epollInfo = w := by
            obtain ⟨stats, rfl⟩ := RequestContext.recordStart_eq_ok hstart
            exact hworker
          have hstep := Steps.push hw hpc hk hworker' hs hstart hpush
          rwa [State.pushRequest, hworker'] at hstep
        · rename_i hresult
          exact .queue hw hpc hs (LockQueue.queuePush_failure hpush hresult)

theorem handleEvent_next_cases (h : Owned cfg s k) (htimed : AllTimed k) (hw : w < cfg.workerCount)
    (hpc : s.workers w = .batch (e :: rest)) :
    (handleEvent s w e rest .next).Ensures (Ends cfg s (.worker w .next)) fun y =>
      Steps cfg s k (.worker w .next) y.1 y.2 := by
  have hm : e ∈ (s.workers w).pending := by rw [hpc]; exact List.mem_cons_self
  have hwalk : ∀ {pc}, Walk cfg w (.batch (e :: rest)) .next pc →
      Steps cfg s k (.worker w .next) (s.setWorker w pc) [] :=
    fun hwalk => .walk hw (hpc ▸ hwalk)
  have hfail : ∀ {r st c}, e.events.error = true → Expects s k w e r st c →
      (clientCloseConnection s e.ptr >>= fun t => pure (t.setWorker w (.batch rest), [])).Ensures
        (Ends cfg s (.worker w .next)) fun y => Steps cfg s k (.worker w .next) y.1 y.2 := by
    intro r st c herror he
    refine (he.toWaits.close.mono fun _ => False.elim).seq fun t ht => ?_
    obtain ⟨d, hend, rfl⟩ := ht
    exact .fail hw hpc herror he hend
  simp only [handleEvent]
  rcases (h.source hm).cases h htimed with ⟨-, hp, -, hs⟩ | ⟨r, c, he, -⟩ | ⟨r, c, he, hin⟩
  · simp only [State.socket_eq hs, ok_bind, listenContext]
    split
    · rename_i herror
      exact .listener hw hpc herror hs rfl
    · rename_i herror
      rw [Bool.not_eq_true] at herror
      split
      · exact hwalk (.listen herror hp hw)
      · exact hwalk (.unread herror)
  · simp only [State.socket_eq he.socket, ok_bind, Stage.context_errorHandler]
    split
    · exact hfail ‹_› he
    · rename_i herror
      rw [Bool.not_eq_true] at herror
      split
      · trivial
      · exact hwalk (.unread herror)
  · simp only [State.socket_eq he.socket, ok_bind, Stage.context_errorHandler, hin]
    split
    · exact hfail ‹_› he
    · rename_i herror
      rw [Bool.not_eq_true] at herror
      exact hwalk (.unread herror)

theorem handleEvent_cases {act : WorkerAct} (h : Owned cfg s k) (htimed : AllTimed k)
    (hw : w < cfg.workerCount) (hpc : s.workers w = .batch (e :: rest)) :
    (handleEvent s w e rest act).Ensures (Ends cfg s (.worker w act)) fun y =>
      Steps cfg s k (.worker w act) y.1 y.2 := by
  have hm : e ∈ (s.workers w).pending := by rw [hpc]; exact List.mem_cons_self
  cases act with
  | next => exact handleEvent_next_cases h htimed hw hpc
  | read rs =>
    simp only [handleEvent]
    split
    · trivial
    · rename_i hin
      rw [Bool.not_eq_true] at hin
      rcases (h.source hm).cases h htimed with ⟨-, -, -, hs⟩ | ⟨r, c, he, hout⟩ | ⟨r, c, he, -⟩
      · simp only [State.socket_eq hs, ok_bind, listenContext]
        trivial
      · simp only [State.socket_eq he.socket, ok_bind]
        exact (clientHandleRead_cases hw hpc hin he hout).mono fun _ => False.elim
      · simp only [State.socket_eq he.socket, ok_bind]
        trivial
  | wait | accept | acceptBlock | acceptFail | write => trivial

theorem handleOutput_cases {act : WorkerAct} (h : Owned cfg s k) (htimed : AllTimed k)
    (hw : w < cfg.workerCount) (hpc : s.workers w = .output e rest) :
    (handleOutput s w e rest act).Ensures (Ends cfg s (.worker w act)) fun y =>
      Steps cfg s k (.worker w act) y.1 y.2 := by
  have hexpects : e.events.epollout = true → ∃ r c, Expects s k w e r .output c := by
    intro hout
    have hm : e ∈ (s.workers w).pending := by simp [hpc, WorkerPc.pending, hout]
    rcases (h.source hm).cases h htimed with ⟨-, -, hout', -⟩ | ⟨r, c, -, hout'⟩ | ⟨r, c, he, -⟩
    · rw [hout] at hout'
      cases hout'
    · rw [hout] at hout'
      cases hout'
    · exact ⟨r, c, he⟩
  cases act with
  | next =>
    simp only [handleOutput]
    split
    · obtain ⟨r, c, he⟩ := hexpects ‹_›
      simp only [State.socket_eq he.socket, ok_bind]
      trivial
    · rename_i hout
      rw [Bool.not_eq_true] at hout
      exact .walk hw (hpc ▸ .unwritten hout)
  | write ws =>
    simp only [handleOutput]
    split
    · rename_i hout
      obtain ⟨r, c, he⟩ := hexpects hout
      simp only [State.socket_eq he.socket, ok_bind]
      exact (clientHandleWrite_cases hw hpc hout he).mono fun _ => False.elim
    · trivial
  | wait | accept | acceptBlock | acceptFail | read => trivial

theorem ioEventLoop_cases {act : WorkerAct} (h : Owned cfg s k) (htimed : AllTimed k)
    (hw : w < cfg.workerCount) :
    (ioEventLoop cfg s w act).Ensures (Ends cfg s (.worker w act)) fun y =>
      Steps cfg s k (.worker w act) y.1 y.2 := by
  unfold ioEventLoop
  split
  · split
    · exact .wait hw ‹_› ‹_›
    · trivial
  · rename_i hpc
    exact .walk hw (hpc ▸ .finish)
  · exact handleEvent_cases h htimed hw ‹_›
  · exact handleOutput_cases h htimed hw ‹_›
  · exact ((handleAcceptRead_cases h hw ‹_›).mono fun _ => False.elim).seq fun t ht => ht
  · rename_i hpc
    exact .walk hw (hpc ▸ .accepted)
  · exact .accept hw ‹_›
  · exact clientDispatch_cases h htimed hw ‹_›
  · trivial

theorem registerOutput_cases {a owed : Nat} {queues : List Nat} (h : Owned cfg s k)
    (ha : a < cfg.actorCount) (hpc : s.actors a = .handled w owed queues r) :
    (registerOutput s r).Ensures (fun _ => False) fun t =>
      Steps cfg s k (.actor a .next) (t.setActor a (.popping w owed queues)) [] := by
  have hhand : (s.actors a).hand a = some (.handled a, r) := by rw [hpc]; rfl
  obtain ⟨c, hk⟩ := h.acting hhand
  obtain ⟨hr, hfile⟩ := h.wired.live hk
  have hnone : s.epoll c.epollInfo c.fd = none := h.wired.registered r _ c hk
  have hopen : s.files c.fd ≠ none := by simp [hfile]
  simp only [registerOutput, State.request_eq hr, ok_bind, State.addOutputEpollEvent,
    State.addEpollEvent]
  rw [if_pos ⟨hopen, hnone⟩]
  exact .register ha hpc hk

theorem State.setQueue_self {a : Nat} : s.setQueue a w (s.queues a w) = s := by
  simp [State.setQueue]

theorem runActor_cases {a : Nat} {act : ActorAct} (h : Owned cfg s k) (htimed : AllTimed k)
    (ha : a < cfg.actorCount) :
    (runActor cfg s a act).Ensures (Ends cfg s (.actor a act)) fun y =>
      Steps cfg s k (.actor a act) y.1 y.2 := by
  unfold runActor
  split
  · rename_i hpc
    split
    · rename_i hready
      exact .actorWalk ha (hpc ▸ .wait hready.1 hready.2.2)
    · trivial
  · exact .wait ha ‹_›
  · rename_i hpc
    exact .actorWalk ha (hpc ▸ .finish)
  · rename_i hpc
    split
    · exact .actorWalk ha (hpc ▸ .unread ‹_›)
    · exact .eventRead ha hpc ‹_›
  · rename_i hpc
    exact .actorWalk ha (hpc ▸ .again)
  · rename_i w owed rest hpc
    have hhand : (s.actors a).hand a = none := by rw [hpc]; rfl
    have hrep := h.queued.represents a w
    cases hitems : s.waiting a w with
    | nil =>
      rw [hitems] at hrep
      have hpop := LockQueue.queuePop_nil hrep
      rw [hpop]
      dsimp only
      rw [State.setQueue_self]
      exact .popNull ha hpc hpop
    | cons r items =>
      rw [hitems] at hrep
      obtain ⟨hptr, hrep', hmax, -⟩ := LockQueue.queuePop_cons hrep
      have hmax' := hmax.trans (h.queued.maxSize a w)
      obtain ⟨c, hk, -, -⟩ := @Owned.dequeue _ _ _ _ _ _ owed rest _ _ h hitems hrep' hmax' hhand
      dsimp only
      rw [hptr]
      exact .pop ha hpc (Prod.ext hptr rfl) hitems hrep' hmax' hk
  · rename_i w owed rest r hpc
    have hhand : (s.actors a).hand a = some (.held a, r) := by rw [hpc]; rfl
    obtain ⟨c, hk⟩ := h.acting hhand
    obtain ⟨hr, -⟩ := h.wired.live hk
    simp only [State.request_eq hr, ok_bind]
    refine Ensures.bind ?_ fun c' hprocess => ?_
    · intro _ hprocess
      obtain rfl := RequestContext.process_halt (htimed.live hk) hprocess
      exact .response ha hpc hr (process_eq_responseCheck hprocess)
    · exact .process ha hpc hk hprocess
  · exact ((registerOutput_cases h ha ‹_›).mono fun _ => False.elim).seq fun t ht => ht
  · trivial

/-- What a step does when the process does not end with it, and why it ends. -/
theorem threadStep_cases (h : Owned cfg s k) (htimed : AllTimed k) :
    (threadStep cfg s l).Ensures (Ends cfg s l) fun y => Steps cfg s k l y.1 y.2 := by
  cases l with
  | worker w act =>
    simp only [threadStep]
    split
    · exact ioEventLoop_cases h htimed ‹_›
    · trivial
  | actor a act =>
    simp only [threadStep]
    split
    · exact runActor_cases h htimed ‹_›
    · trivial

/-- A step of the server goes on, or ends the process. -/
theorem server_step_cases {obs : List Obs} (h : Owned cfg s k) (htimed : AllTimed k)
    (hstep : (server cfg).step s l = some (t, obs)) :
    s.halted = none ∧ (Steps cfg s k l t obs ∨
      ∃ e, Ends cfg s l e ∧ t = { s with halted := some e } ∧ obs = []) := by
  have hcases : (threadStep cfg s l).Ensures (Ends cfg s l) fun y => Steps cfg s k l y.1 y.2 :=
    threadStep_cases h htimed
  simp only [server] at hstep
  split at hstep
  · rename_i hrunning
    refine ⟨hrunning, ?_⟩
    split at hstep
    · cases hstep
    · rename_i e he
      cases hstep
      rw [he] at hcases
      exact .inr ⟨e, hcases, rfl, rfl⟩
    · rename_i hok
      cases hstep
      rw [hok] at hcases
      exact .inl hcases
  · cases hstep

theorem Steps.halted {obs : List Obs} (h : Steps cfg s k l t obs) : t.halted = s.halted := by
  cases h <;> rfl

end

end Jullop
