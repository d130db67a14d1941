import Jullop.LockQueue
import Jullop.RequestSteps

/-! The running server: the I/O workers of `io_worker.c` and `client.c`, the
actors of `actor.c`, the queues between them and the epoll sets of
`epoll_info.c`. A step is what one thread does up to its next visible action.
Memory is addressed by numbers that are never given out twice. -/

namespace Jullop

structure Events where
  epollin : Bool
  epollout : Bool
  epollerr : Bool
  epollrdhup : Bool
  epollhup : Bool
  epollpri : Bool
  deriving DecidableEq, Repr

namespace Events

def inputMask : Events := ⟨true, false, true, true, true, true⟩

def outputMask : Events := ⟨false, true, true, true, true, true⟩

def error (e : Events) : Bool := e.epollerr || e.epollrdhup || e.epollhup || e.epollpri

/-- The bits that `epoll_wait` may report for a mask; it always reports errors
and hang-ups. -/
def within (e mask : Events) : Bool :=
  (!e.epollin || mask.epollin) && (!e.epollout || mask.epollout) &&
    (!e.epollrdhup || mask.epollrdhup) && (!e.epollpri || mask.epollpri)

end Events

structure Registration where
  events : Events
  ptr : Nat
  deriving DecidableEq, Repr

/-- An entry that `epoll_wait` fills in; the program sees only the bits and the
pointer. -/
structure Event where
  fd : Nat
  events : Events
  ptr : Nat
  deriving DecidableEq, Repr

inductive InputHandler
  | handleAcceptRead
  | clientHandleRead
  deriving DecidableEq, Repr

inductive OutputHandler
  | clientHandleWrite
  deriving DecidableEq, Repr

inductive ErrorHandler
  | handleAcceptError
  | clientHandleError
  deriving DecidableEq, Repr

inductive SocketData
  | fd (fd : Nat)
  | ptr (request : Nat)
  deriving DecidableEq, Repr

structure SocketContext where
  inputHandler : Option InputHandler
  outputHandler : Option OutputHandler
  errorHandler : Option ErrorHandler
  data : SocketData
  epollInfo : Nat
  deriving DecidableEq, Repr

/-- What an open file descriptor stands for; a connection is named by the context
that was made for it. -/
inductive File
  | listener
  | connection (request : Nat)
  deriving DecidableEq, Repr

/-- The point that `client_handle_read` has come to after a whole request. -/
inductive Dispatch
  | delete
  | load
  | store (count : Nat)
  | push (count : Nat)
  deriving DecidableEq, Repr

/-- Where an I/O worker is, with the events of its batch that are still to come:
before the next one, behind the input test of one, or in a handler for one. -/
inductive WorkerPc
  | waiting
  | batch (events : List Event)
  | output (e : Event) (rest : List Event)
  | accepting (e : Event) (rest : List Event)
  | dispatching (point : Dispatch) (request : Nat) (e : Event) (rest : List Event)

/-- Where an actor is, with the queues that are still to come. -/
inductive ActorPc
  | waiting
  | ready (queues : List Nat)
  | popping (queue owed : Nat) (rest : List Nat)
  | popped (queue owed : Nat) (rest : List Nat) (request : Nat)
  | handled (queue owed : Nat) (rest : List Nat) (request : Nat)

structure Config where
  workerCount : Nat
  actorCount : Nat
  sockFd : Nat → Nat
  actor_pos : 0 < actorCount
  sockFd_inj : Function.Injective sockFd

structure State where
  halted : Option Halt
  count : Nat
  next : Nat
  clock : Nat → Timespec
  stats : ServerWideStats
  requests : Nat → Option RequestContext
  sockets : Nat → Option SocketContext
  files : Nat → Option File
  epoll : Nat → Nat → Option Registration
  queues : Nat → Nat → LockQueue.Queue Nat
  workers : Nat → WorkerPc
  actors : Nat → ActorPc

inductive Obs
  | parsed (request : Nat) (content : RequestContent)
  | handled (request : Nat) (content : RequestContent) (fromOffset intoOffset : Nat)
      (response : List UInt8)
  | wrote (file : Option File) (bytes : List UInt8)

/-- The contexts of the listening socket, of a connection that is read from and
of one that is written to. -/
def listenContext (fd epollInfo : Nat) : SocketContext where
  inputHandler := some .handleAcceptRead
  outputHandler := none
  errorHandler := some .handleAcceptError
  data := .fd fd
  epollInfo := epollInfo

def readContext (request epollInfo : Nat) : SocketContext where
  inputHandler := some .clientHandleRead
  outputHandler := none
  errorHandler := some .clientHandleError
  data := .ptr request
  epollInfo := epollInfo

def writeContext (request epollInfo : Nat) : SocketContext where
  inputHandler := none
  outputHandler := some .clientHandleWrite
  errorHandler := some .clientHandleError
  data := .ptr request
  epollInfo := epollInfo

namespace State

def request (s : State) (r : Nat) : Outcome Halt RequestContext :=
  .check .invalidAccess (s.requests r)

def socket (s : State) (p : Nat) : Outcome Halt SocketContext :=
  .check .invalidAccess (s.sockets p)

theorem request_eq {s : State} {r : Nat} {c : RequestContext} (h : s.requests r = some c) :
    s.request r = .ok c := by
  rw [request, h, Outcome.check_some]

theorem socket_eq {s : State} {p : Nat} {context : SocketContext}
    (h : s.sockets p = some context) : s.socket p = .ok context := by
  rw [socket, h, Outcome.check_some]

def setRequest (s : State) (r : Nat) (c : RequestContext) : State :=
  { s with requests := Function.update s.requests r (some c) }

def setSocket (s : State) (p : Nat) (context : SocketContext) : State :=
  { s with sockets := Function.update s.sockets p (some context) }

def tick (s : State) (n : Nat) : State := { s with clock := fun i => s.clock (i + n) }

def setWorker (s : State) (w : Nat) (pc : WorkerPc) : State :=
  { s with workers := Function.update s.workers w pc }

def setActor (s : State) (a : Nat) (pc : ActorPc) : State :=
  { s with actors := Function.update s.actors a pc }

def setQueue (s : State) (a w : Nat) (q : LockQueue.Queue Nat) : State :=
  { s with queues := Function.update s.queues a (Function.update (s.queues a) w q) }

def setEpoll (s : State) (w fd : Nat) (reg : Option Registration) : State :=
  { s with epoll := Function.update s.epoll w (Function.update (s.epoll w) fd reg) }

/-- `epoll_ctl` fails only for what it is asked: the descriptor is closed, or already in
the set, or not in it. -/
def addEpollEvent (s : State) (events : Events) (w fd ptr : Nat) : Outcome Halt State :=
  if s.files fd ≠ none ∧ s.epoll w fd = none then .ok (s.setEpoll w fd (some ⟨events, ptr⟩))
  else .halt .epollCheck

def addInputEpollEvent (s : State) (w fd ptr : Nat) : Outcome Halt State :=
  s.addEpollEvent .inputMask w fd ptr

def addOutputEpollEvent (s : State) (w fd ptr : Nat) : Outcome Halt State :=
  s.addEpollEvent .outputMask w fd ptr

def modInputEpollEvent (s : State) (w fd ptr : Nat) : Outcome Halt State :=
  if s.epoll w fd ≠ none then .ok (s.setEpoll w fd (some ⟨.inputMask, ptr⟩))
  else .halt .epollCheck

def deleteEpollEvent (s : State) (w fd : Nat) : Outcome Halt State :=
  if s.epoll w fd ≠ none then .ok (s.setEpoll w fd none) else .halt .epollCheck

def closeFile (s : State) (fd : Nat) : Outcome Halt State :=
  if s.files fd ≠ none then .ok { s with files := Function.update s.files fd none }
  else .halt .invalidAccess

end State

def SocketContext.request (context : SocketContext) : Outcome Halt Nat :=
  match context.data with
  | .ptr r => .ok r
  | .fd _ => .halt .invalidAccess

def clientCloseConnection (s : State) (p : Nat) : Outcome Halt State := do
  let context ← s.socket p
  let r ← context.request
  let c ← s.request r
  let c ← c.recordEnd .totalTime (s.clock 0)
  let stats := serverStatsRecordRequest
    (serverStatsIncrTotalRequests (serverStatsDecrActiveRequests s.stats)) c.timeStats
  let s ← { s.tick 1 with stats := stats }.deleteEpollEvent context.epollInfo c.fd
  let s ← s.closeFile c.fd
  return { s with
    requests := Function.update s.requests r none
    sockets := Function.update s.sockets p none }

def clientResetConnection (s : State) (p : Nat) : Outcome Halt State := do
  let context ← s.socket p
  let r ← context.request
  let c ← s.request r
  let c ← c.recordEnd .totalTime (s.clock 0)
  let stats := serverStatsRecordRequest (serverStatsIncrTotalRequests s.stats) c.timeStats
  let c ← (contextFinalizeReset c).recordStart .totalTime (s.clock 1)
  let s := ({ s.tick 2 with stats := stats }.setRequest r c).setSocket p
    { context with
      inputHandler := some .clientHandleRead
      outputHandler := none
      errorHandler := some .clientHandleError }
  s.modInputEpollEvent context.epollInfo c.fd p

/-- `client_handle_read` up to the removal of the connection from the epoll set. -/
def clientHandleRead (s : State) (w : Nat) (e : Event) (rest : List Event)
    (rs : List ReadResult) : Outcome Halt (State × List Obs) := do
  let context ← s.socket e.ptr
  let r ← context.request
  let c ← s.request r
  let (state, c) ← c.read rs s.clock
  let s := (s.tick 2).setRequest r c
  match state with
  | .readFinish =>
    return (s.setWorker w (.dispatching .delete r e rest), [.parsed r c.content])
  | .readError | .clientDisconnect =>
    let s ← clientCloseConnection s e.ptr
    return (s.setWorker w (.output e rest), [])
  | .readBusy => return (s.setWorker w (.output e rest), [])

/-- The rest of `client_handle_read`. The counter is shared between the workers
without a lock, so it is read and written in two steps. -/
def clientDispatch (cfg : Config) (s : State) (w : Nat) (point : Dispatch) (r : Nat) (e : Event)
    (rest : List Event) : Outcome Halt (State × List Obs) := do
  match point with
  | .delete =>
    let context ← s.socket e.ptr
    let c ← s.request r
    let s ← s.deleteEpollEvent context.epollInfo c.fd
    return (s.setWorker w (.dispatching .load r e rest), [])
  | .load => return (s.setWorker w (.dispatching (.store s.count) r e rest), [])
  | .store count =>
    let s := { s with count := (count + 1) % 2 ^ 64 }
    return (s.setWorker w (.dispatching (.push count) r e rest), [])
  | .push count =>
    let actorId := count % cfg.actorCount
    let context ← s.socket e.ptr
    let c ← s.request r
    let c ← c.recordStart .queueTime (s.clock 0)
    let s := (s.tick 1).setRequest r c
    let (result, q) ← .check .eventCheck
      (LockQueue.queuePush (s.queues actorId context.epollInfo) r)
    if result = .queueSuccess then
      let s := s.setQueue actorId context.epollInfo q
      let s := { s with sockets := Function.update s.sockets e.ptr none }
      return (s.setWorker w (.output e rest), [])
    else .halt .queueCheck

/-- A `write` to a client that is gone returns an error: `SIGPIPE` is taken as ignored. -/
def clientHandleWrite (s : State) (w : Nat) (e : Event) (rest : List Event)
    (ws : List WriteResult) : Outcome Halt (State × List Obs) := do
  let context ← s.socket e.ptr
  let r ← context.request
  let c ← s.request r
  let (state, bytes, c) ← c.write ws s.clock
  let s := (s.tick 2).setRequest r c
  let obs := [Obs.wrote (s.files c.fd) bytes]
  match state with
  | .writeBusy => return (s.setWorker w (.batch rest), obs)
  | .writeError =>
    let s ← clientCloseConnection s e.ptr
    return (s.setWorker w (.batch rest), obs)
  | .writeFinish =>
    if contextKeepAlive c then
      let s ← clientResetConnection s e.ptr
      return (s.setWorker w (.batch rest), obs)
    else
      let s ← clientCloseConnection s e.ptr
      return (s.setWorker w (.batch rest), obs)

/-- One turn of the loop of `handle_accept_read` in which none of its calls fails. The
kernel gives a descriptor that is not in use. -/
def handleAcceptRead (s : State) (e : Event) (fd : Nat) (inputHeap outputHeap : Nat → UInt8) :
    Outcome Halt State := do
  let context ← s.socket e.ptr
  if s.files fd = none then
    let r := s.next
    let c ← RequestContext.accept fd inputHeap outputHeap context.epollInfo s.clock
    let s := { s.tick 1 with
      next := r + 2
      stats := serverStatsIncrActiveRequests s.stats
      files := Function.update s.files fd (some (.connection r)) }
    let s := (s.setRequest r c).setSocket (r + 1) (readContext r context.epollInfo)
    s.addInputEpollEvent context.epollInfo c.fd (r + 1)
  else .disabled

/-- `acceptFail` is the failure of any call that `handle_accept_read` checks. -/
inductive WorkerAct
  | wait (events : List Event)
  | next
  | accept (fd : Nat) (inputHeap outputHeap : Nat → UInt8)
  | acceptBlock
  | acceptFail
  | read (rs : List ReadResult)
  | write (ws : List WriteResult)

def Event.matches (e : Event) : Option Registration → Bool
  | none => false
  | some reg => reg.ptr == e.ptr && e.events.within reg.events

/-- What `epoll_wait` can return: registered descriptors, each at most once. An
interrupted call counts as an empty batch. -/
def State.reports (s : State) (w : Nat) (events : List Event) : Bool :=
  events.length ≤ 4096 && decide (events.map Event.fd).Nodup &&
    events.all fun e => e.matches (s.epoll w e.fd)

/-- The body of the loop of `io_event_loop` up to its input test. -/
def handleEvent (s : State) (w : Nat) (e : Event) (rest : List Event) :
    WorkerAct → Outcome Halt (State × List Obs)
  | .next => do
    if e.events.error then
      let context ← s.socket e.ptr
      match context.errorHandler with
      | none => return (s.setWorker w (.batch rest), [])
      | some .handleAcceptError => .halt .acceptCheck
      | some .clientHandleError =>
        let s ← clientCloseConnection s e.ptr
        return (s.setWorker w (.batch rest), [])
    else if e.events.epollin then
      let context ← s.socket e.ptr
      match context.inputHandler with
      | none => return (s.setWorker w (.output e rest), [])
      | some .handleAcceptRead => return (s.setWorker w (.accepting e rest), [])
      | some .clientHandleRead => .disabled
    else return (s.setWorker w (.output e rest), [])
  | .read rs => do
    if e.events.error || !e.events.epollin then .disabled
    else
      let context ← s.socket e.ptr
      if context.inputHandler = some .clientHandleRead then clientHandleRead s w e rest rs
      else .disabled
  | _ => .disabled

def handleOutput (s : State) (w : Nat) (e : Event) (rest : List Event) :
    WorkerAct → Outcome Halt (State × List Obs)
  | .next => do
    if e.events.epollout then
      let context ← s.socket e.ptr
      match context.outputHandler with
      | none => return (s.setWorker w (.batch rest), [])
      | some .clientHandleWrite => .disabled
    else return (s.setWorker w (.batch rest), [])
  | .write ws => do
    if e.events.epollout then
      let context ← s.socket e.ptr
      match context.outputHandler with
      | none => .disabled
      | some .clientHandleWrite => clientHandleWrite s w e rest ws
    else .disabled
  | _ => .disabled

def ioEventLoop (cfg : Config) (s : State) (w : Nat) (act : WorkerAct) :
    Outcome Halt (State × List Obs) :=
  match s.workers w, act with
  | .waiting, .wait events =>
    if s.reports w events then .ok (s.setWorker w (.batch events), []) else .disabled
  | .batch [], .next => .ok (s.setWorker w .waiting, [])
  | .batch (e :: rest), act => handleEvent s w e rest act
  | .output e rest, act => handleOutput s w e rest act
  | .accepting e _, .accept fd inputHeap outputHeap => do
    let s ← handleAcceptRead s e fd inputHeap outputHeap
    return (s, [])
  | .accepting e rest, .acceptBlock => .ok (s.setWorker w (.output e rest), [])
  | .accepting _ _, .acceptFail => .halt .acceptCheck
  | .dispatching point r e rest, .next => clientDispatch cfg s w point r e rest
  | _, _ => .disabled

inductive ActorAct
  | wait (queues : List Nat)
  | waitFail
  | next

def registerOutput (s : State) (r : Nat) : Outcome Halt State := do
  let c ← s.request r
  let p := s.next
  let s := { s with next := p + 1 }.setSocket p (writeContext r c.epollInfo)
  s.addOutputEpollEvent c.epollInfo c.fd p

/-- When `epoll_wait` fails, as it does when a signal comes in between, the actor ends the
process. -/
def runActor (cfg : Config) (s : State) (a : Nat) (act : ActorAct) :
    Outcome Halt (State × List Obs) := do
  match s.actors a, act with
  | .waiting, .wait queues =>
    if queues.length ≤ 10 ∧ queues.Nodup ∧
        ∀ w ∈ queues, w < cfg.workerCount ∧ 0 < (s.queues a w).addEvent then
      return (s.setActor a (.ready queues), [])
    else .disabled
  | .waiting, .waitFail => .halt .waitCheck
  | .ready [], .next => return (s.setActor a .waiting, [])
  | .ready (w :: rest), .next =>
    match eventfdRead (s.queues a w).addEvent with
    | none => return (s.setActor a (.ready rest), [])
    | some (numToRead, event) =>
      let s := s.setQueue a w { s.queues a w with addEvent := event }
      return (s.setActor a (.popping w numToRead rest), [])
  | .popping w 0 rest, .next => return (s.setActor a (.ready (w :: rest)), [])
  | .popping w (owed + 1) rest, .next =>
    let (ptr, q) := LockQueue.queuePop (s.queues a w)
    let s := s.setQueue a w q
    match ptr with
    | none => return (s.setActor a (.ready rest), [])
    | some r => return (s.setActor a (.popped w owed rest r), [])
  | .popped w owed rest r, .next =>
    let c ← s.request r
    let c' ← c.process s.clock
    let s := (s.tick 3).setRequest r c'
    return (s.setActor a (.handled w owed rest r),
      [.handled r c.content c.outputBuffer.writeFromOffset c.outputBuffer.writeIntoOffset
        c'.outputBuffer.content])
  | .handled w owed rest r, .next =>
    let s ← registerOutput s r
    return (s.setActor a (.popping w owed rest), [])
  | _, _ => .disabled

inductive Label
  | worker (w : Nat) (act : WorkerAct)
  | actor (a : Nat) (act : ActorAct)

def threadStep (cfg : Config) (s : State) : Label → Outcome Halt (State × List Obs)
  | .worker w act => if w < cfg.workerCount then ioEventLoop cfg s w act else .disabled
  | .actor a act => if a < cfg.actorCount then runActor cfg s a act else .disabled

/-- The server when its threads have started: each worker listens on its own
socket. -/
def initState (cfg : Config) (clock : Nat → Timespec) : State where
  halted := none
  count := 0
  next := cfg.workerCount
  clock := clock
  stats := serverStatsInit
  requests := fun _ => none
  sockets := fun p => if p < cfg.workerCount then some (listenContext (cfg.sockFd p) p) else none
  files := fun fd => if ∃ w < cfg.workerCount, cfg.sockFd w = fd then some .listener else none
  epoll := fun w fd =>
    if w < cfg.workerCount ∧ cfg.sockFd w = fd then some ⟨.inputMask, w⟩ else none
  queues := fun _ _ => LockQueue.queueInit 1024
  workers := fun _ => .waiting
  actors := fun _ => .waiting

def server (cfg : Config) : Machine State Label Obs where
  init s := ∃ clock, s = initState cfg clock
  step s l :=
    if s.halted = none then
      match threadStep cfg s l with
      | .disabled => none
      | .halt h => some ({ s with halted := some h }, [])
      | .ok (t, obs) => some (t, obs)
    else none

theorem server_run_exec {cfg : Config} {clock : Nat → Timespec} {ls : List Label} {s : State}
    {obs : List Obs} (h : (server cfg).exec (initState cfg clock) ls = some (s, obs)) :
    (server cfg).Run s obs :=
  .of_exec ⟨clock, rfl⟩ h

def smallConfig : Config where
  workerCount := 1
  actorCount := 1
  sockFd := fun w => w + 3
  actor_pos := Nat.one_pos
  sockFd_inj := fun _ _ h => Nat.add_right_cancel h

def twoActorsConfig : Config := { smallConfig with
  actorCount := 2
  actor_pos := Nat.succ_pos 1 }

def readable (fd p : Nat) : Event := ⟨fd, ⟨true, false, false, false, false, false⟩, p⟩

def writable (fd p : Nat) : Event := ⟨fd, ⟨false, true, false, false, false, false⟩, p⟩

/-- The only worker accepts one connection, reads a request from it and leaves it
to the actor; the actor answers, and the worker begins to write. -/
def acceptLabels (fd : Nat) : List Label :=
  [.worker 0 (.wait [readable 3 0]), .worker 0 .next, .worker 0 (.accept fd (fun _ => 0) fun _ => 0),
    .worker 0 .acceptBlock, .worker 0 .next, .worker 0 .next]

def readLabels (fd p : Nat) (b : List UInt8) : List Label :=
  [.worker 0 (.wait [readable fd p]), .worker 0 (.read [.data b, .wouldBlock]), .worker 0 .next,
    .worker 0 .next, .worker 0 .next, .worker 0 .next]

def respondLabels : List Label :=
  [.actor 0 (.wait [0]), .actor 0 .next, .actor 0 .next, .actor 0 .next, .actor 0 .next]

def writeLabels (fd p : Nat) (ws : List WriteResult) : List Label :=
  [.worker 0 .next, .worker 0 .next, .worker 0 (.wait [writable fd p]), .worker 0 .next,
    .worker 0 (.write ws)]

/-- A request that comes on the socket context `p` is answered on the socket context `p'`. -/
def servedLabels (p p' : Nat) (b : List UInt8) : List Label :=
  readLabels 4 p b ++ respondLabels ++ writeLabels 4 p' [.accepted 63]

/-- The worker and the actor are ready for the next request. -/
def againLabels : List Label :=
  [.worker 0 .next, .actor 0 .next, .actor 0 .next, .actor 0 .next]

end Jullop
