import Jullop.Refinement

/-! When the queue of an actor is full. The process ends then, and it takes more
than 1024 open connections of one worker to come to that. -/

namespace Jullop

open Outcome

/-- A worker is about to leave a request to an actor whose queue for it is full. -/
def Overloaded (cfg : Config) (s : State) : Prop :=
  ∃ w < cfg.workerCount, ∃ count r e rest context,
    s.workers w = .dispatching (.push count) r e rest ∧ s.sockets e.ptr = some context ∧
    LockQueue.isFull (s.queues (count % cfg.actorCount) context.epollInfo) = true

section

variable {cfg : Config} {s : State} {l : Label}

theorem Ends.overloaded (h : Ends cfg s l .queueCheck) : Overloaded cfg s := by
  cases h with
  | @queue w count r e rest hw hpc hs hfull => exact ⟨w, hw, count, r, e, rest, _, hpc, hs, hfull⟩

theorem server_overloaded {tr : List Obs} (h : (server cfg).Run s tr) :
    s.halted = some .queueCheck → Overloaded cfg s := by
  intro heq
  cases h with
  | start hi =>
    obtain ⟨clock, rfl⟩ := hi
    cases heq
  | next l hrun hstep =>
    obtain ⟨k, -, howned, htimed⟩ := server_simulates_timed hrun
    obtain ⟨hrunning, hsteps | ⟨e, hends, rfl, -⟩⟩ := server_step_cases howned htimed hstep
    · rw [hsteps.halted, hrunning] at heq
      cases heq
    · cases heq
      have hover := hends.overloaded
      exact hover

end

def plainGet : List ReadResult := [.data (ascii "GET / HTTP/1.1\r\n\r\n"), .wouldBlock]

section

variable {c d : RequestContext} {type : TimeType} {clock : Nat → Timespec}

theorem recordStart_ok (h : c.timeStats.isTimeSet &&& type.bit = 0) (now : Timespec) :
    ∃ stats, c.recordStart type now = .ok { c with timeStats := stats } ∧
      stats.isTimeSet = c.timeStats.isTimeSet ||| type.bit := by
  simp only [RequestContext.recordStart, perRequestRecordStart, perRequestIsTimeSet, h, ne_eq,
    not_true_eq_false, decide_false, Bool.false_eq_true, if_false, check_some, ok_bind, pure_eq]
  exact ⟨_, rfl, rfl⟩

theorem recordEnd_ok (h : c.timeStats.isTimeSet &&& type.bit ≠ 0) (now : Timespec) :
    ∃ stats, c.recordEnd type now = .ok { c with timeStats := stats } ∧
      stats.isTimeSet = c.timeStats.isTimeSet &&& ~~~ type.bit := by
  simp only [RequestContext.recordEnd, perRequestRecordEnd, perRequestIsTimeSet, h, ne_eq,
    not_false_eq_true, decide_true, if_true, check_some, ok_bind, pure_eq]
  exact ⟨_, rfl, rfl⟩

/-- The parser does not look at the descriptor or at the times. -/
theorem tryParse_relabel {rs : List ReadResult} {st : ReadState} {d : RequestContext}
    (h : tryParseHttpRequest c rs = some (st, d)) (fd : Nat) (stats : PerRequestStats) :
    tryParseHttpRequest { c with fd := fd, timeStats := stats } rs =
      some (st, { d with fd := fd, timeStats := stats }) := by
  simp only [tryParseHttpRequest, Option.bind_eq_bind, Option.bind_eq_some_iff, Prod.exists] at h ⊢
  obtain ⟨rst, b, hb, h⟩ := h
  refine ⟨rst, b, hb, ?_⟩
  cases rst with
  | readFinish | readBusy | readError | clientDisconnect =>
    cases h
    rfl

theorem read_ok {rs : List ReadResult} {st : ReadState} (hset : c.timeStats.isTimeSet = 1)
    (hparse : ∀ stats, tryParseHttpRequest { c with timeStats := stats } rs =
      some (st, { d with timeStats := stats })) (clock : Nat → Timespec) :
    ∃ stats, c.read rs clock = .ok (st, { d with timeStats := stats }) ∧ stats.isTimeSet = 1 := by
  obtain ⟨stats, hstart, hbits⟩ := @recordStart_ok c .clientReadTime (by rw [hset]; decide) (clock 0)
  have hset' : stats.isTimeSet = 3 := by
    rw [hbits, hset]
    decide
  obtain ⟨stats', hend, hbits'⟩ := @recordEnd_ok { d with timeStats := stats } .clientReadTime
    (by rw [hset']; decide) (clock 1)
  refine ⟨stats', ?_, ?_⟩
  · rw [RequestContext.read, hstart, ok_bind, enabled_eq_ok.mpr (hparse stats), ok_bind]
    dsimp only
    rw [hend]
    rfl
  · rw [hbits', hset']
    decide

/-- A request on the connection is read at once, and no time is left started that
`client_handle_read` starts again. -/
def Ready (c : RequestContext) : Prop :=
  ∀ clock, ∃ d, c.read plainGet clock = .ok (.readFinish, d) ∧ d.fd = c.fd ∧
    ∀ now, ∃ d', d.recordStart .queueTime now = .ok d'

theorem accept_ready (fd : Nat) (clock : Nat → Timespec) :
    ∃ c, RequestContext.accept fd (fun _ => 0) (fun _ => 0) 0 clock = .ok c ∧ c.fd = fd ∧
      Ready c := by
  have hparse : (tryParseHttpRequest (initRequestContext 0 (fun _ => 0) (fun _ => 0) 0)
      plainGet).any (fun y => y.1 = .readFinish) = true := by
    decide +kernel
  obtain ⟨⟨st, d⟩, hd, hst⟩ := (Option.any_eq_true _ _).mp hparse
  have hst' : st = .readFinish := of_decide_eq_true hst
  subst hst'
  have hinit : initRequestContext fd (fun _ => 0) (fun _ => 0) 0 =
      { initRequestContext 0 (fun _ => 0) (fun _ => 0) 0 with fd := fd } := rfl
  have hclear : (initRequestContext 0 (fun _ => 0) (fun _ => 0) 0).timeStats.isTimeSet = 0 := rfl
  rw [RequestContext.accept, hinit]
  generalize initRequestContext 0 (fun _ => 0) (fun _ => 0) 0 = c at hd hclear
  obtain ⟨stats, hc, hbits⟩ := @recordStart_ok { c with fd := fd } .totalTime
    (by rw [hclear]; decide) (clock 0)
  have hset : stats.isTimeSet = 1 := by
    rw [hbits, hclear]
    decide
  refine ⟨_, hc, rfl, fun clock => ?_⟩
  obtain ⟨stats', hread, hset'⟩ := @read_ok { c with fd := fd, timeStats := stats }
    { d with fd := fd } _ _ hset (fun stats => tryParse_relabel hd fd stats) clock
  refine ⟨_, hread, rfl, fun now => ?_⟩
  obtain ⟨stats3, hqueue, -⟩ := @recordStart_ok { d with fd := fd, timeStats := stats' } .queueTime
    (by rw [hset']; decide) now
  exact ⟨_, hqueue⟩

end

/-- The small server with `n` requests in the queue of its actor, which never
runs, and no descriptor open from `m` on. -/
structure Loaded (n m : Nat) (pc : WorkerPc) (s : State) : Prop where
  run : ∃ tr, (server smallConfig).Run s tr
  halted : s.halted = none
  worker : s.workers 0 = pc
  files : ∀ fd, m ≤ fd → s.files fd = none
  queued : (s.waiting 0 0).length = n
  addEvent : (s.queues 0 0).addEvent = n

section

variable {n m : Nat} {pc : WorkerPc} {s t : State} {obs : List Obs} {r p fd : Nat}

theorem Loaded.init (clock : Nat → Timespec) :
    Loaded 0 4 .waiting (initState smallConfig clock) := by
  refine ⟨⟨[], .start ⟨clock, rfl⟩⟩, rfl, rfl, ?_, rfl, rfl⟩
  intro fd hfd
  refine if_neg ?_
  rintro ⟨w, hw, heq⟩
  simp only [smallConfig] at hw heq
  omega

theorem Loaded.next {l : Label} (h : Loaded n m pc s)
    (hstep : threadStep smallConfig s l = .ok (t, obs)) :
    (∃ tr, (server smallConfig).Run t tr) ∧ t.halted = none := by
  obtain ⟨tr, hrun⟩ := h.run
  obtain ⟨k, -, howned, htimed⟩ := server_simulates_timed hrun
  have hcases : (threadStep smallConfig s l).Ensures (Ends smallConfig s l) fun y =>
      Steps smallConfig s k l y.1 y.2 := threadStep_cases howned htimed
  rw [hstep] at hcases
  refine ⟨⟨tr ++ obs, hrun.next l ?_⟩, hcases.halted.trans h.halted⟩
  simp [server, h.halted, hstep]

theorem Loaded.move (h : Loaded n m pc s) {act : WorkerAct} {pc' : WorkerPc}
    (hstep : threadStep smallConfig s (.worker 0 act) = .ok (t.setWorker 0 pc', obs))
    (hfiles : t.files = s.files) (hqueues : t.queues = s.queues) :
    Loaded n m pc' (t.setWorker 0 pc') := by
  obtain ⟨hrun, hhalted⟩ := h.next hstep
  refine ⟨hrun, hhalted, by simp [State.setWorker], ?_, ?_, ?_⟩
  · rw [State.setWorker, hfiles]
    exact h.files
  · rw [State.waiting, State.setWorker, hqueues]
    exact h.queued
  · rw [State.setWorker, hqueues]
    exact h.addEvent

theorem Loaded.owned (h : Loaded n m pc s) : ∃ k, Owned smallConfig s k := by
  obtain ⟨tr, hrun⟩ := h.run
  obtain ⟨k, -, howned⟩ := server_simulates hrun
  exact ⟨k, howned⟩

theorem setWorker_setWorker {w : Nat} {pc' : WorkerPc} :
    (s.setWorker w pc).setWorker w pc' = s.setWorker w pc' := by
  simp [State.setWorker]

theorem Loaded.finish {e : Event} (h : Loaded n m (.output e []) s)
    (he : e.events.epollout = false) : Loaded n m .waiting (s.setWorker 0 .waiting) := by
  have hbatch : threadStep smallConfig s (.worker 0 .next) =
      .ok (s.setWorker 0 (.batch []), []) := by
    simp [threadStep, smallConfig, ioEventLoop, h.worker, handleOutput, he]
  have h1 := h.move hbatch rfl rfl
  have hwait : threadStep smallConfig (s.setWorker 0 (.batch [])) (.worker 0 .next) =
      .ok ((s.setWorker 0 (.batch [])).setWorker 0 .waiting, []) := by
    simp [threadStep, smallConfig, ioEventLoop, h1.worker]
  have h2 := h1.move hwait rfl rfl
  rwa [setWorker_setWorker] at h2

theorem Loaded.wait (h : Loaded n m .waiting s) (hreg : s.epoll 0 fd = some ⟨.inputMask, p⟩) :
    Loaded n m (.batch [readable fd p]) (s.setWorker 0 (.batch [readable fd p])) := by
  have hstep : threadStep smallConfig s (.worker 0 (.wait [readable fd p])) =
      .ok (s.setWorker 0 (.batch [readable fd p]), []) := by
    simp [threadStep, smallConfig, ioEventLoop, h.worker, State.reports, readable, Event.matches,
      hreg, Events.within, Events.inputMask]
  exact h.move hstep rfl rfl

theorem handleAcceptRead_ok {e : Event} {context : SocketContext} {c : RequestContext}
    (hs : s.sockets e.ptr = some context) (hfile : s.files fd = none)
    (hreg : s.epoll context.epollInfo fd = none)
    (hc : RequestContext.accept fd (fun _ => 0) (fun _ => 0) context.epollInfo s.clock = .ok c)
    (hfd : c.fd = fd) :
    ∃ t, handleAcceptRead s e fd (fun _ => 0) (fun _ => 0) = .ok t ∧ t.workers = s.workers ∧
      t.queues = s.queues ∧ (∀ fd', fd' ≠ fd → t.files fd' = s.files fd') ∧
      t.requests s.next = some c ∧
      t.sockets (s.next + 1) = some (readContext s.next context.epollInfo) ∧
      t.epoll context.epollInfo fd = some ⟨.inputMask, s.next + 1⟩ := by
  simp only [handleAcceptRead, State.socket, hs, check_some, ok_bind, hfile, if_true, hc,
    State.addInputEpollEvent, State.addEpollEvent, State.setSocket, State.setRequest, State.tick,
    hfd, hreg, Function.update_self, ne_eq, reduceCtorEq, not_false_eq_true, and_self]
  refine ⟨_, rfl, rfl, rfl, ?_, ?_, ?_, ?_⟩
  · intro fd' hne
    exact Function.update_of_ne hne _ _
  · exact Function.update_self _ _ _
  · exact Function.update_self _ _ _
  · simp [State.setEpoll]

theorem Loaded.accept (h : Loaded n m .waiting s) :
    ∃ t r c, Loaded n (m + 1) .waiting t ∧ Ready c ∧ t.requests r = some c ∧
      t.sockets (r + 1) = some (readContext r 0) ∧
      t.epoll 0 c.fd = some ⟨.inputMask, r + 1⟩ := by
  obtain ⟨k, howned⟩ := h.owned
  obtain ⟨-, hreg, hsocket⟩ := howned.wired.listening 0 (by decide)
  change s.epoll 0 3 = _ at hreg
  have hfile : s.files m = none := h.files m le_rfl
  have hepoll : s.epoll 0 m = none := howned.wired.unopened hfile 0
  obtain ⟨c, hc, hfd, hready⟩ := accept_ready m s.clock
  have h1 := h.wait hreg
  have hlisten : threadStep smallConfig (s.setWorker 0 (.batch [readable 3 0])) (.worker 0 .next) =
      .ok ((s.setWorker 0 (.batch [readable 3 0])).setWorker 0 (.accepting (readable 3 0) []), []) := by
    simp [threadStep, smallConfig, ioEventLoop, handleEvent, readable, Events.error, State.socket,
      hsocket, listenContext, State.setWorker]
  have h2 := h1.move hlisten rfl rfl
  rw [setWorker_setWorker] at h2
  obtain ⟨t, ht, hworkers, hqueues, hfiles, hr, hp, hep⟩ := @handleAcceptRead_ok
    (s.setWorker 0 (.accepting (readable 3 0) [])) m (readable 3 0) (listenContext 3 0) c hsocket
    hfile hepoll hc hfd
  have hstep : threadStep smallConfig (s.setWorker 0 (.accepting (readable 3 0) []))
      (.worker 0 (.accept m (fun _ => 0) fun _ => 0)) = .ok (t, []) := by
    simp [threadStep, smallConfig, ioEventLoop, h2.worker, ht]
  obtain ⟨hrun, hhalted⟩ := h2.next hstep
  have h3 : Loaded n (m + 1) (.accepting (readable 3 0) []) t := by
    refine ⟨hrun, hhalted, by rw [hworkers, h2.worker], ?_, ?_, by rw [hqueues, h2.addEvent]⟩
    · intro fd' hfd'
      rw [hfiles fd' (by omega)]
      exact h.files fd' (by omega)
    · rw [State.waiting, hqueues]
      exact h.queued
  have hblock : threadStep smallConfig t (.worker 0 .acceptBlock) =
      .ok (t.setWorker 0 (.output (readable 3 0) []), []) := by
    simp [threadStep, smallConfig, ioEventLoop, h3.worker]
  have h4 := (h3.move hblock rfl rfl).finish rfl
  rw [setWorker_setWorker] at h4
  exact ⟨_, _, c, h4, hready, hr, hp, hfd ▸ hep⟩

theorem Loaded.read {c : RequestContext} (h : Loaded n m .waiting s) (hready : Ready c)
    (hr : s.requests r = some c) (hp : s.sockets p = some (readContext r 0))
    (hreg : s.epoll 0 c.fd = some ⟨.inputMask, p⟩) :
    ∃ t e d, Loaded n m (.dispatching .delete r e []) t ∧ e.events.epollout = false ∧
      t.requests r = some d ∧ t.sockets e.ptr = some (readContext r 0) ∧
      t.epoll 0 d.fd ≠ none ∧ ∀ now, ∃ d', d.recordStart .queueTime now = .ok d' := by
  have h1 := h.wait hreg
  obtain ⟨d, hd, hfd, hqueue⟩ := hready s.clock
  have hstep : threadStep smallConfig (s.setWorker 0 (.batch [readable c.fd p]))
      (.worker 0 (.read plainGet)) =
      .ok ((((s.setWorker 0 (.batch [readable c.fd p])).tick 2).setRequest r d).setWorker 0
        (.dispatching .delete r (readable c.fd p) []), [.parsed r d.content]) := by
    simp [threadStep, smallConfig, ioEventLoop, handleEvent, readable, Events.error, State.socket,
      State.setWorker, hp, readContext, clientHandleRead, SocketContext.request, State.request, hr,
      hd, State.tick]
  have h2 := h1.move hstep rfl rfl
  refine ⟨_, readable c.fd p, d, h2, rfl, ?_, hp, ?_, hqueue⟩
  · simp [State.setWorker, State.setRequest]
  · rw [hfd]
    simp [State.setWorker, State.setRequest, State.tick, hreg]

theorem Loaded.dispatch {e : Event} {d : RequestContext}
    (h : Loaded n m (.dispatching .delete r e []) s) (hr : s.requests r = some d)
    (hp : s.sockets e.ptr = some (readContext r 0)) (hreg : s.epoll 0 d.fd ≠ none) :
    ∃ t count, Loaded n m (.dispatching (.push count) r e []) t ∧ t.requests r = some d ∧
      t.sockets e.ptr = some (readContext r 0) := by
  have hdelete : threadStep smallConfig s (.worker 0 .next) =
      .ok ((s.setEpoll 0 d.fd none).setWorker 0 (.dispatching .load r e []), []) := by
    simp [threadStep, smallConfig, ioEventLoop, h.worker, clientDispatch, State.socket, hp,
      State.request, hr, State.deleteEpollEvent, readContext, hreg]
  have h1 := h.move hdelete rfl rfl
  generalize hs1 : (s.setEpoll 0 d.fd none).setWorker 0 (.dispatching .load r e []) = s1 at h1
  have hload : threadStep smallConfig s1 (.worker 0 .next) =
      .ok (s1.setWorker 0 (.dispatching (.store s1.count) r e []), []) := by
    simp [threadStep, smallConfig, ioEventLoop, h1.worker, clientDispatch]
  have h2 := h1.move hload rfl rfl
  generalize hs2 : s1.setWorker 0 (.dispatching (.store s1.count) r e []) = s2 at h2
  have hstore : threadStep smallConfig s2 (.worker 0 .next) =
      .ok ({ s2 with count := (s1.count + 1) % 2 ^ 64 }.setWorker 0
        (.dispatching (.push s1.count) r e []), []) := by
    simp [threadStep, smallConfig, ioEventLoop, h2.worker, clientDispatch]
  have h3 := h2.move hstore rfl rfl
  refine ⟨_, s1.count, h3, ?_, ?_⟩
  · subst hs2 hs1
    exact hr
  · subst hs2 hs1
    exact hp

theorem Loaded.push {e : Event} {d : RequestContext} {count : Nat}
    (h : Loaded n m (.dispatching (.push count) r e []) s) (hr : s.requests r = some d)
    (hp : s.sockets e.ptr = some (readContext r 0)) (he : e.events.epollout = false)
    (hqueue : ∀ now, ∃ d', d.recordStart .queueTime now = .ok d') (hn : n < 1024) :
    ∃ t, Loaded (n + 1) m .waiting t := by
  obtain ⟨k, howned⟩ := h.owned
  have hrep := howned.queued.represents 0 0
  have hfull : (s.waiting 0 0).length ≠ (s.queues 0 0).maxSize := by
    rw [h.queued, howned.queued.maxSize]
    omega
  obtain ⟨⟨result, q⟩, hpush⟩ : ∃ y, LockQueue.queuePush (s.queues 0 0) r = some y := by
    refine Option.ne_none_iff_exists'.mp fun hnone => ?_
    have hmax := LockQueue.queuePush_eq_none hnone
    rw [h.addEvent, eventfdMax] at hmax
    omega
  obtain ⟨rfl, hrep', -, hevent⟩ := LockQueue.queuePush_of_not_full hrep hfull hpush
  obtain ⟨d', hd'⟩ := hqueue (s.clock 0)
  have hstep : threadStep smallConfig s (.worker 0 .next) =
      .ok ({ ((s.tick 1).setRequest r d').setQueue 0 0 q with
          sockets := Function.update s.sockets e.ptr none }.setWorker 0 (.output e []), []) := by
    simp [threadStep, smallConfig, ioEventLoop, h.worker, clientDispatch, State.socket, hp,
      State.request, hr, hd', readContext, State.setRequest, State.tick, State.setQueue, hpush,
      Nat.mod_one]
  obtain ⟨hrun, hhalted⟩ := h.next hstep
  refine ⟨_, Loaded.finish ⟨hrun, hhalted, by simp [State.setWorker], h.files, ?_, ?_⟩ he⟩
  · have hlength : (LockQueue.contents q).length = n + 1 := by
      rw [hrep'.contents_eq, List.length_append, h.queued, List.length_singleton]
    simpa [State.waiting, State.setWorker, State.setQueue] using hlength
  · simp [State.setWorker, State.setQueue, hevent, h.addEvent]

theorem Loaded.overflow {e : Event} {d : RequestContext} {count : Nat}
    (h : Loaded 1024 m (.dispatching (.push count) r e []) s) (hr : s.requests r = some d)
    (hp : s.sockets e.ptr = some (readContext r 0))
    (hqueue : ∀ now, ∃ d', d.recordStart .queueTime now = .ok d') :
    ∃ t tr, (server smallConfig).Run t tr ∧ t.halted = some .queueCheck := by
  obtain ⟨k, howned⟩ := h.owned
  obtain ⟨tr, hrun⟩ := h.run
  have hfull : (s.waiting 0 0).length = (s.queues 0 0).maxSize := by
    rw [h.queued, howned.queued.maxSize]
  have hpush := LockQueue.queuePush_of_full (howned.queued.represents 0 0) hfull r
  obtain ⟨d', hd'⟩ := hqueue (s.clock 0)
  have hhalt : threadStep smallConfig s (.worker 0 .next) = .halt .queueCheck := by
    simp [threadStep, smallConfig, ioEventLoop, h.worker, clientDispatch, State.socket, hp,
      State.request, hr, hd', readContext, State.setRequest, State.tick, hpush, Nat.mod_one]
  have hstep : (server smallConfig).step s (.worker 0 .next) =
      some ({ s with halted := some .queueCheck }, []) := by
    simp [server, h.halted, hhalt]
  exact ⟨_, _, hrun.next _ hstep, rfl⟩

theorem Loaded.arrive (h : Loaded n m .waiting s) :
    ∃ t r e d count, Loaded n (m + 1) (.dispatching (.push count) r e []) t ∧
      t.requests r = some d ∧ t.sockets e.ptr = some (readContext r 0) ∧
      e.events.epollout = false ∧ ∀ now, ∃ d', d.recordStart .queueTime now = .ok d' := by
  obtain ⟨s1, r, c, h1, hready, hr, hp, hreg⟩ := h.accept
  obtain ⟨s2, e, d, h2, he, hr2, hp2, hreg2, hqueue⟩ := h1.read hready hr hp hreg
  obtain ⟨s3, count, h3, hr3, hp3⟩ := h2.dispatch hr2 hp2 hreg2
  exact ⟨s3, r, e, d, count, h3, hr3, hp3, he, hqueue⟩

theorem loaded_exists (hn : n ≤ 1024) : ∃ s m, Loaded n m .waiting s := by
  induction n with
  | zero => exact ⟨_, 4, Loaded.init fun _ => ⟨0, 0⟩⟩
  | succ n ih =>
    obtain ⟨s, m, h⟩ := ih (by omega)
    obtain ⟨t, r, e, d, count, ht, hr, hp, he, hqueue⟩ := h.arrive
    obtain ⟨u, hu⟩ := ht.push hr hp he hqueue (by omega)
    exact ⟨u, m + 1, hu⟩

theorem overload_run : ∃ s tr, (server smallConfig).Run s tr ∧ s.halted = some .queueCheck := by
  obtain ⟨s, m, h⟩ := loaded_exists le_rfl
  obtain ⟨t, r, e, d, count, ht, hr, hp, -, hqueue⟩ := h.arrive
  exact ht.overflow hr hp hqueue

end

theorem queue_failure_overload {cfg : Config} {s : State} {tr : List Obs} (h : (server cfg).Run s tr)
    (hq : s.halted = some .queueCheck) :
    ∃ w < cfg.workerCount, ∃ a < cfg.actorCount, ∃ r, (s.waiting a w).length = 1024 ∧
      (r :: s.waiting a w).Nodup ∧
      ∀ r' ∈ r :: s.waiting a w, ∃ c, s.requests r' = some c ∧ c.epollInfo = w := by
  obtain ⟨w, hw, count, r, e, rest, context, hpc, hs, hfull⟩ := server_overloaded h hq
  obtain ⟨k, -, howned⟩ := server_simulates h
  have hopen : ∀ r' st, (k r').place = some (st, w) → ∃ c, s.requests r' = some c ∧ c.epollInfo = w := by
    intro r' st hplace
    obtain ⟨c, hk, hw⟩ := Connection.place_eq_some.mp hplace
    exact ⟨c, (howned.wired.live hk).1, hw⟩
  have hcontext := (howned.batched.dispatching w _ r e rest hpc).1
  rw [hs] at hcontext
  cases hcontext
  have hhand : (s.workers w).hand = some (.deleted, r) := by rw [hpc]; rfl
  have hr := ((howned.handed.workers w .deleted r).mp hhand).1
  have hrep := howned.queued.represents (count % cfg.actorCount) w
  refine ⟨w, hw, count % cfg.actorCount, Nat.mod_lt _ cfg.actor_pos, r, ?_, ?_, ?_⟩
  · rw [hrep.isFull_iff.mp hfull, howned.queued.maxSize]
  · refine List.nodup_cons.mpr ⟨?_, howned.queued.nodup _ _⟩
    intro hmem
    rw [(howned.handed.queues _ w r).mp hmem] at hr
    cases hr
  · intro r' hmem
    rcases List.mem_cons.mp hmem with rfl | hmem
    · exact hopen r' _ hr
    · exact hopen r' _ ((howned.handed.queues _ w r').mp hmem)

theorem queue_failure_overload_small : ∃ s tr, (server smallConfig).Run s tr ∧
    s.halted = some .queueCheck ∧
    ∃ w < smallConfig.workerCount, ∃ a < smallConfig.actorCount, ∃ r,
      (s.waiting a w).length = 1024 ∧ (r :: s.waiting a w).Nodup ∧
      ∀ r' ∈ r :: s.waiting a w, ∃ c, s.requests r' = some c ∧ c.epollInfo = w := by
  obtain ⟨s, tr, hrun, hq⟩ := overload_run
  exact ⟨s, tr, hrun, hq, queue_failure_overload hrun hq⟩

theorem queue_failure_reachable :
    ¬ ∀ (cfg : Config) (s : State) (tr : List Obs), (server cfg).Run s tr →
      s.halted ≠ some .queueCheck := by
  intro h
  obtain ⟨s, tr, hrun, hq⟩ := overload_run
  exact h smallConfig s tr hrun hq

end Jullop
