import Jullop.ServerSteps

/-! Every step of the server is a step of one of its connections, or none of them
sees it. -/

namespace Jullop

def Halt.Allowed (h : Halt) : Prop := h ≠ .epollCheck ∧ h ≠ .invalidAccess ∧ h ≠ .timeCheck

def State.total (s : State) : Int := s.stats.totalRequestsProcessed

/-- The step of the server from `s` is a step of one connection, with what it adds
to the number of requests, or of none. -/
def Matched (cfg : Config) (s : State) (k : Nat → Connection) (y : State × List Obs) : Prop :=
  (y.2 = [] ∧ Owned cfg y.1 k ∧ y.1.total = s.total) ∨
    ∃ r act x, (k r).step r act = .ok (x, y.2) ∧ Owned cfg y.1 (Function.update k r x) ∧
      y.1.total = s.total + Connection.finished (k r) x

section

variable {cfg : Config} {s t : State} {k : Nat → Connection} {l : Label} {r w p a : Nat}
  {c c' d : RequestContext} {st : Stage} {pc : WorkerPc} {e : Event} {rest : List Event}
  {obs : List Obs}

/-- A step of a connection within a request, or without one. -/
theorem Matched.of_step {act : ConnectionAct} {x : Connection} {obs : List Obs}
    (hstep : (k r).step r act = .ok (x, obs)) (h : Owned cfg t (Function.update k r x))
    (hstats : t.total = s.total) (hx : Connection.finished (k r) x = 0) :
    Matched cfg s k (t, obs) := by
  refine .inr ⟨r, act, x, hstep, h, ?_⟩
  rw [hx, hstats, Int.add_zero]

theorem Matched.of_finish {act : ConnectionAct} {x : Connection} {obs : List Obs}
    (hstep : (k r).step r act = .ok (x, obs)) (h : Owned cfg t (Function.update k r x))
    (hstats : t.total = s.total + 1) (hx : Connection.finished (k r) x = 1) :
    Matched cfg s k (t, obs) := by
  refine .inr ⟨r, act, x, hstep, h, ?_⟩
  rw [hx, hstats]

theorem Owned.advance (h : Owned cfg s k) (hhand : (s.workers w).hand = none)
    (hhand' : pc.hand = none) (hsub : pc.pending.Sublist (s.workers w).pending)
    (haccepting : ∀ e rest, pc = .accepting e rest → e.ptr = w ∧ w < cfg.workerCount) :
    Owned cfg (s.setWorker w pc) k := by
  refine h.setWorker (hhand'.trans hhand.symm) ((hsub.map Event.fd).nodup (h.batched.nodup w))
    (fun e hm => h.batched.pending w e (hsub.subset hm)) haccepting ?_
  intro point r e rest hpc
  exact absurd hpc (WorkerPc.not_dispatching hhand' point e rest)

theorem Owned.rest_fd (h : Owned cfg s k) (hpc : (s.workers w).pending = e :: rest) :
    ∀ e' ∈ rest, e'.fd ≠ e.fd := by
  have hnodup := h.batched.nodup w
  rw [hpc, List.map_cons, List.nodup_cons] at hnodup
  intro e' hm hfd
  exact hnodup.1 (hfd ▸ List.mem_map_of_mem hm)

theorem pending_output_sublist : (WorkerPc.output e rest).pending.Sublist (e :: rest) := by
  rw [WorkerPc.pending]
  split
  · exact List.Sublist.refl _
  · exact List.sublist_cons_self e rest

theorem Walk.owned {pc0 : WorkerPc} {act : WorkerAct} (h : Owned cfg s k)
    (hpc : s.workers w = pc0) (hwalk : Walk cfg w pc0 act pc) : Owned cfg (s.setWorker w pc) k := by
  cases hwalk with
  | finish => exact h.advance (by rw [hpc]; rfl) rfl (List.nil_sublist _) nofun
  | unread =>
    refine h.advance (by rw [hpc]; rfl) rfl ?_ nofun
    rw [hpc]
    exact pending_output_sublist
  | listen _ hp hw =>
    refine h.advance (by rw [hpc]; rfl) rfl ?_ ?_
    · rw [hpc]
      exact pending_output_sublist
    · intro e' rest' heq
      cases heq
      exact ⟨hp, hw⟩
  | accepted =>
    refine h.advance (by rw [hpc]; rfl) rfl ?_ nofun
    rw [hpc]
    exact List.Sublist.refl _
  | unwritten hout =>
    refine h.advance (by rw [hpc]; rfl) rfl ?_ nofun
    rw [hpc, WorkerPc.pending, WorkerPc.pending, hout]
    exact List.Sublist.refl _

theorem ActorWalk.owned {pc0 pc' : ActorPc} {act : ActorAct} (h : Owned cfg s k)
    (hpc : s.actors a = pc0) (hwalk : ActorWalk cfg s a pc0 act pc') :
    Owned cfg (s.setActor a pc') k := by
  cases hwalk with
  | wait | finish | unread | again => exact h.setActor (by rw [hpc]; rfl)

theorem Stage.context_data : (st.context r w).data = .ptr r := by
  cases st <;> rfl

/-- The worker is through with the connection when it closes it. -/
theorem Owned.closeConnection (h : Owned cfg (s.setWorker w pc) k)
    (hk : k r = .live st c) (hst : st.registered = true) (hw : c.epollInfo = w)
    (hs : s.sockets p = some (st.context r c.epollInfo)) (hhand : pc.hand = none)
    (hpending : ∀ e ∈ pc.pending, e.fd ≠ c.fd) (stats : PerRequestStats) :
    Owned cfg ((s.closeConnection p r c stats).setWorker w pc) (Function.update k r .closed) := by
  subst hw
  have hdrop := h.drop (p := p) hk hst hs Stage.context_data (by simp [State.setWorker, hhand])
    (by simpa [State.setWorker] using hpending)
  exact hdrop.congr rfl rfl rfl rfl rfl rfl rfl rfl rfl

theorem Owned.resetConnection (h : Owned cfg (s.setWorker w pc) k)
    (hk : k r = .live .output c) (hw : c.epollInfo = w) (hfd : c'.fd = c.fd)
    (hw' : c'.epollInfo = c.epollInfo) (hs : s.sockets p = some (writeContext r c.epollInfo))
    (hhand : pc.hand = none) (hpending : ∀ e ∈ pc.pending, e.fd ≠ c.fd)
    (stats : PerRequestStats) :
    Owned cfg ((s.resetConnection p r c' stats).setWorker w pc)
      (Function.update k r (.live .input c')) := by
  subst hw
  have hset := h.setRequest hk hfd hw'
  have hrearm := hset.rearm (p := p) (Function.update_self _ _ _) (by rw [hw']; exact hs)
    (by rw [hw']; simp [State.setWorker, State.setRequest, hhand])
    (by rw [hw', hfd]; simpa [State.setWorker, State.setRequest] using hpending)
  rw [Function.update_idem] at hrearm
  exact hrearm.congr rfl rfl rfl rfl rfl rfl rfl rfl rfl

theorem Expects.rest_fd (he : Expects s k w e r st c) (h : Owned cfg s k)
    (hpc : (s.workers w).pending = e :: rest) : ∀ e' ∈ rest, e'.fd ≠ c.fd := by
  rw [he.fd]
  exact h.rest_fd hpc

theorem Owned.tick_setRequest (h : Owned cfg (s.setWorker w pc) k) (hk : k r = .live st c)
    (hfd : c'.fd = c.fd) (hw : c'.epollInfo = c.epollInfo) (n : Nat) :
    Owned cfg (((s.tick n).setRequest r c').setWorker w pc)
      (Function.update k r (.live st c')) :=
  (h.setRequest hk hfd hw).congr rfl rfl rfl rfl rfl rfl rfl rfl rfl

/-! `client_handle_read` and `client_handle_write`, for the connection of the event. -/

theorem read_owned {rs : List ReadResult} {state : ReadState} (h : Owned cfg s k)
    (hpc : s.workers w = .batch (e :: rest)) (he : Expects s k w e r .input c)
    (hread : c.read rs s.clock = .ok (state, c')) :
    Owned cfg (((s.tick 2).setRequest r c').setWorker w (.output e rest))
      (Function.update k r (.live .input c')) := by
  obtain ⟨hfd, hw, -⟩ := RequestContext.read_keeps hread
  have hnext : Owned cfg (s.setWorker w (.output e rest)) k := by
    refine h.advance (by rw [hpc]; rfl) rfl ?_ nofun
    rw [hpc]
    exact pending_output_sublist
  exact hnext.tick_setRequest he.live hfd hw 2

theorem read_rest {rs : List ReadResult} {state : ReadState} (h : Owned cfg s k)
    (hpc : s.workers w = .batch (e :: rest)) (he : Expects s k w e r .input c)
    (hout : e.events.epollout = false) (hread : c.read rs s.clock = .ok (state, c')) :
    ∀ e' ∈ (WorkerPc.output e rest).pending, e'.fd ≠ c'.fd := by
  rw [WorkerPc.pending, hout, (RequestContext.read_keeps hread).1]
  exact he.rest_fd h (by rw [hpc]; rfl)

theorem parse_matched {rs : List ReadResult} (h : Owned cfg s k)
    (hpc : s.workers w = .batch (e :: rest)) (he : Expects s k w e r .input c)
    (hout : e.events.epollout = false) (hread : c.read rs s.clock = .ok (.readFinish, c')) :
    Matched cfg s k (((s.tick 2).setRequest r c').setWorker w (.dispatching .delete r e rest),
      [.parsed r c'.content]) := by
  obtain ⟨hfd, hw, -⟩ := RequestContext.read_keeps hread
  have hpend : (WorkerPc.output e rest).pending = rest := by simp [WorkerPc.pending, hout]
  have hset := read_owned h hpc he hread
  have hrest := read_rest h hpc he hout hread
  rw [hpend] at hrest
  have htake : Owned cfg ((((s.tick 2).setRequest r c').setWorker w (.output e rest)).setWorker
      c'.epollInfo (.dispatching .delete r e rest)) _ :=
    hset.take (Function.update_self _ _ _) (by rw [hw, hfd]; exact he.epoll)
      (by rw [hw]; exact he.socket)
      (by rw [hw, he.worker]; simp [State.setWorker, WorkerPc.hand]) hout
      (by rw [hw, he.worker]; simp [State.setWorker, hpend]) hrest
  rw [Function.update_idem] at htake
  have hstep : (k r).step r (.read rs s.clock) =
      .ok (.live .parsed c', [.parsed r c'.content]) := by
    rw [he.live]
    simp [Connection.step, hread, Connection.afterRead]
  refine Matched.of_step hstep (htake.congr rfl rfl rfl rfl rfl rfl ?_ rfl rfl) rfl
    (by rw [he.live]; rfl)
  simp [State.setWorker, hw, he.worker]

theorem readClose_matched {rs : List ReadResult} {state : ReadState} (h : Owned cfg s k)
    (hpc : s.workers w = .batch (e :: rest)) (he : Expects s k w e r .input c)
    (hout : e.events.epollout = false) (hread : c.read rs s.clock = .ok (state, c'))
    (hstate : state = .readError ∨ state = .clientDisconnect)
    (hend : c'.recordEnd .totalTime (s.clock 2) = .ok d) :
    Matched cfg s k
      ((((s.tick 2).setRequest r c').closeConnection e.ptr r c' d.timeStats).setWorker w
        (.output e rest), []) := by
  obtain ⟨hfd, hw, -⟩ := RequestContext.read_keeps hread
  have hclose := (read_owned h hpc he hread).closeConnection
    (Function.update_self _ _ _) rfl (hw.trans he.worker) (by rw [hw]; exact he.socket) rfl
    (read_rest h hpc he hout hread) d.timeStats
  rw [Function.update_idem] at hclose
  have hstep : (k r).step r (.read rs s.clock) = .ok (.closed, []) := by
    rw [he.live]
    rcases hstate with rfl | rfl <;>
      simp [Connection.step, hread, Connection.afterRead, Connection.close, hend]
  exact Matched.of_finish hstep hclose rfl (by rw [he.live]; rfl)

theorem write_owned {ws : List WriteResult} {state : WriteState} {bytes : List UInt8}
    (h : Owned cfg s k) (hpc : s.workers w = .output e rest) (hout : e.events.epollout = true)
    (he : Expects s k w e r .output c) (hwrite : c.write ws s.clock = .ok (state, bytes, c')) :
    Owned cfg (((s.tick 2).setRequest r c').setWorker w (.batch rest))
      (Function.update k r (.live .output c')) := by
  have hkeep := RequestContext.write_keeps hwrite
  have hnext : Owned cfg (s.setWorker w (.batch rest)) k := by
    refine h.advance (by rw [hpc]; rfl) rfl ?_ nofun
    rw [hpc, WorkerPc.pending, WorkerPc.pending, hout]
    exact List.sublist_cons_self e rest
  exact hnext.tick_setRequest he.live hkeep.1 hkeep.2 2

theorem write_rest {ws : List WriteResult} {state : WriteState} {bytes : List UInt8}
    (h : Owned cfg s k) (hpc : s.workers w = .output e rest) (hout : e.events.epollout = true)
    (he : Expects s k w e r .output c) (hwrite : c.write ws s.clock = .ok (state, bytes, c')) :
    ∀ e' ∈ (WorkerPc.batch rest).pending, e'.fd ≠ c'.fd := by
  rw [(RequestContext.write_keeps hwrite).1]
  exact he.rest_fd h (by simp [hpc, WorkerPc.pending, hout])

theorem writeClose_matched {ws : List WriteResult} {state : WriteState} {bytes : List UInt8}
    (h : Owned cfg s k) (hpc : s.workers w = .output e rest) (hout : e.events.epollout = true)
    (he : Expects s k w e r .output c) (hwrite : c.write ws s.clock = .ok (state, bytes, c'))
    (hstate : state = .writeError ∨ state = .writeFinish ∧ contextKeepAlive c' = false)
    (hend : c'.recordEnd .totalTime (s.clock 2) = .ok d) :
    Matched cfg s k
      ((((s.tick 2).setRequest r c').closeConnection e.ptr r c' d.timeStats).setWorker w
        (.batch rest), [.wrote (some (.connection r)) bytes]) := by
  have hw := (RequestContext.write_keeps hwrite).2
  have hclose := (write_owned h hpc hout he hwrite).closeConnection
    (Function.update_self _ _ _) rfl (hw.trans he.worker) (by rw [hw]; exact he.socket) rfl
    (write_rest h hpc hout he hwrite) d.timeStats
  rw [Function.update_idem] at hclose
  have hstep : (k r).step r (.write ws s.clock) =
      .ok (.closed, [.wrote (some (.connection r)) bytes]) := by
    rw [he.live]
    rcases hstate with rfl | ⟨rfl, hkeep⟩
    · simp [Connection.step, hwrite, Connection.afterWrite, Connection.close, hend]
    · simp [Connection.step, hwrite, Connection.afterWrite, hkeep, Connection.close, hend]
  exact Matched.of_finish hstep hclose rfl (by rw [he.live]; rfl)

theorem reset_matched {ws : List WriteResult} {bytes : List UInt8} {d' : RequestContext}
    (h : Owned cfg s k) (hpc : s.workers w = .output e rest) (hout : e.events.epollout = true)
    (he : Expects s k w e r .output c)
    (hwrite : c.write ws s.clock = .ok (.writeFinish, bytes, c'))
    (hkeep : contextKeepAlive c' = true) (hend : c'.recordEnd .totalTime (s.clock 2) = .ok d)
    (hstart : (contextFinalizeReset d).recordStart .totalTime (s.clock 3) = .ok d') :
    Matched cfg s k
      ((((s.tick 2).setRequest r c').resetConnection e.ptr r d' d.timeStats).setWorker w
        (.batch rest), [.wrote (some (.connection r)) bytes]) := by
  have hw := (RequestContext.write_keeps hwrite).2
  have hsame : d'.fd = c'.fd ∧ d'.epollInfo = c'.epollInfo := by
    obtain ⟨stats, rfl⟩ := RequestContext.recordEnd_eq_ok hend
    obtain ⟨stats', rfl⟩ := RequestContext.recordStart_eq_ok hstart
    exact ⟨rfl, rfl⟩
  have hreset := (write_owned h hpc hout he hwrite).resetConnection
    (Function.update_self _ _ _) (hw.trans he.worker) hsame.1 hsame.2
    (by rw [hw]; exact he.socket) rfl (write_rest h hpc hout he hwrite) d.timeStats
  rw [Function.update_idem] at hreset
  have hstep : (k r).step r (.write ws s.clock) =
      .ok (.live .input d', [.wrote (some (.connection r)) bytes]) := by
    rw [he.live]
    simp [Connection.step, hwrite, Connection.afterWrite, hkeep, Connection.reset, hend, hstart]
  exact Matched.of_finish hstep hreset rfl (by rw [he.live]; rfl)

theorem fail_matched (h : Owned cfg s k) (hpc : s.workers w = .batch (e :: rest))
    (he : Expects s k w e r st c) (hend : c.recordEnd .totalTime (s.clock 0) = .ok d) :
    Matched cfg s k
      ((s.closeConnection e.ptr r c d.timeStats).setWorker w (.batch rest), []) := by
  have hnext : Owned cfg (s.setWorker w (.batch rest)) k := by
    refine h.advance (by rw [hpc]; rfl) rfl ?_ nofun
    rw [hpc]
    exact List.sublist_cons_self e rest
  have hclose := hnext.closeConnection he.live he.registered he.worker he.socket rfl
    (he.rest_fd h (by rw [hpc]; rfl)) d.timeStats
  have hstep : (k r).step r (.fail s.clock) = .ok (.closed, []) := by
    rw [he.live]
    have hst := he.registered
    cases st with
    | input | output => simp [Connection.step, Connection.close, hend]
    | parsed | deleted | queued _ | held _ | handled _ => cases hst
  exact Matched.of_finish hstep hclose rfl (by rw [he.live]; rfl)

theorem push_matched {count : Nat} {q : LockQueue.Queue Nat} (h : Owned cfg s k)
    (hpc : s.workers w = .dispatching (.push count) r e rest) (hk : k r = .live .deleted c)
    (hworker : c'.epollInfo = w) (hs : s.sockets e.ptr = some (readContext r w))
    (hstart : c.recordStart .queueTime (s.clock 0) = .ok c')
    (hpush : LockQueue.queuePush (s.queues (count % cfg.actorCount) w) r =
      some (.queueSuccess, q)) :
    Matched cfg s k
      ((s.pushRequest (count % cfg.actorCount) e.ptr r c' q).setWorker w (.output e rest), []) := by
  subst hworker
  have hkeep : c'.fd = c.fd ∧ c'.epollInfo = c.epollInfo := by
    obtain ⟨stats, rfl⟩ := RequestContext.recordStart_eq_ok hstart
    exact ⟨rfl, rfl⟩
  obtain ⟨hrep, hmax⟩ := LockQueue.queuePush_of_success
    (h.queued.represents (count % cfg.actorCount) c'.epollInfo) hpush
  have hqueue := (h.setRequest hk hkeep.1 hkeep.2).enqueue (Function.update_self _ _ _) hpc hs hrep
    (hmax.trans (h.queued.maxSize _ _))
  rw [Function.update_idem] at hqueue
  have hstep : (k r).step r (.push (count % cfg.actorCount) s.clock) =
      .ok (.live (.queued (count % cfg.actorCount)) c', []) := by
    rw [hk]
    simp [Connection.step, hstart]
  exact Matched.of_step hstep (hqueue.congr rfl rfl rfl rfl rfl rfl rfl rfl rfl) rfl
    (by rw [hk]; rfl)

theorem accept_matched {fd : Nat} {inputHeap outputHeap : Nat → UInt8} (h : Owned cfg s k)
    (hpc : s.workers w = .accepting e rest) (hfile : s.files fd = none)
    (haccept : RequestContext.accept fd inputHeap outputHeap w s.clock = .ok c) :
    Matched cfg s k (s.acceptConnection c, []) := by
  have hstep : (k s.next).step s.next (.accept fd inputHeap outputHeap w s.clock) =
      .ok (.live .input c, []) := by
    rw [h.wired.unborn s.next (Nat.le_refl _)]
    simp [Connection.step, haccept]
  have hkeep : c.fd = fd ∧ c.epollInfo = w := by
    obtain ⟨stats, rfl⟩ := RequestContext.accept_eq_ok haccept
    exact ⟨rfl, rfl⟩
  obtain ⟨rfl, rfl⟩ := hkeep
  have hadopt := h.adopt hfile (by rw [hpc]; rfl)
  exact Matched.of_step hstep (hadopt.congr rfl rfl rfl rfl rfl rfl rfl rfl rfl) rfl
    (by rw [h.wired.unborn s.next (Nat.le_refl _)]; rfl)

theorem process_matched {owed : Nat} {queues : List Nat} (h : Owned cfg s k)
    (hpc : s.actors a = .popped w owed queues r) (hk : k r = .live (.held a) c)
    (hprocess : c.process s.clock = .ok c') :
    Matched cfg s k (((s.tick 3).setRequest r c').setActor a (.handled w owed queues r),
      [.handled r c.content c.outputBuffer.writeFromOffset c.outputBuffer.writeIntoOffset
        c'.outputBuffer.content]) := by
  have hkeep : c'.fd = c.fd ∧ c'.epollInfo = c.epollInfo := by
    obtain ⟨_, _, _, -, rfl⟩ := RequestContext.process_eq_ok hprocess
    exact ⟨rfl, rfl⟩
  have ht : Owned cfg ((s.setRequest r c').setActor a (.handled w owed queues r)) _ :=
    (h.setRequest hk hkeep.1 hkeep.2).respond (Function.update_self _ _ _)
      (congrArg (ActorPc.hand a) hpc)
  rw [Function.update_idem] at ht
  have hstep : (k r).step r (.handle s.clock) = .ok (.live (.handled a) c',
      [.handled r c.content c.outputBuffer.writeFromOffset c.outputBuffer.writeIntoOffset
        c'.outputBuffer.content]) := by
    rw [hk]
    simp [Connection.step, hprocess]
  exact Matched.of_step hstep (ht.congr rfl rfl rfl rfl rfl rfl rfl rfl rfl) rfl (by rw [hk]; rfl)

theorem Steps.matched (hstep : Steps cfg s k l t obs) (h : Owned cfg s k) :
    Matched cfg s k (t, obs) := by
  cases hstep with
  | wait _ hpc hreports =>
    obtain ⟨hnodup, hmatches⟩ := State.reports_iff hreports
    exact .inl ⟨rfl, h.setWorker (by rw [hpc]; rfl) hnodup hmatches (by simp) (by simp), rfl⟩
  | walk _ hwalk => exact .inl ⟨rfl, hwalk.owned h rfl, rfl⟩
  | fail _ hpc _ he hend => exact fail_matched h hpc he hend
  | parse _ hpc _ he hout hread => exact parse_matched h hpc he hout hread
  | @read w r e rest rs c c' _ hpc _ he hout hread =>
    have hconn : (k r).step r (.read rs s.clock) = .ok (.live .input c', []) := by
      rw [he.live]
      simp [Connection.step, hread, Connection.afterRead]
    exact Matched.of_step hconn (read_owned h hpc he hread) rfl (by rw [he.live]; rfl)
  | readClose _ hpc _ he hout hread hstate hend =>
    exact readClose_matched h hpc he hout hread hstate hend
  | @delete w r e rest c _ hpc hk =>
    obtain ⟨c', hk', -, -, -, ht⟩ := h.unregister hpc
    rw [hk] at hk'
    cases hk'
    have hconn : (k r).step r .delete = .ok (.live .deleted c, []) := by rw [hk]; rfl
    exact Matched.of_step hconn ht rfl (by rw [hk]; rfl)
  | load _ hpc => exact .inl ⟨rfl, h.redispatch hpc (by simp) (by simp), rfl⟩
  | @store w r count e rest _ hpc =>
    have ht : Owned cfg (s.setWorker w (.dispatching (.push count) r e rest)) k :=
      h.redispatch hpc (by simp) (by simp)
    exact .inl ⟨rfl, ht.congr rfl rfl rfl rfl rfl rfl rfl rfl rfl, rfl⟩
  | push _ hpc hk hworker hs hstart hpush => exact push_matched h hpc hk hworker hs hstart hpush
  | @write w r e rest ws bytes c c' _ hpc hout he hwrite =>
    have hconn : (k r).step r (.write ws s.clock) =
        .ok (.live .output c', [.wrote (some (.connection r)) bytes]) := by
      rw [he.live]
      simp [Connection.step, hwrite, Connection.afterWrite]
    exact Matched.of_step hconn (write_owned h hpc hout he hwrite) rfl (by rw [he.live]; rfl)
  | writeClose _ hpc hout he hwrite hstate hend =>
    exact writeClose_matched h hpc hout he hwrite hstate hend
  | reset _ hpc hout he hwrite hkeep hend hstart =>
    exact reset_matched h hpc hout he hwrite hkeep hend hstart
  | accept _ hpc hfile haccept => exact accept_matched h hpc hfile haccept
  | actorWalk _ hwalk => exact .inl ⟨rfl, hwalk.owned h rfl, rfl⟩
  | @eventRead a w numToRead event rest _ hpc _ =>
    have hq : Owned cfg (s.setQueue a w { s.queues a w with addEvent := event }) k :=
      h.setQueue ((h.queued.represents a w).setEvent event) (h.queued.maxSize a w)
    have hhand : (ActorPc.popping w numToRead rest).hand a = (s.actors a).hand a := by rw [hpc]; rfl
    exact .inl ⟨rfl, hq.setActor hhand, rfl⟩
  | popNull _ hpc _ => exact .inl ⟨rfl, h.setActor (by rw [hpc]; rfl), rfl⟩
  | @pop a w owed r rest items q c _ hpc _ hitems hq hmax hk =>
    obtain ⟨c', hk', -, ht⟩ := h.dequeue hitems hq hmax (by rw [hpc]; rfl)
    rw [hk] at hk'
    cases hk'
    have hconn : (k r).step r .pop = .ok (.live (.held a) c, []) := by rw [hk]; rfl
    exact Matched.of_step hconn ht rfl (by rw [hk]; rfl)
  | process _ hpc hk hprocess => exact process_matched h hpc hk hprocess
  | @register a w owed r rest c _ hpc hk =>
    have hconn : (k r).step r .register = .ok (.live .output c, []) := by rw [hk]; rfl
    exact Matched.of_step hconn (h.register hk (congrArg (ActorPc.hand a) hpc)) rfl
      (by rw [hk]; rfl)

theorem owned_init (cfg : Config) (clock : Nat → Timespec) :
    Owned cfg (initState cfg clock) fun _ => .unborn := by
  have hwaiting : ∀ a w, (initState cfg clock).waiting a w = [] := fun a w =>
    (LockQueue.queueInit_represents 1024).contents_eq
  refine ⟨⟨fun _ => rfl, fun _ _ => rfl, ?_, ?_, ?_, nofun, ?_⟩, ⟨?_, ?_, ?_⟩, ⟨?_, fun _ _ => rfl, ?_⟩,
    ⟨fun _ => List.nodup_nil, nofun, nofun, nofun⟩, nofun, nofun, nofun⟩
  · intro p hp
    exact if_neg (Nat.not_lt.mpr hp)
  · intro fd r
    refine iff_of_false ?_ ?_
    · simp only [initState]
      split <;> simp
    · rintro ⟨_, _, hk, -⟩
      cases hk
  · intro w hw
    exact ⟨if_pos ⟨w, hw, rfl⟩, if_pos ⟨hw, rfl⟩, if_pos hw⟩
  · intro w fd hreg
    by_cases hat : w < cfg.workerCount ∧ cfg.sockFd w = fd
    · exact .inl ⟨hat.1, hat.2.symm⟩
    · exact absurd (if_neg hat) hreg
  · intro w st r
    refine iff_of_false nofun ?_
    rintro ⟨hplace, -⟩
    cases hplace
  · intro a st r
    refine iff_of_false nofun ?_
    rintro ⟨⟨_, hplace⟩, -⟩
    cases hplace
  · intro a w r
    rw [hwaiting]
    simp [Connection.place]
  · intro a w
    rw [hwaiting]
    exact LockQueue.queueInit_represents 1024
  · intro a w
    rw [hwaiting]
    exact List.nodup_nil

theorem Owned.halt {e : Halt} (h : Owned cfg s k) (he : e.Allowed) :
    Owned cfg { s with halted := some e } k := by
  obtain ⟨hwired, hhanded, hqueued, hbatched, -⟩ := h
  refine ⟨⟨hwired.requests, hwired.unborn, hwired.sockets_lt, hwired.files, hwired.listening,
    hwired.registered, hwired.only⟩, ⟨hhanded.workers, hhanded.actors, hhanded.queues⟩,
    ⟨hqueued.represents, hqueued.maxSize, hqueued.nodup⟩,
    ⟨hbatched.nodup, hbatched.pending, hbatched.accepting, hbatched.dispatching⟩, ?_, ?_, ?_⟩
  · exact fun heq => he.1 (Option.some.inj heq)
  · exact fun heq => he.2.1 (Option.some.inj heq)
  · exact fun heq => he.2.2 (Option.some.inj heq)

theorem Ends.allowed {h : Halt} (hends : Ends cfg s l h) : h.Allowed := by
  cases hends <;> exact ⟨nofun, nofun, nofun⟩

theorem server_step (h : Owned cfg s k) (htimed : AllTimed k)
    (hstep : (server cfg).step s l = some (t, obs)) : Matched cfg s k (t, obs) := by
  obtain ⟨-, hstep | ⟨e, hends, rfl, rfl⟩⟩ := server_step_cases h htimed hstep
  · exact hstep.matched h
  · exact .inl ⟨rfl, h.halt hends.allowed, rfl⟩

/-- The server is a simulation of its connections, each of them served on its
own, and their times are started as their stages say. -/
theorem server_simulates_timed {tr : List Obs} (h : (server cfg).Run s tr) :
    ∃ k, connections.Run k tr ∧ Owned cfg s k ∧ AllTimed k := by
  refine h.simulate (fun s k => Owned cfg s k ∧ AllTimed k) ?_ ?_
  · rintro s ⟨clock, rfl⟩
    exact ⟨fun _ => .unborn, fun _ => rfl, owned_init cfg clock, fun _ => trivial⟩
  · rintro s k l t obs ⟨hs, htimed⟩ hstep
    rcases server_step hs htimed hstep with ⟨hobs, ht, -⟩ | ⟨r, act, x, hx, ht, -⟩
    · exact .inl ⟨hobs, ht, htimed⟩
    · exact .inr ⟨(r, act), Function.update k r x, by simp [connections, hx], ht,
        htimed.update r ((htimed r).step hx)⟩

theorem server_simulates {tr : List Obs} (h : (server cfg).Run s tr) :
    ∃ k, connections.Run k tr ∧ Owned cfg s k := by
  obtain ⟨k, hk, howned, -⟩ := server_simulates_timed h
  exact ⟨k, hk, howned⟩

end

end Jullop
