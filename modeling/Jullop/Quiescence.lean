import Jullop.Allocation
import Jullop.Delivery
import Jullop.Traffic

/-! The server comes to rest. However its threads are scheduled, they can take only so
many steps before they need something from outside, and when they can take no more every
request has been handled and every connection is registered with its worker. -/

namespace Jullop

open Outcome

theorem ActorPc.work_anti {events events' : Nat → Nat} (h : ∀ w, events w ≤ events' w)
    (pc : ActorPc) : pc.work events' ≤ pc.work events := by
  cases pc with
  | waiting | popping | popped | handled => exact le_rfl
  | ready queues =>
    simp only [ActorPc.work]
    by_cases hany : queues.any (0 < events ·) = true
    · have hany' : queues.any (0 < events' ·) = true := by
        obtain ⟨w, hw, hpos⟩ := List.any_eq_true.mp hany
        have hpos' := Nat.lt_of_lt_of_le (of_decide_eq_true hpos) (h w)
        exact List.any_eq_true.mpr ⟨w, hw, decide_eq_true hpos'⟩
      rw [if_pos hany, if_pos hany']
    · rw [if_neg hany]
      split <;> omega

namespace State

/-- What an actor has to do for the requests that it has taken and for those that are
announced to it. -/
def load (cfg : Config) (s : State) (a : Nat) : Nat :=
  (s.actors a).work (s.events a) + 27 * ∑ w ∈ Finset.range cfg.workerCount, s.events a w

def pressure (cfg : Config) (s : State) : Nat :=
  ∑ w ∈ Finset.range cfg.workerCount, (s.workers w).work +
    ∑ a ∈ Finset.range cfg.actorCount, s.load cfg a

/-- A bound for the steps that the threads can take without anything from outside. -/
def work (cfg : Config) (s : State) : Nat :=
  (if s.halted = none then 1 else 0) + s.pressure cfg

end State

open Trace

section

variable {cfg : Config} {s t : State} {l : Label} {a w : Nat} {k : Nat → Connection}

theorem State.SameTraffic.pressure (h : s.SameTraffic t) : t.pressure cfg = s.pressure cfg := by
  have hevents : t.events = s.events := by
    funext a w
    exact h.events a w
  have hload : t.load cfg = s.load cfg := by
    funext a
    rw [State.load, State.load, h.2.1, hevents]
  rw [State.pressure, State.pressure, h.1, hload]

theorem pressure_setWorker (hw : w < cfg.workerCount) (pc : WorkerPc) :
    (s.setWorker w pc).pressure cfg + (s.workers w).work = s.pressure cfg + pc.work := by
  have hsum := sum_range_change (f := fun w => (s.workers w).work)
    (g := fun w' => ((s.setWorker w pc).workers w').work) hw
    fun j hj => congrArg WorkerPc.work (Function.update_of_ne hj _ _)
  have hself : (s.setWorker w pc).workers w = pc := Function.update_self _ _ _
  have hload : (s.setWorker w pc).load cfg = s.load cfg := rfl
  simp only [hself] at hsum
  rw [State.pressure, State.pressure, hload]
  omega

theorem pressure_setActor (ha : a < cfg.actorCount) (pc : ActorPc) :
    (s.setActor a pc).pressure cfg + (s.actors a).work (s.events a) =
      s.pressure cfg + pc.work (s.events a) := by
  have hevents : (s.setActor a pc).events = s.events := rfl
  have hsum := sum_range_change (f := s.load cfg) (g := (s.setActor a pc).load cfg) ha
    fun j hj => by
      have hother : (s.setActor a pc).actors j = s.actors j := Function.update_of_ne hj _ _
      rw [State.load, State.load, hevents, hother]
  have hself : (s.setActor a pc).actors a = pc := Function.update_self _ _ _
  have hworkers : (s.setActor a pc).workers = s.workers := rfl
  rw [State.load, State.load, hself, hevents] at hsum
  rw [State.pressure, State.pressure, hworkers]
  omega

theorem pressure_setQueue {q : LockQueue.Queue Nat} (ha : a < cfg.actorCount)
    (hw : w < cfg.workerCount) :
    (s.setQueue a w q).pressure cfg + (s.actors a).work (s.events a) + 27 * s.events a w =
      s.pressure cfg + (s.actors a).work ((s.setQueue a w q).events a) + 27 * q.addEvent := by
  have hother : ∀ j, j ≠ a → (s.setQueue a w q).load cfg j = s.load cfg j := by
    intro j hj
    have hevents : (s.setQueue a w q).events j = s.events j := by
      funext w'
      rw [State.setQueue_events, if_neg fun hat => hj hat.1]
    rw [State.load, hevents]
    rfl
  have hsum := sum_range_change ha hother
  have hinner := sum_range_change (f := s.events a) (g := (s.setQueue a w q).events a) hw
    fun j hj => by rw [State.setQueue_events, if_neg fun hat => hj hat.2]
  have hself : (s.setQueue a w q).events a w = q.addEvent := by
    rw [State.setQueue_events, if_pos ⟨rfl, rfl⟩]
  have hactors : (s.setQueue a w q).actors = s.actors := rfl
  have hworkers : (s.setQueue a w q).workers = s.workers := rfl
  rw [hself] at hinner
  simp only [State.load, hactors] at hsum
  simp only [State.pressure, State.load, hworkers, hactors]
  omega

theorem Accounted.worker_of_event (h : Accounted cfg s) (hpos : 0 < s.events a w) :
    w < cfg.workerCount := by
  by_contra hout
  have hevents := h.events a w
  rw [h.queues a w (.inr (Nat.le_of_not_lt hout)), List.length_nil] at hevents
  omega

/-- A pop leaves what is announced alone. -/
theorem pressure_pop {pc : ActorPc} {owed : Nat} {rest : List Nat} (hq : Queued s)
    (ha : a < cfg.actorCount) (hpc : s.actors a = .popping w (owed + 1) rest)
    (hwork : pc.work (s.events a) < 29 + 2 * rest.length + 3 * owed) :
    ((s.setQueue a w (LockQueue.queuePop (s.queues a w)).2).setActor a pc).pressure cfg <
      s.pressure cfg := by
  obtain ⟨-, -, -, hevent⟩ := LockQueue.queuePop_represents (hq.represents a w)
  generalize (LockQueue.queuePop (s.queues a w)).2 = q at hevent ⊢
  have hevents : (s.setQueue a w q).events = s.events := by
    funext a' w'
    rw [State.setQueue_events]
    split
    · rename_i hat
      rw [hevent, hat.1, hat.2]
      rfl
    · rfl
  have hload : (s.setQueue a w q).load cfg = s.load cfg := by
    funext a'
    rw [State.load, State.load, hevents]
    rfl
  have hqueue : (s.setQueue a w q).pressure cfg = s.pressure cfg := by
    rw [State.pressure, State.pressure, hload]
    rfl
  have hset := pressure_setActor (s := s.setQueue a w q) ha pc
  have hactor : (s.setQueue a w q).actors a = .popping w (owed + 1) rest := hpc
  have hpopping : (ActorPc.popping w (owed + 1) rest).work (s.events a) =
    26 + 2 * rest.length + 3 * (owed + 1) := rfl
  rw [hactor, hevents, hqueue, hpopping] at hset
  omega

theorem Traffic.pressure_lt (h : Traffic cfg s l t) (hl : l.inner = true) (hacc : Accounted cfg s)
    (hq : Queued s) : t.pressure cfg < s.pressure cfg := by
  cases h with
  | worker hw pc hwork hsame =>
    have hset := pressure_setWorker (s := s) hw pc
    have hless := hwork hl
    rw [hsame.pressure]
    omega
  | @push w r count e rest q hw hpc hpush hsame =>
    have ha := Nat.mod_lt count cfg.actor_pos
    generalize count % cfg.actorCount = a at ha hpush hsame
    have hrep := hq.represents a w
    have hroom : (s.waiting a w).length ≠ (s.queues a w).maxSize := by
      intro hfull
      rw [LockQueue.queuePush_of_full hrep hfull] at hpush
      cases hpush
    obtain ⟨-, -, -, hevent⟩ := LockQueue.queuePush_of_not_full hrep hroom hpush
    have hevent' : q.addEvent = s.events a w + 1 := hevent
    have hmore : ∀ w', s.events a w' ≤ (s.setQueue a w q).events a w' := by
      intro w'
      rw [State.setQueue_events]
      split
      · rename_i hat
        rw [hat.2]
        omega
      · exact le_rfl
    have hanti := ActorPc.work_anti hmore (s.actors a)
    have hqueue := pressure_setQueue (s := s) (q := q) ha hw
    have hset := pressure_setWorker (s := s.setQueue a w q) hw (.output e rest)
    have hworker : (s.setQueue a w q).workers w = .dispatching (.push count) r e rest := hpc
    rw [hworker] at hset
    simp only [WorkerPc.work, Dispatch.work] at hset
    rw [hsame.pressure]
    omega
  | actor ha pc _ hwork hsame =>
    have hset := pressure_setActor (s := s) ha pc
    have hless := hwork hl
    rw [hsame.pressure]
    omega
  | @read a w n event rest ha hpc hread hsame =>
    obtain ⟨rfl, rfl, hpos⟩ := eventfdRead_eq_some hread
    have hpos' : 0 < s.events a w := hpos
    have hw := hacc.worker_of_event hpos'
    obtain ⟨q, hq, hzero⟩ : ∃ q, { s.queues a w with addEvent := 0 } = q ∧ q.addEvent = 0 :=
      ⟨_, rfl, rfl⟩
    rw [hq] at hsame
    have hqueue := pressure_setQueue (s := s) (q := q) ha hw
    have hset := pressure_setActor (s := s.setQueue a w q) ha (.popping w (s.events a w) rest)
    have hactor : (s.setQueue a w q).actors a = .ready (w :: rest) := hpc
    have hready : (ActorPc.ready (w :: rest)).work (s.events a) = 3 + 2 * rest.length := by
      simp only [ActorPc.work, List.any_cons, hpos', decide_true, Bool.true_or, if_true,
        List.length_cons]
      omega
    have hpopping : ∀ events, (ActorPc.popping w (s.events a w) rest).work events =
      26 + 2 * rest.length + 3 * s.events a w := fun _ => rfl
    rw [hactor, hpopping] at hset
    rw [hpc, hready, hzero] at hqueue
    rw [hsame.pressure]
    change ((s.setQueue a w q).setActor a (.popping w (s.events a w) rest)).pressure cfg < _
    omega
  | @pop a w owed rest r ha hpc hpop hsame =>
    rw [hsame.pressure]
    refine pressure_pop hq ha hpc ?_
    simp only [ActorPc.work]
    omega
  | @popNull a w owed rest ha hpc hpop hsame =>
    rw [hsame.pressure]
    refine pressure_pop hq ha hpc ?_
    simp only [ActorPc.work]
    split <;> omega

theorem work_lt {tr obs : List Obs} (h : (server cfg).Run s tr) (hl : l.inner = true)
    (hstep : (server cfg).step s l = some (t, obs)) : t.work cfg < s.work cfg := by
  obtain ⟨k, howned, htimed, hacc⟩ := server_accounted h
  obtain ⟨hrunning, ⟨hgoes, htraffic⟩ | ⟨e, rfl, -⟩⟩ := server_step_travels howned htimed hacc hstep
  · have hless := htraffic.pressure_lt hl hacc howned.queued
    rw [State.work, State.work, if_pos hrunning, if_pos hgoes]
    omega
  · have hsame : ({ s with halted := some e } : State).pressure cfg = s.pressure cfg := rfl
    rw [State.work, State.work, if_pos hrunning, hsame, if_neg nofun]
    omega

theorem ok_ne_disabled {α : Type} (a : α) : (.ok a : Outcome Halt α) ≠ .disabled := nofun

theorem halt_ne_disabled {α : Type} (h : Halt) : (.halt h : Outcome Halt α) ≠ .disabled := nofun

theorem check_ne_disabled {α : Type} {h : Halt} (x : Option α) : check h x ≠ .disabled := by
  cases x with
  | none | some => exact nofun

theorem bind_ne_disabled {α β : Type} {x : Outcome Halt α} {f : α → Outcome Halt β}
    (hx : x ≠ .disabled) (hf : ∀ a, x = .ok a → f a ≠ .disabled) : (x >>= f) ≠ .disabled := by
  cases x with
  | disabled => exact absurd rfl hx
  | halt h => exact halt_ne_disabled h
  | ok a => exact hf a rfl

theorem check_bind_ne_disabled {α β : Type} {h : Halt} {x : Option α} {f : α → Outcome Halt β}
    (hf : ∀ a, f a ≠ .disabled) : (check h x >>= f) ≠ .disabled :=
  bind_ne_disabled (check_ne_disabled x) fun a _ => hf a

theorem recordStart_ne_disabled (c : RequestContext) (type : TimeType) (now : Timespec) :
    c.recordStart type now ≠ .disabled := check_bind_ne_disabled fun _ => ok_ne_disabled _

theorem recordEnd_ne_disabled (c : RequestContext) (type : TimeType) (now : Timespec) :
    c.recordEnd type now ≠ .disabled := check_bind_ne_disabled fun _ => ok_ne_disabled _

theorem data_ne_disabled (context : SocketContext) : context.request ≠ .disabled := by
  unfold SocketContext.request
  split <;> exact nofun

theorem ite_ne_disabled {α : Type} {p : Prop} [Decidable p] {a : α} {h : Halt} :
    (if p then Outcome.ok a else .halt h) ≠ .disabled := by
  split <;> exact nofun

theorem clientCloseConnection_ne_disabled (s : State) (p : Nat) :
    clientCloseConnection s p ≠ .disabled :=
  check_bind_ne_disabled fun _ => bind_ne_disabled (data_ne_disabled _) fun _ _ =>
    check_bind_ne_disabled fun _ => bind_ne_disabled (recordEnd_ne_disabled _ _ _) fun _ _ =>
    bind_ne_disabled ite_ne_disabled fun _ _ => bind_ne_disabled ite_ne_disabled fun _ _ => ok_ne_disabled _

theorem clientResetConnection_ne_disabled (s : State) (p : Nat) :
    clientResetConnection s p ≠ .disabled :=
  check_bind_ne_disabled fun _ => bind_ne_disabled (data_ne_disabled _) fun _ _ =>
    check_bind_ne_disabled fun _ => bind_ne_disabled (recordEnd_ne_disabled _ _ _) fun _ _ =>
    bind_ne_disabled (recordStart_ne_disabled _ _ _) fun _ _ => ite_ne_disabled

/-- A handler can always find nothing to read. -/
theorem read_ne_disabled (c : RequestContext) (clock : Nat → Timespec) :
    c.read [.wouldBlock] clock ≠ .disabled := by
  refine bind_ne_disabled (recordStart_ne_disabled _ _ _) fun c' _ => ?_
  have hparse : ∃ y, tryParseHttpRequest c' [.wouldBlock] = some y := ⟨_, rfl⟩
  obtain ⟨y, hy⟩ := hparse
  rw [hy]
  exact bind_ne_disabled (ok_ne_disabled _) fun _ _ =>
    bind_ne_disabled (recordEnd_ne_disabled _ _ _) fun _ _ => ok_ne_disabled _

theorem write_ne_disabled (c : RequestContext) (clock : Nat → Timespec) :
    ∃ ws, c.write ws clock ≠ .disabled := by
  have hwrite : ∃ ws y, outputBufferWriteTo c.outputBuffer ws = some y := by
    by_cases hleft : c.outputBuffer.writeFromOffset < c.outputBuffer.writeIntoOffset
    · exact ⟨[.wouldBlock], _, if_pos hleft⟩
    · exact ⟨[], _, if_neg hleft⟩
  obtain ⟨ws, y, hy⟩ := hwrite
  refine ⟨ws, bind_ne_disabled (recordStart_ne_disabled _ _ _) fun c' hc' => ?_⟩
  obtain ⟨_, rfl⟩ := RequestContext.recordStart_eq_ok hc'
  dsimp only
  rw [hy]
  exact bind_ne_disabled (ok_ne_disabled _) fun _ _ =>
    bind_ne_disabled (recordEnd_ne_disabled _ _ _) fun _ _ => ok_ne_disabled _

theorem clientHandleRead_ne_disabled (s : State) (w : Nat) (e : Event) (rest : List Event) :
    clientHandleRead s w e rest [.wouldBlock] ≠ .disabled := by
  refine check_bind_ne_disabled fun _ => bind_ne_disabled (data_ne_disabled _) fun _ _ =>
    check_bind_ne_disabled fun c => bind_ne_disabled (read_ne_disabled c s.clock) fun y _ => ?_
  obtain ⟨state, c'⟩ := y
  cases state with
  | readFinish | readBusy => exact ok_ne_disabled _
  | readError | clientDisconnect =>
    exact bind_ne_disabled (clientCloseConnection_ne_disabled _ _) fun _ _ => ok_ne_disabled _

theorem clientHandleWrite_ne_disabled (s : State) (w : Nat) (e : Event) (rest : List Event) :
    ∃ ws, clientHandleWrite s w e rest ws ≠ .disabled := by
  -- which results of `write(2)` are possible depends on the buffer, if there is one
  obtain ⟨ws, hws⟩ : ∃ ws, ∀ context r c, s.socket e.ptr = .ok context → context.request = .ok r →
      s.request r = .ok c → c.write ws s.clock ≠ .disabled := by
    by_cases hfound : ∃ context r c, s.socket e.ptr = .ok context ∧ context.request = .ok r ∧
        s.request r = .ok c
    · obtain ⟨context, r, c, hs, hd, hr⟩ := hfound
      obtain ⟨ws, hws⟩ := write_ne_disabled c s.clock
      refine ⟨ws, fun context' r' c' hs' hd' hr' => ?_⟩
      obtain rfl := Outcome.ok.inj (hs.symm.trans hs')
      obtain rfl := Outcome.ok.inj (hd.symm.trans hd')
      obtain rfl := Outcome.ok.inj (hr.symm.trans hr')
      exact hws
    · exact ⟨[], fun context r c hs hd hr => absurd ⟨context, r, c, hs, hd, hr⟩ hfound⟩
  refine ⟨ws, bind_ne_disabled (check_ne_disabled _) fun context hs =>
    bind_ne_disabled (data_ne_disabled _) fun r hd => bind_ne_disabled (check_ne_disabled _)
    fun c hr => bind_ne_disabled (hws context r c hs hd hr) fun y _ => ?_⟩
  obtain ⟨state, bytes, c'⟩ := y
  cases state with
  | writeBusy => exact ok_ne_disabled _
  | writeError => exact bind_ne_disabled (clientCloseConnection_ne_disabled _ _) fun _ _ => ok_ne_disabled _
  | writeFinish =>
    dsimp only
    split
    · exact bind_ne_disabled (clientResetConnection_ne_disabled _ _) fun _ _ => ok_ne_disabled _
    · exact bind_ne_disabled (clientCloseConnection_ne_disabled _ _) fun _ _ => ok_ne_disabled _

theorem handleEvent_enabled (s : State) (w : Nat) (e : Event) (rest : List Event) :
    ∃ act, (Label.worker w act).inner = true ∧ handleEvent s w e rest act ≠ .disabled := by
  by_cases hread : e.events.error = false ∧ e.events.epollin = true ∧
      ∃ context, s.sockets e.ptr = some context ∧ context.inputHandler = some .clientHandleRead
  · obtain ⟨herror, hin, context, hs, hhandler⟩ := hread
    refine ⟨.read [.wouldBlock], rfl, ?_⟩
    simp only [handleEvent, herror, hin, Bool.not_true, Bool.or_self, Bool.false_eq_true, if_false,
      State.socket_eq hs, ok_bind, hhandler, if_true]
    exact clientHandleRead_ne_disabled s w e rest
  · refine ⟨.next, rfl, ?_⟩
    simp only [handleEvent]
    split
    · refine check_bind_ne_disabled fun context => ?_
      split
      · exact ok_ne_disabled _
      · exact halt_ne_disabled _
      · exact bind_ne_disabled (clientCloseConnection_ne_disabled _ _) fun _ _ => ok_ne_disabled _
    · split
      · refine bind_ne_disabled (check_ne_disabled _) fun context hs => ?_
        split
        · exact ok_ne_disabled _
        · exact ok_ne_disabled _
        · rename_i herror hin _ hhandler
          exact absurd ⟨by simpa using herror, hin, context, check_eq_ok.mp hs, hhandler⟩ hread
      · exact ok_ne_disabled _

theorem handleOutput_enabled (s : State) (w : Nat) (e : Event) (rest : List Event) :
    ∃ act, (Label.worker w act).inner = true ∧ handleOutput s w e rest act ≠ .disabled := by
  by_cases hwrite : e.events.epollout = true ∧
      ∃ context, s.sockets e.ptr = some context ∧ context.outputHandler = some .clientHandleWrite
  · obtain ⟨hout, context, hs, hhandler⟩ := hwrite
    obtain ⟨ws, hws⟩ := clientHandleWrite_ne_disabled s w e rest
    refine ⟨.write ws, rfl, ?_⟩
    simp only [handleOutput, hout, if_true, State.socket_eq hs, ok_bind, hhandler]
    exact hws
  · refine ⟨.next, rfl, ?_⟩
    simp only [handleOutput]
    split
    · refine bind_ne_disabled (check_ne_disabled _) fun context hs => ?_
      split
      · exact ok_ne_disabled _
      · rename_i hout _ hhandler
        exact absurd ⟨hout, context, check_eq_ok.mp hs, hhandler⟩ hwrite
    · exact ok_ne_disabled _

theorem clientDispatch_ne_disabled (s : State) (w : Nat) (point : Dispatch) (r : Nat) (e : Event)
    (rest : List Event) : clientDispatch cfg s w point r e rest ≠ .disabled := by
  cases point with
  | load | store => exact nofun
  | delete =>
    exact check_bind_ne_disabled fun _ => check_bind_ne_disabled fun _ =>
      bind_ne_disabled ite_ne_disabled fun _ _ => ok_ne_disabled _
  | push =>
    refine check_bind_ne_disabled fun _ => check_bind_ne_disabled fun _ =>
      bind_ne_disabled (recordStart_ne_disabled _ _ _) fun _ _ => check_bind_ne_disabled fun y => ?_
    dsimp only
    split <;> exact nofun

/-- A worker that does not wait can go on. -/
theorem ioEventLoop_enabled (hpc : s.workers w ≠ .waiting) :
    ∃ act, (Label.worker w act).inner = true ∧ ioEventLoop cfg s w act ≠ .disabled := by
  cases hw : s.workers w with
  | waiting => exact absurd hw hpc
  | batch events =>
    cases events with
    | nil => exact ⟨.next, rfl, by simp [ioEventLoop, hw]⟩
    | cons e rest =>
      obtain ⟨act, hinner, hgoes⟩ := handleEvent_enabled s w e rest
      refine ⟨act, hinner, ?_⟩
      simpa only [ioEventLoop, hw] using hgoes
  | output e rest =>
    obtain ⟨act, hinner, hgoes⟩ := handleOutput_enabled s w e rest
    refine ⟨act, hinner, ?_⟩
    simpa only [ioEventLoop, hw] using hgoes
  | accepting e rest => exact ⟨.acceptBlock, rfl, by simp [ioEventLoop, hw]⟩
  | dispatching point r e rest =>
    refine ⟨.next, rfl, ?_⟩
    simpa only [ioEventLoop, hw] using clientDispatch_ne_disabled s w point r e rest

theorem process_ne_disabled (c : RequestContext) (clock : Nat → Timespec) :
    c.process clock ≠ .disabled :=
  bind_ne_disabled (recordEnd_ne_disabled _ _ _) fun _ _ =>
    bind_ne_disabled (recordStart_ne_disabled _ _ _) fun _ _ =>
    check_bind_ne_disabled fun _ => recordEnd_ne_disabled _ _ _

/-- An actor goes on unless it waits and nothing is announced to it. -/
theorem runActor_enabled (h : s.actors a ≠ .waiting ∨ ∃ w < cfg.workerCount, 0 < s.events a w) :
    ∃ act, (Label.actor a act).inner = true ∧ runActor cfg s a act ≠ .disabled := by
  cases ha : s.actors a with
  | waiting =>
    obtain h | ⟨w, hw, hpos⟩ := h
    · exact absurd ha h
    · have hready : ∀ w' ∈ [w], w' < cfg.workerCount ∧ 0 < (s.queues a w').addEvent := by
        intro w' hw'
        rw [List.mem_singleton.mp hw']
        exact ⟨hw, hpos⟩
      refine ⟨.wait [w], rfl, ?_⟩
      simp only [runActor, ha]
      rw [if_pos ⟨by simp, by simp, hready⟩]
      exact ok_ne_disabled _
  | ready queues =>
    refine ⟨.next, rfl, ?_⟩
    cases queues with
    | nil => simp [runActor, ha]
    | cons w rest =>
      simp only [runActor, ha]
      split <;> exact ok_ne_disabled _
  | popping w owed rest =>
    refine ⟨.next, rfl, ?_⟩
    cases owed with
    | zero => simp [runActor, ha]
    | succ owed =>
      simp only [runActor, ha]
      split <;> exact ok_ne_disabled _
  | popped w owed rest r =>
    refine ⟨.next, rfl, ?_⟩
    simp only [runActor, ha]
    exact check_bind_ne_disabled fun _ => bind_ne_disabled (process_ne_disabled _ _) fun _ _ => ok_ne_disabled _
  | handled w owed rest r =>
    refine ⟨.next, rfl, ?_⟩
    simp only [runActor, ha]
    refine bind_ne_disabled ?_ fun _ _ => ok_ne_disabled _
    exact check_bind_ne_disabled fun _ => ite_ne_disabled

theorem step_isSome (hrunning : s.halted = none) (hstep : threadStep cfg s l ≠ .disabled) :
    ((server cfg).step s l).isSome = true := by
  simp only [server, hrunning, if_true]
  cases hthread : threadStep cfg s l with
  | disabled => exact absurd hthread hstep
  | halt | ok => rfl

/-- A connection is closed only while no request of it is in service. -/
theorem requests_of_closed {r : Nat} {act : ConnectionAct} {x : Connection} {tr obs : List Obs}
    (h : x.Progress r tr) (hs : x.step r act = .ok (.closed, obs)) :
    requests r (tr ++ obs) = parsed r (tr ++ obs) := by
  cases Connection.step_cases hs with
  | readFail => simpa using h.1.requests
  | writeFail => simpa using h.1
  | writeClose => simpa using h.1

theorem connections_closed {tr : List Obs} (h : connections.Run k tr) :
    ∀ r, k r = .closed → requests r tr = parsed r tr := by
  induction h with
  | start hi =>
    intro r hr
    rw [hi r] at hr
    cases hr
  | @next k _ tr _ l hrun hs ih =>
    have hprogress := (connections_progress hrun).1
    obtain ⟨r, act⟩ := l
    simp only [connections] at hs
    split at hs
    case h_2 => cases hs
    case h_1 x o hx =>
      cases hs
      intro r' hr'
      by_cases hrr : r' = r
      · subst hrr
        rw [Function.update_self] at hr'
        subst hr'
        exact requests_of_closed (hprogress r') hx
      · rw [Function.update_of_ne hrr] at hr'
        cases (hprogress r).step hx with
        | silent => simpa using ih r' hr'
        | one _ hon =>
          obtain ⟨hparsed, hrequests, -, -⟩ := @Trace.frame r r' tr _ hon hrr
          rw [hparsed, hrequests, ih r' hr']

/-- The threads wait and nothing is queued. Every connection is registered with its
worker, for reading when all its responses are written, and every request that was read
has been handled. -/
structure AtRest (s : State) (tr : List Obs) : Prop where
  workers : ∀ w, s.workers w = .waiting
  actors : ∀ a, s.actors a = .waiting
  queues : ∀ a w, s.waiting a w = [] ∧ s.events a w = 0
  registered : ∀ r c, s.requests r = some c →
    Registered s r c .input ∧ written r tr = (responses r tr).flatten ∨ Registered s r c .output
  handled : ∀ r, requests r tr = parsed r tr

/-- The stages of connections when no thread and no queue has one. -/
theorem Owned.stage_of_rest {r : Nat} {st : Stage} {c : RequestContext} (h : Owned cfg s k)
    (hworkers : ∀ w, s.workers w = .waiting) (hactors : ∀ a, s.actors a = .waiting)
    (hqueues : ∀ a w, s.waiting a w = []) (hk : k r = .live st c) : st = .input ∨ st = .output := by
  have hplace : (k r).place = some (st, c.epollInfo) := by rw [hk, Connection.place]
  have hworker : st.atWorker ≠ true := by
    intro hat
    have hhand := (h.handed.workers c.epollInfo st r).mpr ⟨hplace, hat⟩
    rw [hworkers] at hhand
    cases hhand
  have hactor : ∀ a, st.atActor ≠ some a := by
    intro a hat
    have hhand := (h.handed.actors a st r).mpr ⟨⟨_, hplace⟩, hat⟩
    rw [hactors] at hhand
    cases hhand
  cases st with
  | input => exact .inl rfl
  | output => exact .inr rfl
  | parsed | deleted => exact absurd rfl hworker
  | held a | handled a => exact absurd rfl (hactor a)
  | queued a =>
    have hmem := (h.handed.queues a c.epollInfo r).mpr hplace
    rw [hqueues] at hmem
    cases hmem

theorem atRest_of_stuck {tr : List Obs} (h : (server cfg).Run s tr) (hrunning : s.halted = none)
    (hstuck : ∀ l, l.inner = true → ((server cfg).step s l).isSome = false) : AtRest s tr := by
  obtain ⟨-, -, -, hacc⟩ := server_accounted h
  obtain ⟨k, hk, howned⟩ := server_simulates h
  have hprogress := (connections_progress hk).1
  have hnext : ∀ l, l.inner = true → threadStep cfg s l = .disabled := by
    intro l hl
    by_contra hgoes
    have hstep := step_isSome hrunning hgoes
    rw [hstuck l hl] at hstep
    cases hstep
  have hworkers : ∀ w, s.workers w = .waiting := by
    intro w
    by_contra hpc
    by_cases hw : w < cfg.workerCount
    · obtain ⟨act, hinner, hgoes⟩ := @ioEventLoop_enabled cfg s w hpc
      have hnone := hnext (.worker w act) hinner
      rw [threadStep, if_pos hw] at hnone
      exact hgoes hnone
    · exact hpc (hacc.workers w (Nat.le_of_not_lt hw))
  have hquiet : ∀ a < cfg.actorCount,
      ¬ (s.actors a ≠ .waiting ∨ ∃ w < cfg.workerCount, 0 < s.events a w) := by
    intro a ha hbusy
    obtain ⟨act, hinner, hgoes⟩ := runActor_enabled hbusy
    have hnone := hnext (.actor a act) hinner
    rw [threadStep, if_pos ha] at hnone
    exact hgoes hnone
  have hactors : ∀ a, s.actors a = .waiting := by
    intro a
    by_cases ha : a < cfg.actorCount
    · by_contra hpc
      exact hquiet a ha (.inl hpc)
    · exact hacc.actors a (Nat.le_of_not_lt ha)
  have hqueues : ∀ a w, s.waiting a w = [] ∧ s.events a w = 0 := by
    intro a w
    have hevents := hacc.events a w
    have howed : (s.actors a).owedTo w = 0 := by rw [hactors]; rfl
    by_cases hin : a < cfg.actorCount ∧ w < cfg.workerCount
    · have hzero : s.events a w = 0 := by
        by_contra hpos
        exact hquiet a hin.1 (.inr ⟨w, hin.2, Nat.pos_of_ne_zero hpos⟩)
      exact ⟨List.eq_nil_of_length_eq_zero (by omega), hzero⟩
    · have hempty := hacc.queues a w (by omega)
      rw [hempty, List.length_nil] at hevents
      exact ⟨hempty, by omega⟩
  have hstage : ∀ r st c, k r = .live st c → st = .input ∨ st = .output := fun r st c =>
    howned.stage_of_rest hworkers hactors fun a w => (hqueues a w).1
  refine ⟨hworkers, hactors, hqueues, ?_, ?_⟩
  · intro r c hr
    rw [howned.wired.requests] at hr
    have hpr := hprogress r
    cases hkr : k r with
    | unborn | closed =>
      rw [hkr] at hr
      cases hr
    | live st c' =>
      rw [hkr] at hr hpr
      cases hr
      have hreg := howned.wired.registered r st c hkr
      rcases hstage r st c hkr with rfl | rfl
      · exact .inl ⟨hreg, hpr.1.written⟩
      · exact .inr hreg
  · intro r
    have hpr := hprogress r
    cases hkr : k r with
    | unborn =>
      rw [hkr] at hpr
      exact hpr.requests
    | closed => exact connections_closed hk r hkr
    | live st c =>
      rw [hkr] at hpr
      rcases hstage r st c hkr with rfl | rfl
      · exact hpr.1.requests
      · exact hpr.1

/-- From every state of a run, whichever order the threads then run in, they take no
more than `work` steps without anything from outside, and as long as the process has
not ended they can go on until the server is at rest. -/
theorem server_comes_to_rest {tr obs : List Obs} {ls : List Label} (h : (server cfg).Run s tr)
    (hls : ∀ l ∈ ls, l.inner = true) (he : (server cfg).exec s ls = some (t, obs)) :
    ls.length ≤ s.work cfg ∧ (t.halted ≠ none ∨ AtRest t (tr ++ obs) ∨
      ∃ l, l.inner = true ∧ ((server cfg).step t l).isSome = true) := by
  have hlength := h.exec_length_le (State.work cfg) (fun _ _ _ _ _ => work_lt) hls he
  refine ⟨by omega, ?_⟩
  by_cases hrunning : t.halted = none
  · by_cases hgoes : ∃ l, l.inner = true ∧ ((server cfg).step t l).isSome = true
    · exact .inr (.inr hgoes)
    · refine .inr (.inl (atRest_of_stuck (h.exec he) hrunning fun l hl => ?_))
      exact Bool.eq_false_iff.mpr fun hsome => hgoes ⟨l, hl, hsome⟩
  · exact .inl hrunning

end

/-- The worker has a batch with one readable connection, whose request it reads. The
threads of the small server then go on until all of them wait again. -/
theorem server_comes_to_rest_get : ∃ s tr ls t obs, (server smallConfig).Run s tr ∧
    ls.length = 14 ∧ (∀ l ∈ ls, l.inner = true) ∧
    (server smallConfig).exec s ls = some (t, obs) ∧ ls.length ≤ s.work smallConfig ∧
    (parsed 1 (tr ++ obs)).length = 1 ∧ (requests 1 (tr ++ obs)).length = 1 ∧
    (t.halted ≠ none ∨ AtRest t (tr ++ obs) ∨
      ∃ l, l.inner = true ∧ ((server smallConfig).step t l).isSome = true) := by
  let ls : List Label :=
    [.worker 0 (.read plainGet), .worker 0 .next, .worker 0 .next, .worker 0 .next, .worker 0 .next,
      .worker 0 .next, .actor 0 (.wait [0]), .actor 0 .next, .actor 0 .next, .actor 0 .next,
      .actor 0 .next, .actor 0 .next, .actor 0 .next, .actor 0 .next]
  have hexec : ((server smallConfig).exec (initState smallConfig fun _ => ⟨0, 0⟩)
      ((acceptLabels 4 ++ [.worker 0 (.wait [readable 4 2])]) ++ ls)).any (fun x =>
      (parsed 1 x.2).length = 1 ∧ (requests 1 x.2).length = 1) = true := by
    decide +kernel
  obtain ⟨⟨t, tr'⟩, ht, htr⟩ := (Option.any_eq_true _ _).mp hexec
  obtain ⟨hparsed, hrequests⟩ := of_decide_eq_true htr
  obtain ⟨s, tr, obs, hs, he, rfl⟩ := Machine.exec_append.mp ht
  have hrun := server_run_exec hs
  have hinner : ∀ l ∈ ls, l.inner = true := by decide
  obtain ⟨hlength, hrest⟩ := server_comes_to_rest hrun hinner he
  exact ⟨s, tr, ls, t, obs, hrun, rfl, hinner, he, hlength, hparsed, hrequests, hrest⟩

end Jullop
