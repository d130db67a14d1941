import Jullop.BackPressure

/-! The threads and the queues between them along a run. What an actor has yet to
take from a queue and what the event counter of the queue announces are together the
requests in the queue, so that no request is forgotten in it. What a thread has yet to
do gets less with each of its steps, unless something comes from outside. -/

namespace Jullop

open Outcome

/-- The pointers that an actor has yet to pop from the queue of the worker `w` in the
inner loop of `process_epoll_event`. -/
def ActorPc.owedTo (w : Nat) : ActorPc → Nat
  | .popping queue owed _ | .popped queue owed _ _ | .handled queue owed _ _ =>
    if queue = w then owed else 0
  | _ => 0

def State.SameTraffic (s t : State) : Prop :=
  t.workers = s.workers ∧ t.actors = s.actors ∧ t.queues = s.queues

def State.events (s : State) (a w : Nat) : Nat := (s.queues a w).addEvent

/-- A step that takes nothing from outside: no batch of events, no connection. An
actor that wakes finds something to read. -/
def Label.inner : Label → Bool
  | .worker _ (.wait _) | .worker _ (.accept _ _ _) | .actor _ (.wait []) => false
  | .actor _ .waitFail => false
  | _ => true

def Dispatch.work : Dispatch → Nat
  | .delete => 33
  | .load => 32
  | .store _ => 31
  | .push _ => 30

/-- A bound for the steps that a worker and, for the requests of its batch, the actors
take before they wait again. -/
def WorkerPc.work : WorkerPc → Nat
  | .waiting => 0
  | .batch events => 1 + 40 * events.length
  | .output _ rest => 2 + 40 * rest.length
  | .accepting _ rest => 3 + 40 * rest.length
  | .dispatching point _ _ rest => point.work + 40 * rest.length

/-- The same for an actor. To wait again counts as work when no event is left that
pays for it. -/
def ActorPc.work (events : Nat → Nat) : ActorPc → Nat
  | .waiting => 22
  | .ready queues => 1 + 2 * queues.length + if queues.any (0 < events ·) then 0 else 22
  | .popping _ owed rest => 26 + 2 * rest.length + 3 * owed
  | .popped _ owed rest _ => 28 + 2 * rest.length + 3 * owed
  | .handled _ owed rest _ => 27 + 2 * rest.length + 3 * owed

/-- What a step can do to the threads and the queues. -/
inductive Traffic (cfg : Config) (s : State) (l : Label) (t : State) : Prop
  | worker {w : Nat} (hw : w < cfg.workerCount) (pc : WorkerPc)
      (hwork : l.inner = true → pc.work < (s.workers w).work) (h : (s.setWorker w pc).SameTraffic t)
  | push {w r count : Nat} {e : Event} {rest : List Event} {q : LockQueue.Queue Nat}
      (hw : w < cfg.workerCount) (hpc : s.workers w = .dispatching (.push count) r e rest)
      (hq : LockQueue.queuePush (s.queues (count % cfg.actorCount) w) r = some (.queueSuccess, q))
      (h : ((s.setQueue (count % cfg.actorCount) w q).setWorker w (.output e rest)).SameTraffic t)
  | actor {a : Nat} (ha : a < cfg.actorCount) (pc : ActorPc)
      (howed : ∀ w, pc.owedTo w = (s.actors a).owedTo w)
      (hwork : l.inner = true → pc.work (s.events a) < (s.actors a).work (s.events a))
      (h : (s.setActor a pc).SameTraffic t)
  | read {a w numToRead event : Nat} {rest : List Nat} (ha : a < cfg.actorCount)
      (hpc : s.actors a = .ready (w :: rest))
      (hq : eventfdRead (s.queues a w).addEvent = some (numToRead, event))
      (h : ((s.setQueue a w { s.queues a w with addEvent := event }).setActor a
        (.popping w numToRead rest)).SameTraffic t)
  | pop {a w owed : Nat} {rest : List Nat} {r : Nat} (ha : a < cfg.actorCount)
      (hpc : s.actors a = .popping w (owed + 1) rest)
      (hq : (LockQueue.queuePop (s.queues a w)).1 = some r)
      (h : ((s.setQueue a w (LockQueue.queuePop (s.queues a w)).2).setActor a
        (.popped w owed rest r)).SameTraffic t)
  | popNull {a w owed : Nat} {rest : List Nat} (ha : a < cfg.actorCount)
      (hpc : s.actors a = .popping w (owed + 1) rest)
      (hq : (LockQueue.queuePop (s.queues a w)).1 = none)
      (h : ((s.setQueue a w (LockQueue.queuePop (s.queues a w)).2).setActor a
        (.ready rest)).SameTraffic t)

section

variable {cfg : Config} {s t : State} {l : Label} {r w : Nat} {e : Event} {rest : List Event}

theorem State.SameTraffic.refl (s : State) : s.SameTraffic s := ⟨rfl, rfl, rfl⟩

/-- Why the process can end: a worker has a request for an actor whose queue is full,
the listening socket fails, an actor fails to wait, or the length of a path does not fit
its array. -/
inductive Exits (cfg : Config) (s : State) : Halt → Prop
  | queue (h : Overloaded cfg s) : Exits cfg s .queueCheck
  | accept {w : Nat} {e : Event} {rest : List Event} (hw : w < cfg.workerCount)
      (hpc : s.workers w = .accepting e rest) : Exits cfg s .acceptCheck
  | listener {w : Nat} {e : Event} {rest : List Event} {context : SocketContext}
      (hw : w < cfg.workerCount) (hpc : s.workers w = .batch (e :: rest))
      (herror : e.events.error = true) (hs : s.sockets e.ptr = some context)
      (hhandler : context.errorHandler = some .handleAcceptError) : Exits cfg s .acceptCheck
  | wait {a : Nat} (ha : a < cfg.actorCount) (hpc : s.actors a = .waiting) :
    Exits cfg s .waitCheck
  | response {a w owed r : Nat} {rest : List Nat} {c : RequestContext} (ha : a < cfg.actorCount)
      (hpc : s.actors a = .popped w owed rest r) (hr : s.requests r = some c)
      (hlen : 10 ^ 9 ≤ c.pathLen) : Exits cfg s .responseCheck

theorem Walk.work_lt {act : WorkerAct} {pc pc' : WorkerPc} (h : Walk cfg w pc act pc') :
    pc'.work < pc.work := by
  cases h <;> simp only [WorkerPc.work, List.length_cons] <;> omega

theorem ActorWalk.owed {a : Nat} {act : ActorAct} {pc pc' : ActorPc}
    (h : ActorWalk cfg s a pc act pc') (w : Nat) : pc'.owedTo w = pc.owedTo w := by
  cases h <;> simp [ActorPc.owedTo]

/-- An actor that wakes has an event that pays for its way back. -/
theorem ActorWalk.work_lt {a : Nat} {act : ActorAct} {pc pc' : ActorPc}
    (h : ActorWalk cfg s a pc act pc') (hinner : (Label.actor a act).inner = true) :
    pc'.work (s.events a) < pc.work (s.events a) := by
  cases h with
  | @wait queues hlen hready =>
    cases queues with
    | nil => cases hinner
    | cons w rest =>
      have hpos : 0 < s.events a w := (hready w (List.mem_cons_self ..)).2
      simp only [ActorPc.work, List.any_cons, hpos, decide_true, Bool.true_or, if_true,
        List.length_cons] at hlen ⊢
      omega
  | finish => simp [ActorPc.work]
  | unread hread =>
    have hzero : s.events a _ = 0 := eventfdRead_eq_none hread
    simp [ActorPc.work, hzero]
  | again =>
    simp only [ActorPc.work, List.length_cons]
    split <;> omega

theorem Steps.traffic {k : Nat → Connection} {obs : List Obs} (h : Steps cfg s k l t obs) :
    Traffic cfg s l t := by
  cases h with
  | wait hw => exact .worker hw _ nofun ⟨rfl, rfl, rfl⟩
  | walk hw hwalk => exact .worker hw _ (fun _ => hwalk.work_lt) ⟨rfl, rfl, rfl⟩
  | fail hw hpc | parse hw hpc | read hw hpc | readClose hw hpc | delete hw hpc | load hw hpc
  | store hw hpc | write hw hpc | writeClose hw hpc | reset hw hpc =>
    refine .worker hw _ (fun _ => ?_) ⟨rfl, rfl, rfl⟩
    simp only [hpc, WorkerPc.work, Dispatch.work, List.length_cons]
    omega
  | @accept w _ _ _ _ _ _ hw =>
    exact .worker hw (s.workers w) nofun ⟨(Function.update_eq_self _ _).symm, rfl, rfl⟩
  | push hw hpc _ hworker _ _ hpush =>
    subst hworker
    exact .push hw hpc hpush ⟨rfl, rfl, rfl⟩
  | actorWalk ha hwalk => exact .actor ha _ hwalk.owed hwalk.work_lt ⟨rfl, rfl, rfl⟩
  | eventRead ha hpc hread => exact .read ha hpc hread ⟨rfl, rfl, rfl⟩
  | popNull ha hpc hpop =>
    refine .popNull ha hpc (by rw [hpop]) ?_
    rw [hpop, State.setQueue_self]
    exact .refl _
  | pop ha hpc hpop =>
    refine .pop ha hpc (by rw [hpop]) ?_
    rw [hpop]
    exact .refl _
  | process ha hpc | register ha hpc =>
    refine .actor ha _ (by simp [hpc, ActorPc.owedTo]) (fun _ => ?_) ⟨rfl, rfl, rfl⟩
    simp only [hpc, ActorPc.work]
    omega

/-- Every request in a queue is announced or owed, and only the threads that there are
do anything. -/
structure Accounted (cfg : Config) (s : State) : Prop where
  events : ∀ a w, s.events a w + (s.actors a).owedTo w = (s.waiting a w).length
  workers : ∀ w, cfg.workerCount ≤ w → s.workers w = .waiting
  actors : ∀ a, cfg.actorCount ≤ a → s.actors a = .waiting
  queues : ∀ a w, cfg.actorCount ≤ a ∨ cfg.workerCount ≤ w → s.waiting a w = []

theorem State.SameTraffic.waiting (h : s.SameTraffic t) (a w : Nat) : t.waiting a w = s.waiting a w := by
  rw [State.waiting, State.waiting, h.2.2]

theorem State.SameTraffic.events (h : s.SameTraffic t) (a w : Nat) : t.events a w = s.events a w := by
  rw [State.events, State.events, h.2.2]

theorem State.setQueue_events (s : State) (a w : Nat) (q : LockQueue.Queue Nat) (a' w' : Nat) :
    (s.setQueue a w q).events a' w' = if a' = a ∧ w' = w then q.addEvent else s.events a' w' := by
  rw [State.events, State.setQueue_queues]
  split <;> rfl

theorem Accounted.congr (h : Accounted cfg s) (hsame : s.SameTraffic t) : Accounted cfg t := by
  refine ⟨?_, ?_, ?_, ?_⟩
  · intro a w
    rw [hsame.waiting, hsame.2.1, hsame.events, h.events]
  · rw [hsame.1]
    exact h.workers
  · rw [hsame.2.1]
    exact h.actors
  · intro a w hout
    rw [hsame.waiting, h.queues a w hout]

theorem Accounted.setWorker (h : Accounted cfg s) (hw : w < cfg.workerCount) (pc : WorkerPc) :
    Accounted cfg (s.setWorker w pc) := by
  refine ⟨h.events, ?_, h.actors, h.queues⟩
  intro w' hw'
  have hpc : (s.setWorker w pc).workers w' = s.workers w' := Function.update_of_ne (by omega) _ _
  rw [hpc, h.workers w' hw']

theorem Accounted.setActor {a : Nat} {pc : ActorPc} (h : Accounted cfg s) (ha : a < cfg.actorCount)
    (howed : ∀ w, pc.owedTo w = (s.actors a).owedTo w) : Accounted cfg (s.setActor a pc) := by
  refine ⟨?_, h.workers, ?_, h.queues⟩
  · intro a' w'
    by_cases haa : a' = a
    · subst haa
      have hpc : (s.setActor a' pc).actors a' = pc := Function.update_self _ _ _
      rw [hpc, howed]
      exact h.events a' w'
    · have hpc : (s.setActor a pc).actors a' = s.actors a' := Function.update_of_ne haa _ _
      rw [hpc]
      exact h.events a' w'
  · intro a' ha'
    have hpc : (s.setActor a pc).actors a' = s.actors a' := Function.update_of_ne (by omega) _ _
    rw [hpc, h.actors a' ha']

/-- A change to one queue, with what its actor then owes to it. -/
theorem Accounted.setQueue {a : Nat} {q : LockQueue.Queue Nat} {items : List Nat} {pc : ActorPc}
    (h : Accounted cfg s) (ha : a < cfg.actorCount)
    (hout : cfg.workerCount ≤ w → items = []) (hq : LockQueue.Represents q items)
    (hevents : q.addEvent + pc.owedTo w = items.length)
    (hother : ∀ w', w' ≠ w → pc.owedTo w' = (s.actors a).owedTo w') :
    Accounted cfg ((s.setQueue a w q).setActor a pc) := by
  have hwaiting : ∀ a' w', ((s.setQueue a w q).setActor a pc).waiting a' w' =
      if a' = a ∧ w' = w then items else s.waiting a' w' := State.setQueue_waiting hq
  have hset : ∀ a' w', ((s.setQueue a w q).setActor a pc).events a' w' =
      if a' = a ∧ w' = w then q.addEvent else s.events a' w' := State.setQueue_events s a w q
  refine ⟨?_, h.workers, ?_, ?_⟩
  · intro a' w'
    rw [hwaiting, hset]
    by_cases haa : a' = a
    · subst haa
      have hpc : ((s.setQueue a' w q).setActor a' pc).actors a' = pc := Function.update_self _ _ _
      rw [hpc]
      by_cases hww : w' = w
      · subst hww
        simpa using hevents
      · simp only [hww, and_false, if_false, hother w' hww, h.events]
    · have hpc : ((s.setQueue a w q).setActor a pc).actors a' = s.actors a' :=
        Function.update_of_ne haa _ _
      simp only [haa, false_and, if_false, hpc, h.events]
  · intro a' ha'
    have hpc : ((s.setQueue a w q).setActor a pc).actors a' = s.actors a' :=
      Function.update_of_ne (by omega) _ _
    rw [hpc, h.actors a' ha']
  · intro a' w' hout'
    rw [hwaiting]
    split
    · rename_i hat
      exact hout (by omega)
    · exact h.queues a' w' hout'

theorem Accounted.step (h : Accounted cfg s) (hq : Queued s) (ht : Traffic cfg s l t) :
    Accounted cfg t := by
  cases ht with
  | worker hw pc _ hsame => exact (h.setWorker hw pc).congr hsame
  | @push w r count e rest q hw hpc hpush hsame =>
    have ha := Nat.mod_lt count cfg.actor_pos
    generalize count % cfg.actorCount = a at ha hpush hsame
    have hrep := hq.represents a w
    have hroom : (s.waiting a w).length ≠ (s.queues a w).maxSize := by
      intro hfull
      rw [LockQueue.queuePush_of_full hrep hfull] at hpush
      cases hpush
    obtain ⟨-, hrep', -, hevent⟩ := LockQueue.queuePush_of_not_full hrep hroom hpush
    have hevents : (s.queues a w).addEvent + _ = _ := h.events a w
    have hset : Accounted cfg ((s.setQueue a w q).setActor a (s.actors a)) := by
      refine h.setQueue ha (fun hout => ?_) hrep' ?_ fun _ _ => rfl
      · omega
      · rw [hevent, List.length_append, List.length_singleton]
        omega
    have hself : ((s.setQueue a w q).setActor a (s.actors a)).SameTraffic (s.setQueue a w q) :=
      ⟨rfl, (Function.update_eq_self a s.actors).symm, rfl⟩
    exact ((hset.congr hself).setWorker hw _).congr hsame
  | actor ha pc howed _ hsame => exact (h.setActor ha howed).congr hsame
  | @read a w n event rest ha hpc hread hsame =>
    have hevents : (s.queues a w).addEvent + _ = _ := h.events a w
    have hidle : (s.actors a).owedTo w = 0 := by rw [hpc]; rfl
    have hn := eventfdRead_eq_some hread
    refine (h.setQueue ha ?_ ((hq.represents a w).setEvent event) ?_ ?_).congr hsame
    · exact fun hout => h.queues a w (.inr hout)
    · simp only [ActorPc.owedTo, if_true]
      omega
    · intro w' hw'
      simp [hpc, ActorPc.owedTo, Ne.symm hw']
  | @pop a w owed rest r ha hpc hpop hsame =>
    have hevents : (s.queues a w).addEvent + _ = _ := h.events a w
    have howed : (s.actors a).owedTo w = owed + 1 := by rw [hpc]; exact if_pos rfl
    obtain ⟨hhead, hrep, -, hevent⟩ := LockQueue.queuePop_represents (hq.represents a w)
    refine (h.setQueue ha ?_ hrep ?_ ?_).congr hsame
    · intro hout
      rw [h.queues a w (.inr hout)]
      rfl
    · rw [hevent, List.length_tail]
      simp only [ActorPc.owedTo, if_true]
      omega
    · intro w' hw'
      simp [hpc, ActorPc.owedTo, Ne.symm hw']
  | @popNull a w owed rest ha hpc hpop hsame =>
    -- what is owed is there
    have hevents : (s.queues a w).addEvent + _ = _ := h.events a w
    have howed : (s.actors a).owedTo w = owed + 1 := by rw [hpc]; exact if_pos rfl
    obtain ⟨hhead, -, -, -⟩ := LockQueue.queuePop_represents (hq.represents a w)
    rw [hpop] at hhead
    rw [List.head?_eq_none_iff.mp hhead.symm, List.length_nil] at hevents
    omega

theorem Accounted.event_lt (h : Accounted cfg s) (hq : Queued s) (a w : Nat) :
    s.events a w < eventfdMax := by
  have hevents := h.events a w
  have hlength := (hq.represents a w).size
  have hsize := (hq.represents a w).size_le
  rw [hq.maxSize] at hsize
  have hmax : 1024 < eventfdMax := by decide
  omega

/-- Events that are counted have room. -/
theorem Ends.exits {e : Halt} (h : Ends cfg s l e) (hevent : ∀ a w, s.events a w < eventfdMax) :
    Exits cfg s e := by
  cases h with
  | queue hw hpc hs hfull => exact .queue (Ends.queue hw hpc hs hfull).overloaded
  | event _ _ hfull => exact absurd (hevent _ _) (Nat.not_lt.mpr hfull)
  | listener hw hpc herror hs hhandler => exact .listener hw hpc herror hs hhandler
  | accept hw hpc => exact .accept hw hpc
  | wait ha hpc => exact .wait ha hpc
  | response ha hpc hr hlen => exact .response ha hpc hr hlen

/-- How a step of the server goes on or ends the process. -/
theorem server_step_travels {k : Nat → Connection} {obs : List Obs}
    (h : Owned cfg s k) (htimed : AllTimed k) (hacc : Accounted cfg s)
    (hstep : (server cfg).step s l = some (t, obs)) :
    s.halted = none ∧ (t.halted = none ∧ Traffic cfg s l t ∨
      ∃ e, t = { s with halted := some e } ∧ Exits cfg s e) := by
  obtain ⟨hrunning, hsteps | ⟨e, hends, rfl, -⟩⟩ := server_step_cases h htimed hstep
  · exact ⟨hrunning, .inl ⟨hsteps.halted.trans hrunning, hsteps.traffic⟩⟩
  · exact ⟨hrunning, .inr ⟨e, rfl, hends.exits (hacc.event_lt h.queued)⟩⟩

theorem accounted_init (cfg : Config) (clock : Nat → Timespec) :
    Accounted cfg (initState cfg clock) := by
  have hwaiting : ∀ a w, (initState cfg clock).waiting a w = [] := fun a w =>
    (LockQueue.queueInit_represents 1024).contents_eq
  refine ⟨?_, fun _ _ => rfl, fun _ _ => rfl, fun a w _ => hwaiting a w⟩
  intro a w
  rw [hwaiting]
  rfl

theorem server_accounted {tr : List Obs} (h : (server cfg).Run s tr) :
    ∃ k, Owned cfg s k ∧ AllTimed k ∧ Accounted cfg s := by
  have hacc : Accounted cfg s := by
    induction h with
    | start hi =>
      obtain ⟨clock, rfl⟩ := hi
      exact accounted_init cfg clock
    | next l hrun hstep ih =>
      obtain ⟨k, -, howned, htimed⟩ := server_simulates_timed hrun
      obtain ⟨-, ⟨-, htraffic⟩ | ⟨e, rfl, -⟩⟩ := server_step_travels howned htimed ih hstep
      · exact ih.step howned.queued htraffic
      · exact ih.congr ⟨rfl, rfl, rfl⟩
  obtain ⟨k, -, howned, htimed⟩ := server_simulates_timed h
  exact ⟨k, howned, htimed, hacc⟩

theorem Exits.halt {e : Halt} (h : Exits cfg s e) : Exits cfg { s with halted := some e } e := by
  cases h with
  | queue hover => exact .queue hover
  | accept hw hpc => exact .accept hw hpc
  | listener hw hpc herror hs hhandler => exact .listener hw hpc herror hs hhandler
  | wait ha hpc => exact .wait ha hpc
  | response ha hpc hr hlen => exact .response ha hpc hr hlen

end

end Jullop
