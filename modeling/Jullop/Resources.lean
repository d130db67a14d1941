import Jullop.Allocation
import Jullop.TimerLog
import Jullop.Traffic

/-! What the server holds: the contexts of its connections, the contexts of their
sockets and the descriptors. -/

namespace Jullop

open Outcome Allocation

namespace State

def contexts (s : State) : Nat := used s.next s.requests

def socketContexts (s : State) : Nat := used s.next s.sockets

/-- The requests that no worker has, in the queue of an actor or in its hands. -/
def inTransit (cfg : Config) (s : State) (a : Nat) : Nat :=
  ((s.actors a).hand a).isSome.toNat + ∑ w ∈ Finset.range cfg.workerCount, (s.waiting a w).length

def transit (cfg : Config) (s : State) : Nat :=
  ∑ a ∈ Finset.range cfg.actorCount, s.inTransit cfg a

end State

/-- From `s` to `t` there are `d` socket contexts more than connections. -/
structure Books (s t : State) (d : Int) : Prop where
  requests_below : Below t.next t.requests
  sockets_below : Below t.next t.sockets
  active : t.stats.activeConnections - t.contexts = s.stats.activeConnections - s.contexts
  sockets : (t.socketContexts : Int) - t.contexts = s.socketContexts - s.contexts + d
  listeners : ∀ fd, t.files fd = some .listener → s.files fd = some .listener
  actors : t.actors = s.actors
  queues : t.queues = s.queues

/-- What is held is held for a connection or by a worker. -/
structure Kept (cfg : Config) (s : State) : Prop where
  requests_below : Below s.next s.requests
  sockets_below : Below s.next s.sockets
  active : s.stats.activeConnections = s.contexts
  sockets : s.socketContexts + s.transit cfg = cfg.workerCount + s.contexts
  listeners : ∀ fd, s.files fd = some .listener → ∃ w < cfg.workerCount, cfg.sockFd w = fd

section

variable {cfg : Config} {s t u : State} {d : Int} {a r w p fd : Nat} {c : RequestContext}

theorem Kept.of_books (h : Kept cfg s) (hb : Books s t d)
    (htransit : (t.transit cfg : Int) = s.transit cfg - d) : Kept cfg t := by
  have hactive := hb.active
  have hsockets := hb.sockets
  have hactive' := h.active
  have hsockets' := h.sockets
  refine ⟨hb.requests_below, hb.sockets_below, by omega, by omega, ?_⟩
  intro fd hfd
  exact h.listeners fd (hb.listeners fd hfd)

theorem transit_congr (hactors : t.actors = s.actors) (hwaiting : t.waiting = s.waiting) :
    t.transit cfg = s.transit cfg := by
  have hin : t.inTransit cfg = s.inTransit cfg := by
    funext a
    rw [State.inTransit, State.inTransit, hactors, hwaiting]
  rw [State.transit, State.transit, hin]

theorem waiting_congr (hqueues : t.queues = s.queues) : t.waiting = s.waiting := by
  funext a w
  rw [State.waiting, State.waiting, hqueues]

theorem Books.refl (h : Kept cfg s) : Books s s 0 :=
  ⟨h.requests_below, h.sockets_below, rfl, by omega, fun _ => id, rfl, rfl⟩

/-- A change to nothing that counts. -/
theorem Books.congr (h : Books s t d) (hnext : u.next = t.next) (hreq : u.requests = t.requests)
    (hsock : u.sockets = t.sockets)
    (hactive : u.stats.activeConnections = t.stats.activeConnections)
    (hfiles : u.files = t.files) (hactors : u.actors = t.actors) (hqueues : u.queues = t.queues) :
    Books s u d := by
  have hcontexts : u.contexts = t.contexts := by rw [State.contexts, State.contexts, hnext, hreq]
  have hsockets : u.socketContexts = t.socketContexts := by
    rw [State.socketContexts, State.socketContexts, hnext, hsock]
  refine ⟨?_, ?_, ?_, ?_, ?_, hactors.trans h.actors, hqueues.trans h.queues⟩
  · rw [hnext, hreq]
    exact h.requests_below
  · rw [hnext, hsock]
    exact h.sockets_below
  · rw [hactive, hcontexts, h.active]
  · rw [hsockets, hcontexts, h.sockets]
  · rw [hfiles]
    exact h.listeners

theorem Books.setRequest (h : Books s t d) (hr : t.requests r ≠ none) (c : RequestContext) :
    Books s (t.setRequest r c) d := by
  have hlt := h.requests_below.lt hr
  have hcontexts : (t.setRequest r c).contexts = t.contexts := used_write hlt hr c
  refine ⟨h.requests_below.update hlt _, h.sockets_below, ?_, ?_, h.listeners, h.actors, h.queues⟩
  · rw [hcontexts]
    exact h.active
  · rw [hcontexts]
    exact h.sockets

theorem Books.setSocket (h : Books s t d) (hp : t.sockets p ≠ none) (context : SocketContext) :
    Books s (t.setSocket p context) d := by
  have hlt := h.sockets_below.lt hp
  have hsockets : (t.setSocket p context).socketContexts = t.socketContexts := used_write hlt hp context
  refine ⟨h.requests_below, h.sockets_below.update hlt _, h.active, ?_, h.listeners, h.actors,
    h.queues⟩
  rw [hsockets]
  exact h.sockets

theorem Books.freeSocket (h : Books s t d) (hp : t.sockets p ≠ none) :
    Books s { t with sockets := Function.update t.sockets p none } (d - 1) := by
  have hlt := h.sockets_below.lt hp
  have hsockets : used t.next (Function.update t.sockets p none) + 1 = t.socketContexts :=
    used_free hlt hp
  refine ⟨h.requests_below, h.sockets_below.update hlt _, h.active, ?_, h.listeners, h.actors,
    h.queues⟩
  have hold := h.sockets
  change ((used t.next (Function.update t.sockets p none) : Nat) : Int) - t.contexts = _
  omega

theorem Books.newSocket (h : Books s t d) (context : SocketContext) :
    Books s ({ t with next := t.next + 1 }.setSocket t.next context) (d + 1) := by
  have hsockets : used (t.next + 1) (Function.update t.sockets t.next (some context)) =
      t.socketContexts + 1 := used_alloc h.sockets_below le_rfl (Nat.lt_succ_self _) context
  have hcontexts : used (t.next + 1) t.requests = t.contexts :=
    used_mono h.requests_below (Nat.le_succ _)
  refine ⟨h.requests_below.mono (Nat.le_succ _), ?_, ?_, ?_, h.listeners, h.actors, h.queues⟩
  · exact (h.sockets_below.mono (Nat.le_succ _)).update (Nat.lt_succ_self _) _
  · have hold := h.active
    change t.stats.activeConnections - (used (t.next + 1) t.requests : Nat) = _
    omega
  · have hold := h.sockets
    change ((used (t.next + 1) (Function.update t.sockets t.next (some context)) : Nat) : Int) -
      (used (t.next + 1) t.requests : Nat) = _
    omega

theorem Books.close (h : Books s t d) (hr : t.requests r ≠ none) (hp : t.sockets p ≠ none)
    (hnext : u.next = t.next) (hreq : u.requests = Function.update t.requests r none)
    (hsock : u.sockets = Function.update t.sockets p none)
    (hactive : u.stats.activeConnections = t.stats.activeConnections - 1)
    (hfiles : u.files = Function.update t.files fd none) (hactors : u.actors = t.actors)
    (hqueues : u.queues = t.queues) : Books s u d := by
  have hrlt := h.requests_below.lt hr
  have hplt := h.sockets_below.lt hp
  have hcontexts : u.contexts + 1 = t.contexts := by
    rw [State.contexts, hnext, hreq]
    exact used_free hrlt hr
  have hsockets : u.socketContexts + 1 = t.socketContexts := by
    rw [State.socketContexts, hnext, hsock]
    exact used_free hplt hp
  have hold := h.active
  have hold' := h.sockets
  refine ⟨?_, ?_, by omega, by omega, ?_, hactors.trans h.actors, hqueues.trans h.queues⟩
  · rw [hnext, hreq]
    exact h.requests_below.update hrlt _
  · rw [hnext, hsock]
    exact h.sockets_below.update hplt _
  · intro fd' hfd'
    rw [hfiles] at hfd'
    by_cases hat : fd' = fd
    · rw [hat, Function.update_self] at hfd'
      cases hfd'
    · rw [Function.update_of_ne hat] at hfd'
      exact h.listeners fd' hfd'

theorem Books.accept {context : SocketContext} {file : Nat} (h : Books s t d)
    (hnext : u.next = t.next + 2)
    (hreq : u.requests = Function.update t.requests t.next (some c))
    (hsock : u.sockets = Function.update t.sockets (t.next + 1) (some context))
    (hactive : u.stats.activeConnections = t.stats.activeConnections + 1)
    (hfiles : u.files = Function.update t.files fd (some (.connection file)))
    (hactors : u.actors = t.actors) (hqueues : u.queues = t.queues) : Books s u d := by
  have hcontexts : u.contexts = t.contexts + 1 := by
    rw [State.contexts, hnext, hreq]
    exact used_alloc h.requests_below le_rfl (by omega) c
  have hsockets : u.socketContexts = t.socketContexts + 1 := by
    rw [State.socketContexts, hnext, hsock]
    exact used_alloc h.sockets_below (by omega) (by omega) context
  have hold := h.active
  have hold' := h.sockets
  refine ⟨?_, ?_, by omega, by omega, ?_, hactors.trans h.actors, hqueues.trans h.queues⟩
  · rw [hnext, hreq]
    exact (h.requests_below.mono (by omega)).update (by omega) _
  · rw [hnext, hsock]
    exact (h.sockets_below.mono (by omega)).update (by omega) _
  · intro fd' hfd'
    rw [hfiles] at hfd'
    by_cases hat : fd' = fd
    · rw [hat, Function.update_self] at hfd'
      cases hfd'
    · rw [Function.update_of_ne hat] at hfd'
      exact h.listeners fd' hfd'

theorem Books.closeConnection {st : Stage} (h : Books s t d) (hwaits : Waits t p r st c)
    (stats : PerRequestStats) : Books s (t.closeConnection p r c stats) d :=
  h.close (hwaits.request ▸ Option.some_ne_none c) (hwaits.socket ▸ Option.some_ne_none _)
    rfl rfl rfl rfl rfl rfl rfl

theorem Books.resetConnection {st : Stage} (h : Books s t d) (hwaits : Waits t p r st c)
    (c' : RequestContext) (stats : PerRequestStats) :
    Books s (t.resetConnection p r c' stats) d := by
  have hset := (h.setRequest (hwaits.request ▸ Option.some_ne_none c) c').setSocket
    (hwaits.socket ▸ Option.some_ne_none _) (readContext r c'.epollInfo)
  exact hset.congr rfl rfl rfl rfl rfl rfl rfl

/-- The handler of a time keeps its context. -/
theorem Kept.tick_setRequest (h : Kept cfg s) (hr : s.requests r = some c) (n : Nat)
    (c' : RequestContext) : Books s ((s.tick n).setRequest r c') 0 := by
  have htick : Books s (s.tick n) 0 := (Books.refl h).congr rfl rfl rfl rfl rfl rfl rfl
  exact htick.setRequest (hr ▸ Option.some_ne_none c) c'

theorem Kept.setWorker (h : Kept cfg s) (hb : Books s t 0) (pc : WorkerPc) :
    Kept cfg (t.setWorker w pc) := by
  have hset : Books s (t.setWorker w pc) 0 := hb.congr rfl rfl rfl rfl rfl rfl rfl
  refine h.of_books hset ?_
  rw [transit_congr hset.actors (waiting_congr hset.queues)]
  omega

theorem State.transit_setActor (ha : a < cfg.actorCount) (pc : ActorPc) :
    (s.setActor a pc).transit cfg + ((s.actors a).hand a).isSome.toNat =
      s.transit cfg + (pc.hand a).isSome.toNat := by
  have hwaiting : (s.setActor a pc).waiting = s.waiting := rfl
  have hsum := sum_range_change (f := s.inTransit cfg) (g := (s.setActor a pc).inTransit cfg) ha
    fun j hj => by
      have hother : (s.setActor a pc).actors j = s.actors j := Function.update_of_ne hj _ _
      rw [State.inTransit, State.inTransit, hwaiting, hother]
  have hself : (s.setActor a pc).actors a = pc := Function.update_self _ _ _
  rw [State.inTransit, State.inTransit, hself, hwaiting] at hsum
  rw [State.transit, State.transit]
  omega

theorem State.transit_setQueue {q : LockQueue.Queue Nat} {items : List Nat}
    (hq : LockQueue.Represents q items) (ha : a < cfg.actorCount) (hw : w < cfg.workerCount) :
    (s.setQueue a w q).transit cfg + (s.waiting a w).length = s.transit cfg + items.length := by
  have hwaiting := State.setQueue_waiting (s := s) (a := a) (w := w) hq
  have hother : ∀ j, j ≠ a → (s.setQueue a w q).inTransit cfg j = s.inTransit cfg j := by
    intro j hj
    have hsame : (s.setQueue a w q).waiting j = s.waiting j := by
      funext w'
      rw [hwaiting, if_neg fun hat => hj hat.1]
    rw [State.inTransit, hsame]
    rfl
  have hsum := sum_range_change ha hother
  have hinner := sum_range_change (f := fun w' => (s.waiting a w').length)
    (g := fun w' => ((s.setQueue a w q).waiting a w').length) hw
    fun j hj => by rw [hwaiting, if_neg fun hat => hj hat.2]
  have hself : (s.setQueue a w q).waiting a w = items := by rw [hwaiting, if_pos ⟨rfl, rfl⟩]
  have hactors : (s.setQueue a w q).actors = s.actors := rfl
  simp only [hself] at hinner
  simp only [State.inTransit, hactors] at hsum
  simp only [State.transit, State.inTransit, hactors]
  omega

/-- The handler of a queue or of an actor is done with what it changes there. -/
theorem Kept.of_counts (h : Kept cfg s) (hb : Books s t d) (hnext : u.next = t.next)
    (hreq : u.requests = t.requests) (hsock : u.sockets = t.sockets)
    (hactive : u.stats.activeConnections = t.stats.activeConnections) (hfiles : u.files = t.files)
    (htransit : (u.transit cfg : Int) = s.transit cfg - d) : Kept cfg u := by
  have hcontexts : u.contexts = t.contexts := by rw [State.contexts, State.contexts, hnext, hreq]
  have hsockets : u.socketContexts = t.socketContexts := by
    rw [State.socketContexts, State.socketContexts, hnext, hsock]
  have h1 := hb.active
  have h2 := hb.sockets
  have h3 := h.active
  have h4 := h.sockets
  refine ⟨?_, ?_, by omega, by omega, ?_⟩
  · rw [hnext, hreq]
    exact hb.requests_below
  · rw [hnext, hsock]
    exact hb.sockets_below
  · intro fd hfd
    rw [hfiles] at hfd
    exact h.listeners fd (hb.listeners fd hfd)

/-- An actor goes on, with as many requests in its hands and in its queues. -/
theorem Kept.setActor {pc : ActorPc} (h : Kept cfg s) (ha : a < cfg.actorCount)
    (hhand : (pc.hand a).isSome = ((s.actors a).hand a).isSome) : Kept cfg (s.setActor a pc) := by
  have hset := State.transit_setActor (s := s) ha pc
  rw [hhand] at hset
  refine h.of_counts (Books.refl h) rfl rfl rfl rfl rfl ?_
  omega

theorem Kept.setQueue {q : LockQueue.Queue Nat} (h : Kept cfg s)
    (hq : LockQueue.Represents q (s.waiting a w)) : Kept cfg (s.setQueue a w q) := by
  have hwaiting : (s.setQueue a w q).waiting = s.waiting := by
    funext a' w'
    rw [State.setQueue_waiting hq]
    split
    · rename_i hat
      rw [hat.1, hat.2]
    · rfl
  have htransit : (s.setQueue a w q).transit cfg = s.transit cfg := transit_congr rfl hwaiting
  refine h.of_counts (Books.refl h) rfl rfl rfl rfl rfl ?_
  omega

/-- The request that an actor pops is in its hands. -/
theorem Kept.pop {q : LockQueue.Queue Nat} {pc : ActorPc} {items : List Nat} {r : Nat}
    (h : Kept cfg s) (ha : a < cfg.actorCount) (hw : w < cfg.workerCount)
    (hitems : s.waiting a w = r :: items) (hq : LockQueue.Represents q items)
    (hidle : (s.actors a).hand a = none) (hhand : (pc.hand a).isSome = true) :
    Kept cfg ((s.setQueue a w q).setActor a pc) := by
  have hqueue := State.transit_setQueue (s := s) hq ha hw
  have hset := State.transit_setActor (s := s.setQueue a w q) ha pc
  have hactor : (s.setQueue a w q).actors = s.actors := rfl
  rw [hitems, List.length_cons] at hqueue
  rw [hactor, hidle, hhand, Option.isSome_none, Bool.toNat_false, Bool.toNat_true] at hset
  refine h.of_counts (Books.refl h) rfl rfl rfl rfl rfl ?_
  omega

theorem ActorWalk.hand {act : ActorAct} {pc pc' : ActorPc} (h : ActorWalk cfg s a pc act pc') :
    pc'.hand a = pc.hand a := by
  cases h <;> rfl

theorem push_kept {count : Nat} {q : LockQueue.Queue Nat} (h : Kept cfg s)
    (hr : s.requests r ≠ none) (hs : s.sockets p ≠ none) (hw : w < cfg.workerCount)
    (hworker : c.epollInfo = w)
    (hq : LockQueue.Represents q (s.waiting (count % cfg.actorCount) w ++ [r])) (pc : WorkerPc) :
    Kept cfg ((s.pushRequest (count % cfg.actorCount) p r c q).setWorker w pc) := by
  have htick : Books s (s.tick 1) 0 := (Books.refl h).congr rfl rfl rfl rfl rfl rfl rfl
  have hfree := (htick.setRequest hr c).freeSocket hs
  have hqueue := State.transit_setQueue (s := s) hq (Nat.mod_lt count cfg.actor_pos) hw
  rw [List.length_append, List.length_singleton] at hqueue
  refine h.of_counts hfree rfl rfl rfl rfl rfl ?_
  subst hworker
  change ((s.setQueue (count % cfg.actorCount) c.epollInfo q).transit cfg : Int) = _
  omega

theorem process_kept {owed : Nat} {rest : List Nat} {c' : RequestContext} (h : Kept cfg s)
    (ha : a < cfg.actorCount) (hpc : s.actors a = .popped w owed rest r)
    (hr : s.requests r = some c) :
    Kept cfg (((s.tick 3).setRequest r c').setActor a (.handled w owed rest r)) := by
  have hset := h.tick_setRequest hr 3 c'
  have hkept : Kept cfg ((s.tick 3).setRequest r c') := by
    refine h.of_books hset ?_
    rw [transit_congr hset.actors (waiting_congr hset.queues)]
    omega
  have hold : (((s.tick 3).setRequest r c').actors a).hand a = some (.held a, r) :=
    congrArg (ActorPc.hand a) hpc
  exact hkept.setActor ha (by rw [hold]; rfl)

/-- The request leaves the hands of the actor, with a socket context of its own. -/
theorem register_kept {owed : Nat} {rest : List Nat} (h : Kept cfg s) (ha : a < cfg.actorCount)
    (hpc : s.actors a = .handled w owed rest r) :
    Kept cfg ((s.registerConnection r c).setActor a (.popping w owed rest)) := by
  have hb : Books s (s.registerConnection r c) (0 + 1) :=
    ((Books.refl h).newSocket (writeContext r c.epollInfo)).congr rfl rfl rfl rfl rfl rfl rfl
  have hset := State.transit_setActor (s := s.registerConnection r c) ha (.popping w owed rest)
  have hsame := @transit_congr cfg _ _ hb.actors (waiting_congr hb.queues)
  have hold : (((s.registerConnection r c).actors a).hand a).isSome = true := by
    rw [hb.actors, hpc]
    rfl
  have hnew : ((ActorPc.popping w owed rest).hand a).isSome = false := rfl
  rw [hold, hnew, hsame, Bool.toNat_true, Bool.toNat_false] at hset
  refine h.of_counts hb rfl rfl rfl rfl rfl ?_
  omega

theorem Steps.kept {k : Nat → Connection} {l : Label} {obs : List Obs}
    (hstep : Steps cfg s k l t obs) (h : Kept cfg s) (howned : Owned cfg s k)
    (hacc : Accounted cfg s) : Kept cfg t := by
  have hrefl := Books.refl h
  cases hstep with
  | wait | walk | load => exact h.setWorker hrefl _
  | @delete w _ _ _ c =>
    have hset : Books s (s.setEpoll w c.fd none) 0 := hrefl.congr rfl rfl rfl rfl rfl rfl rfl
    exact h.setWorker hset _
  | @store _ _ count =>
    have hset : Books s { s with count := (count + 1) % 2 ^ 64 } 0 :=
      hrefl.congr rfl rfl rfl rfl rfl rfl rfl
    exact h.setWorker hset _
  | fail _ _ _ he => exact h.setWorker (hrefl.closeConnection he.toWaits _) _
  | parse _ _ _ he | read _ _ _ he | write _ _ _ he =>
    exact h.setWorker (h.tick_setRequest he.request 2 _) _
  | readClose _ _ _ he _ hread =>
    have hclose := (h.tick_setRequest he.request 2 _).closeConnection (he.toWaits.read hread)
    exact h.setWorker (hclose _) _
  | writeClose _ _ _ he hwrite =>
    have hclose := (h.tick_setRequest he.request 2 _).closeConnection (he.toWaits.write hwrite)
    exact h.setWorker (hclose _) _
  | reset _ _ _ he hwrite =>
    have hreset := (h.tick_setRequest he.request 2 _).resetConnection (he.toWaits.write hwrite)
    exact h.setWorker (hreset _ _) _
  | push hw _ hk hworker hs _ hpush =>
    have hr := (howned.wired.live hk).1
    obtain ⟨hrep, -⟩ := LockQueue.queuePush_of_success (howned.queued.represents _ _) hpush
    exact push_kept h (hr ▸ Option.some_ne_none _) (hs ▸ Option.some_ne_none _) hw hworker hrep _
  | @accept _ _ _ _ _ _ c =>
    have hb : Books s (s.acceptConnection c) 0 := hrefl.accept rfl rfl rfl rfl rfl rfl rfl
    refine h.of_books hb ?_
    rw [transit_congr hb.actors (waiting_congr hb.queues)]
    omega
  | actorWalk ha hwalk => exact h.setActor ha (congrArg Option.isSome hwalk.hand)
  | @eventRead a w _ event _ ha hpc =>
    have hset := h.setQueue ((howned.queued.represents a w).setEvent event)
    exact hset.setActor ha (congrArg Option.isSome (congrArg (ActorPc.hand a) hpc).symm)
  | popNull ha hpc => exact h.setActor ha (by rw [hpc]; rfl)
  | @pop a w _ _ _ _ _ _ ha hpc _ hitems hq =>
    have hidle : (s.actors a).hand a = none := by rw [hpc]; rfl
    have hw : w < cfg.workerCount := by
      by_contra hout
      rw [hacc.queues a w (.inr (Nat.le_of_not_lt hout))] at hitems
      cases hitems
    exact h.pop ha hw hitems hq hidle rfl
  | process ha hpc hk => exact process_kept h ha hpc (howned.wired.live hk).1
  | register ha hpc => exact register_kept h ha hpc

theorem kept_init (cfg : Config) (clock : Nat → Timespec) : Kept cfg (initState cfg clock) := by
  have hnone : (initState cfg clock).contexts = 0 := by
    rw [State.contexts, used]
    exact Finset.sum_eq_zero fun _ _ => rfl
  have hall : (initState cfg clock).socketContexts = cfg.workerCount := by
    have hone : ∀ p ∈ Finset.range cfg.workerCount,
        ((initState cfg clock).sockets p).isSome.toNat = 1 := by
      intro p hp
      have hlisten : (initState cfg clock).sockets p = some (listenContext (cfg.sockFd p) p) :=
        if_pos (Finset.mem_range.mp hp)
      rw [hlisten]
      rfl
    rw [State.socketContexts, used]
    exact (Finset.sum_congr rfl hone).trans (by simp)
  have hwaiting : ∀ a w, (initState cfg clock).waiting a w = [] := fun a w =>
    (LockQueue.queueInit_represents 1024).contents_eq
  have hempty : (initState cfg clock).transit cfg = 0 := by
    refine Finset.sum_eq_zero fun a _ => ?_
    have hqueues : ∑ w ∈ Finset.range cfg.workerCount, ((initState cfg clock).waiting a w).length = 0 :=
      Finset.sum_eq_zero fun w _ => by rw [hwaiting]; rfl
    rw [State.inTransit, hqueues]
    rfl
  refine ⟨fun _ _ => rfl, ?_, ?_, ?_, ?_⟩
  · intro p hp
    exact if_neg (Nat.not_lt.mpr hp)
  · rw [hnone]
    rfl
  · rw [hnone, hall, hempty]
  · intro fd hfd
    by_contra hnot
    have hclosed : (initState cfg clock).files fd = none := if_neg hnot
    rw [hclosed] at hfd
    cases hfd

theorem server_kept {tr : List Obs} (h : (server cfg).Run s tr) : Kept cfg s := by
  induction h with
  | start hi =>
    obtain ⟨clock, rfl⟩ := hi
    exact kept_init cfg clock
  | @next s t tr obs l hrun hstep ih =>
    obtain ⟨k, howned, htimed, hacc⟩ := server_accounted hrun
    obtain ⟨-, hsteps | ⟨e, -, rfl, -⟩⟩ := server_step_cases howned htimed hstep
    · exact hsteps.kept ih howned hacc
    · exact ⟨ih.requests_below, ih.sockets_below, ih.active, ih.sockets, ih.listeners⟩

/-- In every state of a run the server has as many connections as it reports, each with
a descriptor of its own, and no other descriptor but the listening sockets. The socket
contexts are one for each worker and one for each connection whose request is not with
the actors. -/
theorem server_holds {tr : List Obs} (h : (server cfg).Run s tr) :
    s.stats.activeConnections = s.contexts ∧
    s.socketContexts + s.transit cfg = cfg.workerCount + s.contexts ∧
    (∀ fd, s.files fd ≠ none ↔ (∃ w < cfg.workerCount, cfg.sockFd w = fd) ∨
      ∃ r c, s.requests r = some c ∧ c.fd = fd) ∧
    (∀ r r' c c', s.requests r = some c → s.requests r' = some c' → c.fd = c'.fd → r = r') := by
  have hkept := server_kept h
  obtain ⟨k, -, howned⟩ := server_simulates h
  have hlive : ∀ r c, s.requests r = some c → ∃ st, k r = .live st c := by
    intro r c hr
    rw [howned.wired.requests] at hr
    cases hk : k r with
    | unborn | closed =>
      rw [hk] at hr
      cases hr
    | live st c' =>
      rw [hk] at hr
      cases hr
      exact ⟨st, rfl⟩
  refine ⟨hkept.active, hkept.sockets, ?_, ?_⟩
  · intro fd
    constructor
    · intro hopen
      cases hfile : s.files fd with
      | none => exact absurd hfile hopen
      | some file =>
        cases file with
        | listener => exact .inl (hkept.listeners fd hfile)
        | connection r =>
          obtain ⟨st, c, hk, hfd⟩ := (howned.wired.files fd r).mp hfile
          exact .inr ⟨r, c, (howned.wired.live hk).1, hfd⟩
    · rintro (⟨w, hw, rfl⟩ | ⟨r, c, hr, rfl⟩)
      · rw [(howned.wired.listening w hw).1]
        exact Option.some_ne_none _
      · obtain ⟨st, hk⟩ := hlive r c hr
        rw [(howned.wired.live hk).2]
        exact Option.some_ne_none _
  · intro r r' c c' hr hr' hfd
    obtain ⟨st, hk⟩ := hlive r c hr
    obtain ⟨st', hk'⟩ := hlive r' c' hr'
    exact howned.wired.file_owner hk hk' hfd

end

/-- One connection is accepted and its request is in the queue of the actor. -/
theorem server_holds_queued : ∃ s tr, (server smallConfig).Run s tr ∧
    s.contexts = 1 ∧ s.socketContexts = 1 ∧ s.transit smallConfig = 1 ∧
    s.stats.activeConnections = s.contexts ∧
    s.socketContexts + s.transit smallConfig = 1 + s.contexts := by
  have hexec : ((server smallConfig).exec (initState smallConfig fun _ => ⟨0, 0⟩)
      (acceptLabels 4 ++ readLabels 4 2 (ascii "GET / HTTP/1.1\r\n\r\n"))).any (fun x =>
      x.1.contexts = 1 ∧ x.1.socketContexts = 1 ∧ x.1.transit smallConfig = 1) = true := by
    decide +kernel
  obtain ⟨⟨s, tr⟩, hs, hcounts⟩ := (Option.any_eq_true _ _).mp hexec
  obtain ⟨hcontexts, hsockets, htransit⟩ := of_decide_eq_true hcounts
  have hrun := server_run_exec hs
  obtain ⟨hactive, hholds, -, -⟩ := server_holds hrun
  exact ⟨s, tr, hrun, hcontexts, hsockets, htransit, hactive, hholds⟩

end Jullop
