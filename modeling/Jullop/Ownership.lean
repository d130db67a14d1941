import Jullop.Connection

/-! Who has a connection. `Owned` ties the state of the server to the stage of
each of its connections: what is registered, queued or in the hands of a thread
is there for a connection in the stage that says so, and for no other. -/

namespace Jullop

namespace Connection

def context : Connection → Option RequestContext
  | live _ c => some c
  | _ => none

def place : Connection → Option (Stage × Nat)
  | live st c => some (st, c.epollInfo)
  | _ => none

theorem place_eq_some {x : Connection} {st : Stage} {w : Nat} :
    x.place = some (st, w) ↔ ∃ c, x = live st c ∧ c.epollInfo = w := by
  cases x with
  | unborn | closed => simp [place]
  | live st' c => simp [place]

theorem place_live {x : Connection} {st st' : Stage} {c : RequestContext} {w : Nat}
    (hx : x = live st c) (hp : x.place = some (st', w)) : st' = st ∧ w = c.epollInfo := by
  rw [hx, place] at hp
  cases hp
  exact ⟨rfl, rfl⟩

end Connection

def Stage.atWorker : Stage → Bool
  | parsed | deleted => true
  | _ => false

def Stage.atActor : Stage → Option Nat
  | held a | handled a => some a
  | _ => none

def WorkerPc.pending : WorkerPc → List Event
  | waiting => []
  | batch events => events
  | output e rest | accepting e rest | dispatching _ _ e rest =>
    if e.events.epollout then e :: rest else rest

/-- The request in the hands of a handler that waits for its next step. -/
def WorkerPc.hand : WorkerPc → Option (Stage × Nat)
  | dispatching .delete r _ _ => some (.parsed, r)
  | dispatching _ r _ _ => some (.deleted, r)
  | _ => none

def ActorPc.hand (a : Nat) : ActorPc → Option (Stage × Nat)
  | popped _ _ _ r => some (.held a, r)
  | handled _ _ _ r => some (.handled a, r)
  | _ => none

def State.waiting (s : State) (a w : Nat) : List Nat := LockQueue.contents (s.queues a w)

def Registered (s : State) (r : Nat) (c : RequestContext) : Stage → Prop
  | .input | .parsed => ∃ p, s.epoll c.epollInfo c.fd = some ⟨.inputMask, p⟩ ∧
      s.sockets p = some (readContext r c.epollInfo)
  | .output => ∃ p, s.epoll c.epollInfo c.fd = some ⟨.outputMask, p⟩ ∧
      s.sockets p = some (writeContext r c.epollInfo)
  | _ => s.epoll c.epollInfo c.fd = none

/-- The memory, the descriptors and the epoll sets are those of the connections
and of the listening sockets. -/
structure Wired (cfg : Config) (s : State) (k : Nat → Connection) : Prop where
  requests : ∀ r, s.requests r = (k r).context
  unborn : ∀ r, s.next ≤ r → k r = .unborn
  sockets_lt : ∀ p, s.next ≤ p → s.sockets p = none
  files : ∀ fd r, s.files fd = some (.connection r) ↔ ∃ st c, k r = .live st c ∧ c.fd = fd
  listening : ∀ w < cfg.workerCount, s.files (cfg.sockFd w) = some .listener ∧
    s.epoll w (cfg.sockFd w) = some ⟨.inputMask, w⟩ ∧
    s.sockets w = some (listenContext (cfg.sockFd w) w)
  registered : ∀ r st c, k r = .live st c → Registered s r c st
  only : ∀ w fd, s.epoll w fd ≠ none → (w < cfg.workerCount ∧ fd = cfg.sockFd w) ∨
    ∃ r st c, k r = .live st c ∧ c.epollInfo = w ∧ c.fd = fd

/-- The hands and the queues hold the connections whose stage says so. -/
structure Handed (s : State) (k : Nat → Connection) : Prop where
  workers : ∀ w st r, (s.workers w).hand = some (st, r) ↔
    (k r).place = some (st, w) ∧ st.atWorker = true
  actors : ∀ a st r, (s.actors a).hand a = some (st, r) ↔
    (∃ w, (k r).place = some (st, w)) ∧ st.atActor = some a
  queues : ∀ a w r, r ∈ s.waiting a w ↔ (k r).place = some (.queued a, w)

structure Queued (s : State) : Prop where
  represents : ∀ a w, LockQueue.Represents (s.queues a w) (s.waiting a w)
  maxSize : ∀ a w, (s.queues a w).maxSize = 1024
  nodup : ∀ a w, (s.waiting a w).Nodup

/-- What a worker knows is still so: its events are of registrations that exist,
and the socket context of its handler is not released. -/
structure Batched (cfg : Config) (s : State) (k : Nat → Connection) : Prop where
  nodup : ∀ w, ((s.workers w).pending.map Event.fd).Nodup
  pending : ∀ w, ∀ e ∈ (s.workers w).pending, e.matches (s.epoll w e.fd) = true
  accepting : ∀ w e rest, s.workers w = .accepting e rest → e.ptr = w ∧ w < cfg.workerCount
  dispatching : ∀ w point r e rest, s.workers w = .dispatching point r e rest →
    s.sockets e.ptr = some (readContext r w) ∧ (point = .delete → ∃ c, k r = .live .parsed c ∧
      s.epoll w c.fd = some ⟨.inputMask, e.ptr⟩ ∧
      c.fd ∉ (s.workers w).pending.map Event.fd)

structure Owned (cfg : Config) (s : State) (k : Nat → Connection) : Prop where
  wired : Wired cfg s k
  handed : Handed s k
  queued : Queued s
  batched : Batched cfg s k
  halted : s.halted ≠ some .epollCheck ∧ s.halted ≠ some .invalidAccess ∧
    s.halted ≠ some .timeCheck

/-- Two states that differ only in what belongs to the connection `r`, which has
the descriptor `fd` and the worker `w`. -/
structure Elsewhere (s t : State) (r w fd : Nat) : Prop where
  next : s.next ≤ t.next
  requests : ∀ r', r' ≠ r → t.requests r' = s.requests r'
  sockets : ∀ p context, s.sockets p = some context → context.data ≠ .ptr r →
    t.sockets p = some context
  files : ∀ fd', fd' ≠ fd → t.files fd' = s.files fd'
  epoll : ∀ w' fd', w' ≠ w ∨ fd' ≠ fd → t.epoll w' fd' = s.epoll w' fd'

section

variable {cfg : Config} {s t : State} {k : Nat → Connection} {r w fd : Nat} {x : Connection}

theorem Wired.file_owner (h : Wired cfg s k) {r r' : Nat} {st st' : Stage}
    {c c' : RequestContext} (hr : k r = .live st c) (hr' : k r' = .live st' c')
    (hfd : c.fd = c'.fd) : r = r' := by
  have hfile := (h.files c.fd r).mpr ⟨st, c, hr, rfl⟩
  have hfile' := (h.files c.fd r').mpr ⟨st', c', hr', hfd.symm⟩
  rw [hfile] at hfile'
  simpa using hfile'

theorem Wired.unopened (h : Wired cfg s k) (hfile : s.files fd = none) (w : Nat) :
    s.epoll w fd = none := by
  by_contra hreg
  rcases h.only w fd hreg with ⟨hw, rfl⟩ | ⟨r', st', c', hk', -, hfd⟩
  · rw [(h.listening _ hw).1] at hfile
    cases hfile
  · rw [(h.files fd r').mpr ⟨st', c', hk', hfd⟩] at hfile
    cases hfile

theorem Wired.lt_next (h : Wired cfg s k) {st : Stage} {c : RequestContext}
    (hr : k r = .live st c) : r < s.next := by
  by_contra hge
  rw [h.unborn r (by omega)] at hr
  cases hr

theorem Wired.live {st : Stage} {c : RequestContext} (h : Wired cfg s k) (hk : k r = .live st c) :
    s.requests r = some c ∧ s.files c.fd = some (.connection r) := by
  refine ⟨?_, (h.files c.fd r).mpr ⟨st, c, hk, rfl⟩⟩
  rw [h.requests, hk, Connection.context]

theorem Wired.not_listener (h : Wired cfg s k) {st : Stage} {c : RequestContext}
    (hr : k r = .live st c) : ∀ w' < cfg.workerCount, cfg.sockFd w' ≠ c.fd := by
  intro w' hw' heq
  have hlisten := (h.listening w' hw').1
  have hfile := (h.files c.fd r).mpr ⟨st, c, hr, rfl⟩
  rw [heq, hfile] at hlisten
  cases hlisten

theorem Registered.elsewhere {c : RequestContext} {st : Stage} {r' : Nat}
    (he : Elsewhere s t r w fd) (h : Registered s r' c st) (hr : r' ≠ r) (hfd : c.fd ≠ fd) :
    Registered t r' c st := by
  have hepoll := he.epoll c.epollInfo c.fd (.inr hfd)
  have hread : (readContext r' c.epollInfo).data ≠ .ptr r := by simpa [readContext] using hr
  have hwrite : (writeContext r' c.epollInfo).data ≠ .ptr r := by simpa [writeContext] using hr
  cases st with
  | input | parsed =>
    obtain ⟨p, hreg, hsock⟩ := h
    exact ⟨p, hepoll.trans hreg, he.sockets p _ hsock hread⟩
  | output =>
    obtain ⟨p, hreg, hsock⟩ := h
    exact ⟨p, hepoll.trans hreg, he.sockets p _ hsock hwrite⟩
  | deleted | queued _ | held _ | handled _ => exact hepoll.trans h

theorem Wired.update (h : Wired cfg s k) (he : Elsewhere s t r w fd)
    (hother : ∀ r' st c, r' ≠ r → k r' = .live st c → c.fd ≠ fd)
    (hlisten : ∀ w' < cfg.workerCount, cfg.sockFd w' ≠ fd) (hlt : r < t.next)
    (hsockets : ∀ p, t.next ≤ p → t.sockets p = none) (hreq : t.requests r = x.context)
    (hfile : ∀ r', t.files fd = some (.connection r') ↔ r' = r ∧ x.context ≠ none)
    (hold : ∀ st c, k r = .live st c → c.fd = fd ∧ c.epollInfo = w)
    (hnew : ∀ st c, x = .live st c → c.fd = fd ∧ c.epollInfo = w ∧ Registered t r c st)
    (hnone : x.context = none → t.epoll w fd = none) : Wired cfg t (Function.update k r x) := by
  refine ⟨?_, ?_, hsockets, ?_, ?_, ?_, ?_⟩
  · intro r'
    by_cases hr : r' = r
    · subst hr
      rw [Function.update_self, hreq]
    · rw [Function.update_of_ne hr, he.requests r' hr, h.requests]
  · intro r' hr'
    have hne : r' ≠ r := by omega
    have hnext := he.next
    rw [Function.update_of_ne hne]
    exact h.unborn r' (by omega)
  · intro fd' r'
    by_cases hfd : fd' = fd
    · subst hfd
      rw [hfile]
      constructor
      · rintro ⟨rfl, hx⟩
        cases hx' : x with
        | live st c => exact ⟨st, c, by simp, (hnew st c hx').1⟩
        | unborn | closed => simp [hx', Connection.context] at hx
      · rintro ⟨st, c, hk, hc⟩
        by_cases hr : r' = r
        · subst hr
          rw [Function.update_self] at hk
          exact ⟨rfl, by simp [hk, Connection.context]⟩
        · rw [Function.update_of_ne hr] at hk
          exact absurd hc (hother r' st c hr hk)
    · rw [he.files fd' hfd, h.files]
      by_cases hr : r' = r
      · subst hr
        rw [Function.update_self]
        constructor
        · rintro ⟨st, c, hk, hc⟩
          exact absurd (hc.symm.trans (hold st c hk).1) hfd
        · rintro ⟨st, c, hk, hc⟩
          exact absurd (hc.symm.trans (hnew st c hk).1) hfd
      · rw [Function.update_of_ne hr]
  · intro w' hw'
    have hne := hlisten w' hw'
    obtain ⟨hf, hreg, hs⟩ := h.listening w' hw'
    refine ⟨(he.files _ hne).trans hf, (he.epoll _ _ (.inr hne)).trans hreg, ?_⟩
    exact he.sockets w' _ hs (by simp [listenContext])
  · intro r' st c hk
    by_cases hr : r' = r
    · subst hr
      rw [Function.update_self] at hk
      exact (hnew st c hk).2.2
    · rw [Function.update_of_ne hr] at hk
      exact (h.registered r' st c hk).elsewhere he hr (hother r' st c hr hk)
  · intro w' fd' hreg
    by_cases hat : w' = w ∧ fd' = fd
    · obtain ⟨rfl, rfl⟩ := hat
      cases hx : x with
      | live st c =>
        exact .inr ⟨r, st, c, by simp, (hnew st c hx).2.1, (hnew st c hx).1⟩
      | unborn | closed => exact absurd (hnone (by simp [hx, Connection.context])) hreg
    · have hat' : w' ≠ w ∨ fd' ≠ fd := by
        by_contra hcon
        push Not at hcon
        exact hat hcon
      rw [he.epoll w' fd' hat'] at hreg
      rcases h.only w' fd' hreg with hl | ⟨r', st, c, hk, hw, hfd⟩
      · exact .inl hl
      · have hr : r' ≠ r := by
          rintro rfl
          obtain ⟨h1, h2⟩ := hold st c hk
          exact hat ⟨hw.symm.trans h2, hfd.symm.trans h1⟩
        exact .inr ⟨r', st, c, by rw [Function.update_of_ne hr, hk], hw, hfd⟩

theorem Handed.update (h : Handed s k)
    (hworkers : ∀ w st r', r' ≠ r →
      ((t.workers w).hand = some (st, r') ↔ (s.workers w).hand = some (st, r')))
    (hactors : ∀ a st r', r' ≠ r →
      ((t.actors a).hand a = some (st, r') ↔ (s.actors a).hand a = some (st, r')))
    (hqueues : ∀ a w r', r' ≠ r → (r' ∈ t.waiting a w ↔ r' ∈ s.waiting a w))
    (hworker : ∀ w st, (t.workers w).hand = some (st, r) ↔
      x.place = some (st, w) ∧ st.atWorker = true)
    (hactor : ∀ a st, (t.actors a).hand a = some (st, r) ↔
      (∃ w, x.place = some (st, w)) ∧ st.atActor = some a)
    (hqueue : ∀ a w, r ∈ t.waiting a w ↔ x.place = some (.queued a, w)) :
    Handed t (Function.update k r x) := by
  refine ⟨?_, ?_, ?_⟩
  · intro w st r'
    by_cases hr : r' = r
    · subst hr
      rw [Function.update_self, hworker]
    · rw [Function.update_of_ne hr, hworkers w st r' hr, h.workers]
  · intro a st r'
    by_cases hr : r' = r
    · subst hr
      rw [Function.update_self, hactor]
    · rw [Function.update_of_ne hr, hactors a st r' hr, h.actors]
  · intro a w r'
    by_cases hr : r' = r
    · subst hr
      rw [Function.update_self, hqueue]
    · rw [Function.update_of_ne hr, hqueues a w r' hr, h.queues]

theorem Handed.not_worker {st st' : Stage} {c : RequestContext} (h : Handed s k)
    (hk : k r = .live st c) (hst : st.atWorker = false) (w : Nat) :
    (s.workers w).hand ≠ some (st', r) := by
  intro hhand
  obtain ⟨hplace, hat⟩ := (h.workers w st' r).mp hhand
  rw [(Connection.place_live hk hplace).1, hst] at hat
  cases hat

theorem Handed.not_actor {st st' : Stage} {c : RequestContext} (h : Handed s k)
    (hk : k r = .live st c) (hst : st.atActor = none) (a : Nat) :
    (s.actors a).hand a ≠ some (st', r) := by
  intro hhand
  obtain ⟨⟨w, hplace⟩, hat⟩ := (h.actors a st' r).mp hhand
  rw [(Connection.place_live hk hplace).1, hst] at hat
  cases hat

theorem Handed.not_queued {st : Stage} {c : RequestContext} (h : Handed s k)
    (hk : k r = .live st c) (hst : ∀ a, st ≠ .queued a) (a w : Nat) : r ∉ s.waiting a w := by
  intro hmem
  exact hst a (Connection.place_live hk ((h.queues a w r).mp hmem)).1.symm

/-- A hand that held at most the request `r` and holds at most that has nothing to
do with the others. -/
theorem hand_other {before after : Option (Stage × Nat)} {st st' : Stage} {r' : Nat} {p : Prop}
    [Decidable p] (hbefore : ∀ st r', before = some (st, r') → r' = r)
    (hafter : after = if p then some (st', r) else none) (hr : r' ≠ r) :
    after = some (st, r') ↔ before = some (st, r') := by
  refine iff_of_false ?_ (fun hhand => hr (hbefore st r' hhand))
  rw [hafter]
  split
  · intro hhand
    cases hhand
    exact hr rfl
  · exact nofun

theorem Handed.worker {st st' : Stage} {c c' : RequestContext} (h : Handed s k)
    (hk : k r = .live st c) (hothers : ∀ w, w ≠ c.epollInfo → t.workers w = s.workers w)
    (hbefore : ∀ st r', (s.workers c.epollInfo).hand = some (st, r') → r' = r)
    (hafter : (t.workers c.epollInfo).hand = if st'.atWorker then some (st', r) else none)
    (hactors : t.actors = s.actors) (hactor : st.atActor = none) (hactor' : st'.atActor = none)
    (hqueues : ∀ a w r', r' ≠ r → (r' ∈ t.waiting a w ↔ r' ∈ s.waiting a w))
    (hqueue : ∀ a w, r ∈ t.waiting a w ↔ st' = .queued a ∧ c.epollInfo = w)
    (hw : c'.epollInfo = c.epollInfo) :
    Handed t (Function.update k r (.live st' c')) := by
  refine h.update ?_ (fun a st r' _ => by rw [hactors]) hqueues ?_ ?_ ?_
  · intro w st0 r' hr
    by_cases hww : w = c.epollInfo
    · subst hww
      exact hand_other hbefore hafter hr
    · rw [hothers w hww]
  · intro w st0
    by_cases hww : w = c.epollInfo
    · subst hww
      rw [hafter, Connection.place, hw]
      cases hat : st'.atWorker <;> simp
      · rintro rfl
        exact hat
      · rintro rfl
        exact hat
    · rw [hothers w hww, h.workers, hk, Connection.place, Connection.place, hw]
      simp [Ne.symm hww]
  · intro a st0
    rw [hactors]
    refine iff_of_false (h.not_actor hk hactor a) ?_
    rintro ⟨⟨w, hplace⟩, hat⟩
    cases hplace
    rw [hactor'] at hat
    cases hat
  · intro a w
    rw [hqueue, Connection.place, hw]
    simp

theorem Handed.actor {st st' : Stage} {c c' : RequestContext} {a : Nat} (h : Handed s k)
    (hk : k r = .live st c) (hothers : ∀ a', a' ≠ a → t.actors a' = s.actors a')
    (hbefore : ∀ st r', (s.actors a).hand a = some (st, r') → r' = r)
    (hafter : (t.actors a).hand a = if st'.atActor = some a then some (st', r) else none)
    (hactor : ∀ a', st.atActor = some a' → a' = a) (hactor' : ∀ a', st'.atActor = some a' → a' = a)
    (hworkers : t.workers = s.workers) (hworker : st.atWorker = false)
    (hworker' : st'.atWorker = false)
    (hqueues : ∀ a w r', r' ≠ r → (r' ∈ t.waiting a w ↔ r' ∈ s.waiting a w))
    (hqueue : ∀ a w, r ∉ t.waiting a w) (hqueue' : ∀ a, st' ≠ .queued a) :
    Handed t (Function.update k r (.live st' c')) := by
  refine h.update (fun w st r' _ => by rw [hworkers]) ?_ hqueues ?_ ?_ ?_
  · intro a' st0 r' hr
    by_cases ha : a' = a
    · subst ha
      exact hand_other hbefore hafter hr
    · rw [hothers a' ha]
  · intro w st0
    rw [hworkers]
    refine iff_of_false (h.not_worker hk hworker w) ?_
    rintro ⟨hplace, hat⟩
    cases hplace
    rw [hworker'] at hat
    cases hat
  · intro a' st0
    by_cases ha : a' = a
    · subst ha
      rw [hafter, Connection.place]
      by_cases hat : st'.atActor = some a'
      · simp only [hat, if_true, Option.some.injEq, Prod.mk.injEq, and_true, exists_and_left,
          exists_eq', and_true]
        constructor
        · rintro rfl
          exact ⟨rfl, hat⟩
        · exact fun h => h.1
      · simp only [hat, if_false, reduceCtorEq, Option.some.injEq, Prod.mk.injEq, false_iff]
        rintro ⟨⟨w, rfl, rfl⟩, hat'⟩
        exact hat hat'
    · rw [hothers a' ha, h.actors, hk]
      constructor
      · rintro ⟨⟨w, hplace⟩, hat⟩
        cases hplace
        exact absurd (hactor _ hat) ha
      · rintro ⟨⟨w, hplace⟩, hat⟩
        cases hplace
        exact absurd (hactor' _ hat) ha
  · intro a' w
    refine iff_of_false (hqueue a' w) ?_
    intro hplace
    cases hplace
    exact hqueue' a' rfl

def Stage.registered : Stage → Bool
  | input | output => true
  | _ => false

/-- A connection that goes from one epoll registration to another, or comes or
goes, is in no hand before and after. -/
theorem Handed.of_registered (h : Handed s k) (hworkers : ∀ w, (t.workers w).hand = (s.workers w).hand)
    (hactors : t.actors = s.actors) (hqueues : t.queues = s.queues)
    (hold : ∀ st w, (k r).place = some (st, w) → st.registered = true)
    (hnew : ∀ st w, x.place = some (st, w) → st.registered = true) :
    Handed t (Function.update k r x) := by
  have hq : ∀ a w, t.waiting a w = s.waiting a w := by
    intro a w
    rw [State.waiting, hqueues, State.waiting]
  have hclass : ∀ {y : Connection}, (∀ st w, y.place = some (st, w) → st.registered = true) →
      (∀ w st, ¬ (y.place = some (st, w) ∧ st.atWorker = true)) ∧
      (∀ a st, ¬ ((∃ w, y.place = some (st, w)) ∧ st.atActor = some a)) ∧
      (∀ a w, y.place ≠ some (.queued a, w)) := by
    intro y hy
    refine ⟨?_, ?_, ?_⟩
    · rintro w st ⟨hp, hst⟩
      have := hy st w hp
      cases st <;> simp_all [Stage.registered, Stage.atWorker]
    · rintro a st ⟨⟨w, hp⟩, hst⟩
      have := hy st w hp
      cases st <;> simp_all [Stage.registered, Stage.atActor]
    · intro a w hp
      have := hy _ w hp
      simp [Stage.registered] at this
  obtain ⟨hw0, ha0, hq0⟩ := hclass hold
  obtain ⟨hw1, ha1, hq1⟩ := hclass hnew
  refine h.update (fun w st r' _ => by rw [hworkers]) (fun a st r' _ => by rw [hactors])
    (fun a w r' _ => by rw [hq]) ?_ ?_ ?_
  · intro w st
    rw [hworkers, h.workers]
    exact iff_of_false (hw0 w st) (hw1 w st)
  · intro a st
    rw [hactors, h.actors]
    exact iff_of_false (ha0 a st) (ha1 a st)
  · intro a w
    rw [hq, h.queues]
    exact iff_of_false (hq0 a w) (hq1 a w)

theorem Handed.of_place (h : Handed s k) (hworkers : ∀ w, (t.workers w).hand = (s.workers w).hand)
    (hactors : ∀ a, (t.actors a).hand a = (s.actors a).hand a)
    (hqueues : ∀ a w, t.waiting a w = s.waiting a w) (hplace : x.place = (k r).place) :
    Handed t (Function.update k r x) := by
  refine h.update (fun w st r' _ => by rw [hworkers]) (fun a st r' _ => by rw [hactors])
    (fun a w r' _ => by rw [hqueues]) ?_ ?_ ?_
  · intro w st
    rw [hworkers, h.workers, hplace]
  · intro a st
    rw [hactors, h.actors, hplace]
  · intro a w
    rw [hqueues, h.queues, hplace]

theorem Batched.worker (h : Batched cfg s k) (hh : Handed s k) (he : Elsewhere s t r w fd)
    (hothers : ∀ w', w' ≠ w → t.workers w' = s.workers w')
    (hmine : ∀ st w', (k r).place = some (st, w') → w' = w)
    (hsub : (t.workers w).pending.Sublist (s.workers w).pending)
    (hfd : ∀ e ∈ (t.workers w).pending, e.fd ≠ fd)
    (haccepting : ∀ e rest, t.workers w = .accepting e rest → e.ptr = w ∧ w < cfg.workerCount)
    (hdispatching : ∀ point r' e rest, t.workers w = .dispatching point r' e rest →
      t.sockets e.ptr = some (readContext r' w) ∧
      (point = .delete → ∃ c, Function.update k r x r' = .live .parsed c ∧
        t.epoll w c.fd = some ⟨.inputMask, e.ptr⟩ ∧
        c.fd ∉ (t.workers w).pending.map Event.fd)) :
    Batched cfg t (Function.update k r x) := by
  refine ⟨?_, ?_, ?_, ?_⟩
  · intro w'
    by_cases hw : w' = w
    · subst hw
      exact (hsub.map Event.fd).nodup (h.nodup w')
    · rw [hothers w' hw]
      exact h.nodup w'
  · intro w' e hm
    by_cases hw : w' = w
    · subst hw
      rw [he.epoll w' e.fd (.inr (hfd e hm))]
      exact h.pending w' e (hsub.subset hm)
    · rw [hothers w' hw] at hm
      rw [he.epoll w' e.fd (.inl hw)]
      exact h.pending w' e hm
  · intro w' e rest hpc
    by_cases hw : w' = w
    · subst hw
      exact haccepting e rest hpc
    · rw [hothers w' hw] at hpc
      exact h.accepting w' e rest hpc
  · intro w' point r' e rest hpc
    by_cases hw : w' = w
    · subst hw
      exact hdispatching point r' e rest hpc
    · rw [hothers w' hw] at hpc ⊢
      obtain ⟨hsock, hdel⟩ := h.dispatching w' point r' e rest hpc
      have hplace : ∃ st, (k r').place = some (st, w') := by
        cases point with
        | delete => exact ⟨_, ((hh.workers w' .parsed r').mp (by rw [hpc]; rfl)).1⟩
        | load | store _ | push _ =>
          exact ⟨_, ((hh.workers w' .deleted r').mp (by rw [hpc]; rfl)).1⟩
      have hr : r' ≠ r := by
        rintro rfl
        obtain ⟨st, hst⟩ := hplace
        exact hw (hmine st w' hst)
      refine ⟨he.sockets e.ptr _ hsock (by simpa [readContext] using hr), fun hp => ?_⟩
      obtain ⟨c, hk, hreg, hnot⟩ := hdel hp
      exact ⟨c, by rw [Function.update_of_ne hr, hk], (he.epoll w' c.fd (.inl hw)).trans hreg, hnot⟩

theorem Batched.actor (h : Batched cfg s k) (hh : Handed s k) (he : Elsewhere s t r w fd)
    (hworkers : t.workers = s.workers) (hnone : s.epoll w fd = none)
    (hnot : ∀ st w', (k r).place = some (st, w') → st.atWorker = false) :
    Batched cfg t (Function.update k r x) := by
  have hepoll : ∀ w' fd', s.epoll w' fd' ≠ none → t.epoll w' fd' = s.epoll w' fd' := by
    intro w' fd' hreg
    refine he.epoll w' fd' ?_
    by_contra hcon
    push Not at hcon
    obtain ⟨rfl, rfl⟩ := hcon
    exact hreg hnone
  refine ⟨by rw [hworkers]; exact h.nodup, ?_, by rw [hworkers]; exact h.accepting, ?_⟩
  · intro w' e hm
    rw [hworkers] at hm
    have hmatch := h.pending w' e hm
    rw [hepoll w' e.fd (fun hn => by simp [hn, Event.matches] at hmatch)]
    exact hmatch
  · intro w' point r' e rest hpc
    rw [hworkers] at hpc ⊢
    obtain ⟨hsock, hdel⟩ := h.dispatching w' point r' e rest hpc
    have hr : r' ≠ r := by
      rintro rfl
      cases point with
      | delete =>
        obtain ⟨hp, hat⟩ := (hh.workers w' .parsed r').mp (by rw [hpc]; rfl)
        simp [hnot _ _ hp] at hat
      | load | store _ | push _ =>
        obtain ⟨hp, hat⟩ := (hh.workers w' .deleted r').mp (by rw [hpc]; rfl)
        simp [hnot _ _ hp] at hat
    refine ⟨he.sockets e.ptr _ hsock (by simpa [readContext] using hr), fun hp => ?_⟩
    obtain ⟨c, hk, hreg, hnotin⟩ := hdel hp
    exact ⟨c, by rw [Function.update_of_ne hr, hk],
      (hepoll w' c.fd (by simp [hreg])).trans hreg, hnotin⟩

theorem Wired.stay {st st' : Stage} {c c' : RequestContext} (h : Wired cfg s k)
    (hk : k r = .live st c) (he : Elsewhere s t r c.epollInfo c.fd) (hfiles : t.files = s.files)
    (hsockets : ∀ p, t.next ≤ p → t.sockets p = none) (hreq : t.requests r = some c')
    (hfd : c'.fd = c.fd) (hw : c'.epollInfo = c.epollInfo) (hreg : Registered t r c' st') :
    Wired cfg t (Function.update k r (.live st' c')) := by
  have hlt : r < t.next := Nat.lt_of_lt_of_le (h.lt_next hk) he.next
  have hfile := (h.live hk).2
  refine h.update he ?_ (h.not_listener hk) hlt hsockets hreq ?_ ?_ ?_ ?_
  · intro r' st'' c'' hr hk' hc
    exact hr (h.file_owner hk' hk hc)
  · intro r'
    rw [hfiles, hfile]
    simp [Connection.context, eq_comm]
  · intro st'' c'' hk'
    rw [hk] at hk'
    cases hk'
    exact ⟨rfl, rfl⟩
  · intro st'' c'' hx
    cases hx
    exact ⟨hfd, hw, hreg⟩
  · intro hx
    simp [Connection.context] at hx

theorem Wired.leave {st : Stage} {c : RequestContext} (h : Wired cfg s k)
    (hk : k r = .live st c) (he : Elsewhere s t r c.epollInfo c.fd)
    (hsockets : ∀ p, t.next ≤ p → t.sockets p = none) (hreq : t.requests r = none)
    (hfile : t.files c.fd = none) (hepoll : t.epoll c.epollInfo c.fd = none) :
    Wired cfg t (Function.update k r .closed) := by
  have hlt : r < t.next := Nat.lt_of_lt_of_le (h.lt_next hk) he.next
  refine h.update he ?_ (h.not_listener hk) hlt hsockets hreq ?_ ?_ ?_ (fun _ => hepoll)
  · intro r' st' c' hr hk' hc
    exact hr (h.file_owner hk' hk hc)
  · intro r'
    rw [hfile]
    simp [Connection.context]
  · intro st' c' hk'
    rw [hk] at hk'
    cases hk'
    exact ⟨rfl, rfl⟩
  · intro st' c' hx
    cases hx

theorem Owned.congr (h : Owned cfg s k) (hnext : t.next = s.next) (hreq : t.requests = s.requests)
    (hsockets : t.sockets = s.sockets) (hfiles : t.files = s.files) (hepoll : t.epoll = s.epoll)
    (hqueues : t.queues = s.queues) (hworkers : t.workers = s.workers)
    (hactors : t.actors = s.actors) (hhalted : t.halted = s.halted) : Owned cfg t k := by
  obtain ⟨hwired, hhanded, hqueued, hbatched, hok⟩ := h
  cases s
  cases t
  dsimp only at *
  subst hnext hreq hsockets hfiles hepoll hqueues hworkers hactors hhalted
  exact ⟨⟨hwired.requests, hwired.unborn, hwired.sockets_lt, hwired.files, hwired.listening,
    hwired.registered, hwired.only⟩, ⟨hhanded.workers, hhanded.actors, hhanded.queues⟩,
    ⟨hqueued.represents, hqueued.maxSize, hqueued.nodup⟩,
    ⟨hbatched.nodup, hbatched.pending, hbatched.accepting, hbatched.dispatching⟩, hok⟩

theorem Owned.setWorker {pc : WorkerPc} (h : Owned cfg s k) (hhand : pc.hand = (s.workers w).hand)
    (hnodup : (pc.pending.map Event.fd).Nodup)
    (hpending : ∀ e ∈ pc.pending, e.matches (s.epoll w e.fd) = true)
    (haccepting : ∀ e rest, pc = .accepting e rest → e.ptr = w ∧ w < cfg.workerCount)
    (hdispatching : ∀ point r e rest, pc = .dispatching point r e rest →
      s.sockets e.ptr = some (readContext r w) ∧ point ≠ .delete) :
    Owned cfg (s.setWorker w pc) k := by
  obtain ⟨hwired, hhanded, hqueued, hbatched, hok⟩ := h
  refine ⟨⟨hwired.requests, hwired.unborn, hwired.sockets_lt, hwired.files, hwired.listening,
    hwired.registered, hwired.only⟩, ⟨?_, hhanded.actors, hhanded.queues⟩,
    ⟨hqueued.represents, hqueued.maxSize, hqueued.nodup⟩, ⟨?_, ?_, ?_, ?_⟩, hok⟩
  · intro w' st r'
    rw [← hhanded.workers]
    by_cases hw : w' = w
    · subst hw
      simp [State.setWorker, hhand]
    · simp [State.setWorker, hw]
  · intro w'
    by_cases hw : w' = w
    · subst hw
      simpa [State.setWorker] using hnodup
    · simpa [State.setWorker, hw] using hbatched.nodup w'
  · intro w' e hm
    by_cases hw : w' = w
    · subst hw
      simp only [State.setWorker, Function.update_self] at hm
      exact hpending e hm
    · simp only [State.setWorker, Function.update_of_ne hw] at hm
      exact hbatched.pending w' e hm
  · intro w' e rest hpc
    by_cases hw : w' = w
    · subst hw
      simp only [State.setWorker, Function.update_self] at hpc
      exact haccepting e rest hpc
    · simp only [State.setWorker, Function.update_of_ne hw] at hpc
      exact hbatched.accepting w' e rest hpc
  · intro w' point r' e rest hpc
    by_cases hw : w' = w
    · subst hw
      simp only [State.setWorker, Function.update_self] at hpc
      obtain ⟨hs, hp⟩ := hdispatching point r' e rest hpc
      exact ⟨hs, fun h => absurd h hp⟩
    · simp only [State.setWorker, Function.update_of_ne hw] at hpc ⊢
      exact hbatched.dispatching w' point r' e rest hpc

/-- An actor that moves on with the same thing in its hand; the counters of its
queues may change. -/
theorem Owned.setActor {a : Nat} {pc : ActorPc} (h : Owned cfg s k)
    (hhand : pc.hand a = (s.actors a).hand a) : Owned cfg (s.setActor a pc) k := by
  obtain ⟨hwired, hhanded, hqueued, hbatched, hok⟩ := h
  refine ⟨⟨hwired.requests, hwired.unborn, hwired.sockets_lt, hwired.files, hwired.listening,
    hwired.registered, hwired.only⟩, ⟨hhanded.workers, ?_, hhanded.queues⟩,
    ⟨hqueued.represents, hqueued.maxSize, hqueued.nodup⟩,
    ⟨hbatched.nodup, hbatched.pending, hbatched.accepting, hbatched.dispatching⟩, hok⟩
  intro a' st r'
  rw [← hhanded.actors]
  by_cases ha : a' = a
  · subst ha
    simp [State.setActor, hhand]
  · simp [State.setActor, ha]

theorem State.setQueue_queues (s : State) (a w : Nat) (q : LockQueue.Queue Nat) (a' w' : Nat) :
    (s.setQueue a w q).queues a' w' = if a' = a ∧ w' = w then q else s.queues a' w' := by
  by_cases ha : a' = a
  · subst ha
    by_cases hw : w' = w
    · simp [State.setQueue, hw]
    · simp [State.setQueue, hw]
  · simp [State.setQueue, ha]

theorem State.setEpoll_epoll (s : State) (w fd : Nat) (reg : Option Registration) (w' fd' : Nat) :
    (s.setEpoll w fd reg).epoll w' fd' = if w' = w ∧ fd' = fd then reg else s.epoll w' fd' := by
  by_cases hw : w' = w
  · subst hw
    by_cases hfd : fd' = fd
    · simp [State.setEpoll, hfd]
    · simp [State.setEpoll, hfd]
  · simp [State.setEpoll, hw]

theorem State.setEpoll_same (s : State) (w fd : Nat) (reg : Option Registration) :
    (s.setEpoll w fd reg).epoll w fd = reg :=
  (s.setEpoll_epoll w fd reg w fd).trans (if_pos ⟨rfl, rfl⟩)

theorem State.setEpoll_other (s : State) {w fd w' fd' : Nat} (reg : Option Registration)
    (hat : w' ≠ w ∨ fd' ≠ fd) : (s.setEpoll w fd reg).epoll w' fd' = s.epoll w' fd' := by
  rw [State.setEpoll_epoll]
  refine if_neg ?_
  rintro ⟨rfl, rfl⟩
  simp at hat

/-- A change to a socket context that is of the connection `r`, or of none, does
not touch the contexts of the others. -/
theorem State.sockets_other {p p' : Nat} {context : SocketContext} (y : Option SocketContext)
    (hown : ∀ context, s.sockets p = some context → context.data = .ptr r)
    (hp : s.sockets p' = some context) (hne : context.data ≠ .ptr r) :
    Function.update s.sockets p y p' = some context := by
  have hpp : p' ≠ p := by
    rintro rfl
    exact hne (hown context hp)
  rw [Function.update_of_ne hpp, hp]

theorem State.setQueue_waiting {a : Nat} {q : LockQueue.Queue Nat} {items : List Nat}
    (hq : LockQueue.Represents q items) (a' w' : Nat) :
    (s.setQueue a w q).waiting a' w' = if a' = a ∧ w' = w then items else s.waiting a' w' := by
  rw [State.waiting, State.setQueue_queues]
  split
  · exact hq.contents_eq
  · rfl

/-- A queue that has gained or lost others holds this one as before. -/
theorem State.setQueue_mem_waiting {a : Nat} {q : LockQueue.Queue Nat} {items : List Nat}
    (hq : LockQueue.Represents q items) (hsame : r ∈ items ↔ r ∈ s.waiting a w) (a' w' : Nat) :
    r ∈ (s.setQueue a w q).waiting a' w' ↔ r ∈ s.waiting a' w' := by
  rw [State.setQueue_waiting hq]
  split
  · rename_i hat
    rw [hat.1, hat.2, hsame]
  · rfl

theorem Queued.setQueue {a : Nat} {q : LockQueue.Queue Nat} {items : List Nat} (h : Queued s)
    (hq : LockQueue.Represents q items) (hmax : q.maxSize = 1024) (hnodup : items.Nodup) :
    Queued (s.setQueue a w q) := by
  refine ⟨?_, ?_, ?_⟩
  · intro a' w'
    rw [State.setQueue_waiting hq, State.setQueue_queues]
    split
    · exact hq
    · exact h.represents a' w'
  · intro a' w'
    rw [State.setQueue_queues]
    split
    · exact hmax
    · exact h.maxSize a' w'
  · intro a' w'
    rw [State.setQueue_waiting hq]
    split
    · exact hnodup
    · exact h.nodup a' w'

theorem Owned.setQueue {a : Nat} {q : LockQueue.Queue Nat} (h : Owned cfg s k)
    (hq : LockQueue.Represents q (s.waiting a w)) (hmax : q.maxSize = 1024) :
    Owned cfg (s.setQueue a w q) k := by
  obtain ⟨hwired, hhanded, hqueued, hbatched, hok⟩ := h
  refine ⟨⟨hwired.requests, hwired.unborn, hwired.sockets_lt, hwired.files, hwired.listening,
    hwired.registered, hwired.only⟩, ⟨hhanded.workers, hhanded.actors, ?_⟩,
    hqueued.setQueue hq hmax (hqueued.nodup a w),
    ⟨hbatched.nodup, hbatched.pending, hbatched.accepting, hbatched.dispatching⟩, hok⟩
  intro a' w' r'
  rw [State.setQueue_mem_waiting hq Iff.rfl, ← hhanded.queues]

end

end Jullop
