import Jullop.Linearization
import Jullop.LockQueue

/-! The calls of `mrmw_queue.c` access by access, for any number of threads. The event
counter is read by the actors without the mutex. -/

namespace Jullop

namespace MutexQueue

open LockQueue Linearization

variable {α : Type*}

inductive Call (α : Type*)
  | push (ptr : α)
  | pop
  | size
  | eventfdRead

inductive Answer (α : Type*)
  | push (result : QueueResult)
  | pop (ptr : Option α)
  | size (size : Nat)
  | eventfdRead (value : Option Nat)

/-- A whole call, as it is made in the other modules. -/
def perform (q : Queue α) : Call α → Option (Queue α × Answer α)
  | .push ptr => (queuePush q ptr).map fun y => (y.2, .push y.1)
  | .pop => some ((queuePop q).2, .pop (queuePop q).1)
  | .size => some (q, .size (queueSize q))
  | .eventfdRead =>
    match Jullop.eventfdRead q.addEvent with
    | none => some (q, .eventfdRead none)
    | some y => some ({ q with addEvent := y.2 }, .eventfdRead (some y.1))

/-- Where a thread is in a call, with what it has loaded. -/
inductive Pc (α : Type*)
  | outside
  | locking (call : Call α)
  | testing (call : Call α)
  | pushStore (ptr : α)
  | pushStoreAt (ptr : α) (offset : Nat)
  | pushAdvance (ptr : α)
  | pushAdvanceFrom (ptr : α) (offset : Nat)
  | pushGrow (ptr : α)
  | pushGrowFrom (ptr : α) (size : Nat)
  | pushSignal (ptr : α)
  | popLoad
  | popLoadAt (offset : Nat)
  | popAdvance (ptr : Option α)
  | popAdvanceFrom (ptr : Option α) (offset : Nat)
  | popShrink (ptr : Option α)
  | popShrinkFrom (ptr : Option α) (size : Nat)
  | unlocking (answer : Answer α)
  | returning (answer : Answer α)

structure State (α : Type*) where
  queue : Queue α
  lock : Option Nat
  pcs : Nat → Pc α

def State.goto (s : State α) (t : Nat) (pc : Pc α) : State α :=
  { s with pcs := Function.update s.pcs t pc }

/-- The next access of a thread. A thread at the mutex goes on only when it is free,
and one whose `eventfd_write` would fail stays where it is, though the process would
end there. -/
def State.go (s : State α) (t : Nat) : Option (State α × List (Event (Call α) (Answer α))) :=
  match s.pcs t with
  | .outside => none
  | .locking .eventfdRead =>
    (perform s.queue .eventfdRead).map fun y =>
      ({ s with queue := y.1 }.goto t (.returning y.2), [])
  | .locking call =>
    if s.lock = none then some ({ s with lock := some t }.goto t (.testing call), []) else none
  | .testing (.push ptr) =>
    if isFull s.queue then some (s.goto t (.unlocking (.push .queueFailure)), [])
    else some (s.goto t (.pushStore ptr), [])
  | .testing .pop =>
    if isEmpty s.queue then some (s.goto t (.unlocking (.pop none)), [])
    else some (s.goto t .popLoad, [])
  | .testing .size => some (s.goto t (.unlocking (.size s.queue.currentSize)), [])
  | .testing .eventfdRead => none
  | .pushStore ptr => some (s.goto t (.pushStoreAt ptr s.queue.enqueueOffset), [])
  | .pushStoreAt ptr offset =>
    let q := { s.queue with ringBuffer := Function.update s.queue.ringBuffer offset (some ptr) }
    some ({ s with queue := q }.goto t (.pushAdvance ptr), [])
  | .pushAdvance ptr => some (s.goto t (.pushAdvanceFrom ptr s.queue.enqueueOffset), [])
  | .pushAdvanceFrom ptr offset =>
    let q := { s.queue with enqueueOffset := (offset + 1) % s.queue.maxSize }
    some ({ s with queue := q }.goto t (.pushGrow ptr), [])
  | .pushGrow ptr => some (s.goto t (.pushGrowFrom ptr s.queue.currentSize), [])
  | .pushGrowFrom ptr size =>
    some ({ s with queue := { s.queue with currentSize := size + 1 } }.goto t (.pushSignal ptr), [])
  | .pushSignal _ =>
    (eventfdWrite s.queue.addEvent).map fun event =>
      ({ s with queue := { s.queue with addEvent := event } }.goto t
        (.unlocking (.push .queueSuccess)), [])
  | .popLoad => some (s.goto t (.popLoadAt s.queue.dequeueOffset), [])
  | .popLoadAt offset => some (s.goto t (.popAdvance (s.queue.ringBuffer offset)), [])
  | .popAdvance ptr => some (s.goto t (.popAdvanceFrom ptr s.queue.dequeueOffset), [])
  | .popAdvanceFrom ptr offset =>
    let q := { s.queue with dequeueOffset := (offset + 1) % s.queue.maxSize }
    some ({ s with queue := q }.goto t (.popShrink ptr), [])
  | .popShrink ptr => some (s.goto t (.popShrinkFrom ptr s.queue.currentSize), [])
  | .popShrinkFrom ptr size =>
    some ({ s with queue := { s.queue with currentSize := size - 1 } }.goto t
      (.unlocking (.pop ptr)), [])
  | .unlocking answer => some ({ s with lock := none }.goto t (.returning answer), [])
  | .returning answer => some (s.goto t .outside, [.ret t answer])

inductive Act (α : Type*)
  | call (call : Call α)
  | go

def mutexQueue (maxSize : Nat) :
    Machine (State α) (Nat × Act α) (Event (Call α) (Answer α)) where
  init s := s = ⟨queueInit maxSize, none, fun _ => .outside⟩
  step s l :=
    match l.2 with
    | .call call =>
      match s.pcs l.1 with
      | .outside => some (s.goto l.1 (.locking call), [.call l.1 call])
      | _ => none
    | .go => s.go l.1

namespace Pc

/-- Between the lock and the unlock. -/
def inside : Pc α → Bool
  | .outside | .locking _ | .returning _ => false
  | _ => true

/-- What is known of the call from outside. A push takes effect with its event, a pop
when the size is stored. -/
def phase : Pc α → Phase (Call α) (Answer α)
  | .outside => .idle
  | .locking call | .testing call => .called call
  | .pushStore ptr | .pushStoreAt ptr _ | .pushAdvance ptr | .pushAdvanceFrom ptr _ | .pushGrow ptr
  | .pushGrowFrom ptr _ | .pushSignal ptr => .called (.push ptr)
  | .popLoad | .popLoadAt _ | .popAdvance _ | .popAdvanceFrom _ _ | .popShrink _
  | .popShrinkFrom _ _ => .called .pop
  | .unlocking answer | .returning answer => .done answer

/-- What the thread in the critical section has made of the queue `q` so far. -/
def applied (q : Queue α) : Pc α → Queue α
  | .pushAdvance ptr | .pushAdvanceFrom ptr _ =>
    { q with ringBuffer := Function.update q.ringBuffer q.enqueueOffset (some ptr) }
  | .pushGrow ptr | .pushGrowFrom ptr _ =>
    { q with
      ringBuffer := Function.update q.ringBuffer q.enqueueOffset (some ptr)
      enqueueOffset := (q.enqueueOffset + 1) % q.maxSize }
  | .pushSignal ptr => publish q ptr
  | .popShrink _ | .popShrinkFrom _ _ =>
    { q with dequeueOffset := (q.dequeueOffset + 1) % q.maxSize }
  | _ => q

/-- What the thread in the critical section knows of the queue. -/
def Knows (q : Queue α) : Pc α → Prop
  | .pushStore _ | .pushAdvance _ | .pushGrow _ | .pushSignal _ => isFull q = false
  | .pushStoreAt _ offset | .pushAdvanceFrom _ offset =>
    isFull q = false ∧ offset = q.enqueueOffset
  | .pushGrowFrom _ size => isFull q = false ∧ size = q.currentSize
  | .popLoad => isEmpty q = false
  | .popLoadAt offset => isEmpty q = false ∧ offset = q.dequeueOffset
  | .popAdvance ptr | .popShrink ptr =>
    isEmpty q = false ∧ ptr = q.ringBuffer q.dequeueOffset
  | .popAdvanceFrom ptr offset =>
    isEmpty q = false ∧ ptr = q.ringBuffer q.dequeueOffset ∧ offset = q.dequeueOffset
  | .popShrinkFrom ptr size =>
    isEmpty q = false ∧ ptr = q.ringBuffer q.dequeueOffset ∧ size = q.currentSize
  | .testing .eventfdRead => False
  | _ => True

end Pc

/-- The queue of the object is the one in memory but for what the thread in the critical
section has not finished. -/
structure Simulates (s : State α) (x : Queue α × (Nat → Phase (Call α) (Answer α))) : Prop where
  phases : ∀ t, x.2 t = (s.pcs t).phase
  inside : ∀ t, (s.pcs t).inside = true ↔ s.lock = some t
  free : s.lock = none → s.queue = x.1
  held : ∀ t, s.lock = some t → s.queue = (s.pcs t).applied x.1 ∧ (s.pcs t).Knows x.1

section

variable {s s' : State α} {x : Queue α × (Nat → Phase (Call α) (Answer α))} {t : Nat} {pc : Pc α}
  {q : Queue α}

theorem phase_update {phases : Nat → Phase (Call α) (Answer α)} {pcs : Nat → Pc α}
    {phase : Phase (Call α) (Answer α)} (h : ∀ t, phases t = (pcs t).phase)
    (hphase : phase = pc.phase) (t' : Nat) :
    Function.update phases t phase t' = (Function.update pcs t pc t').phase := by
  by_cases ht : t' = t
  · rw [ht, Function.update_self, Function.update_self, hphase]
  · rw [Function.update_of_ne ht, Function.update_of_ne ht, h]

/-- The call of the thread in the critical section takes effect. -/
theorem Simulates.commit {a : Answer α} (h : Simulates s x) (hlock : s.lock = some t)
    (hlock' : s'.lock = some t) (hpcs : s'.pcs = Function.update s.pcs t (.unlocking a))
    (hq : s'.queue = q) : Simulates s' (q, Function.update x.2 t (.done a)) := by
  refine ⟨?_, ?_, ?_, ?_⟩
  · rw [hpcs]
    exact phase_update h.phases rfl
  · intro t'
    rw [hpcs, hlock']
    by_cases ht : t' = t
    · subst ht
      simp [Pc.inside]
    · rw [Function.update_of_ne ht, h.inside, hlock]
  · intro hfree
    rw [hlock'] at hfree
    cases hfree
  · intro t' ht'
    rw [hlock'] at ht'
    cases ht'
    rw [hpcs, Function.update_self]
    exact ⟨hq, trivial⟩

/-- A thread outside the critical section stays outside. -/
theorem Simulates.outside {phase : Phase (Call α) (Answer α)} (h : Simulates s x)
    (hold : (s.pcs t).inside = false) (hlock : s'.lock = s.lock) (hqueue : s'.queue = s.queue)
    (hpcs : s'.pcs = Function.update s.pcs t pc) (hinside : pc.inside = false)
    (hphase : pc.phase = phase) : Simulates s' (x.1, Function.update x.2 t phase) := by
  have hnot : s.lock ≠ some t := by
    intro heq
    rw [(h.inside t).mpr heq] at hold
    cases hold
  refine ⟨?_, ?_, ?_, ?_⟩
  · rw [hpcs]
    exact phase_update h.phases hphase.symm
  · intro t'
    rw [hpcs, hlock]
    by_cases ht : t' = t
    · subst ht
      simp [hinside, hnot]
    · rw [Function.update_of_ne ht, h.inside]
  · intro hfree
    rw [hqueue]
    exact h.free (hlock ▸ hfree)
  · intro t' ht'
    rw [hlock] at ht'
    have ht : t' ≠ t := fun heq => hnot (heq ▸ ht')
    rw [hpcs, hqueue, Function.update_of_ne ht]
    exact h.held t' ht'

theorem Pc.applied_setEvent (pc : Pc α) (q : Queue α) (event : Nat) :
    pc.applied { q with addEvent := event } = { pc.applied q with addEvent := event } := by
  cases pc with
  | testing call => cases call <;> rfl
  | _ => rfl

theorem Pc.applied_event (pc : Pc α) (q : Queue α) : (pc.applied q).addEvent = q.addEvent := by
  cases pc with
  | testing call => cases call <;> rfl
  | _ => rfl

theorem Pc.knows_setEvent {pc : Pc α} {q : Queue α} (event : Nat) (h : pc.Knows q) :
    pc.Knows { q with addEvent := event } := by
  cases pc with
  | testing call => cases call <;> exact h
  | _ => exact h

/-- The event counter changes under the thread in the critical section. -/
theorem Simulates.setEvent (h : Simulates s x) (event : Nat) :
    Simulates { s with queue := { s.queue with addEvent := event } }
      ({ x.1 with addEvent := event }, x.2) := by
  refine ⟨h.phases, h.inside, ?_, ?_⟩
  · intro hfree
    rw [h.free hfree]
  · intro t' ht'
    obtain ⟨hq, hknows⟩ := h.held t' ht'
    refine ⟨?_, Pc.knows_setEvent event hknows⟩
    rw [Pc.applied_setEvent, ← hq]

theorem Simulates.acquire {call : Call α} (h : Simulates s x) (hpc : s.pcs t = .locking call)
    (hcall : call ≠ .eventfdRead) (hfree : s.lock = none) :
    Simulates ({ s with lock := some t }.goto t (.testing call)) x := by
  have hself : Function.update x.2 t (.called call) = x.2 := by
    have hphase : x.2 t = .called call := by rw [h.phases, hpc, Pc.phase]
    rw [← hphase, Function.update_eq_self]
  refine ⟨?_, ?_, nofun, ?_⟩
  · rw [← hself]
    exact phase_update h.phases rfl
  · intro t'
    by_cases ht : t' = t
    · subst ht
      simp [State.goto, Pc.inside]
    · have hout : ¬ (s.pcs t').inside = true := by simp [h.inside, hfree]
      simp [State.goto, Function.update_of_ne ht, hout, Ne.symm ht]
  · intro t' ht'
    obtain rfl := Option.some.inj ht'
    simp only [State.goto, Function.update_self]
    refine ⟨h.free hfree, ?_⟩
    cases call with
    | eventfdRead => exact absurd rfl hcall
    | push | pop | size => trivial

theorem Simulates.release {answer : Answer α} (h : Simulates s x)
    (hpc : s.pcs t = .unlocking answer) (hlock : s.lock = some t) :
    Simulates ({ s with lock := none }.goto t (.returning answer)) x := by
  have hself : Function.update x.2 t (.done answer) = x.2 := by
    have hphase : x.2 t = .done answer := by rw [h.phases, hpc, Pc.phase]
    rw [← hphase, Function.update_eq_self]
  refine ⟨?_, ?_, ?_, nofun⟩
  · rw [← hself]
    exact phase_update h.phases rfl
  · intro t'
    by_cases ht : t' = t
    · subst ht
      simp [State.goto, Pc.inside]
    · have hout : ¬ (s.pcs t').inside = true := by simp [h.inside, hlock, Ne.symm ht]
      simp [State.goto, Function.update_of_ne ht, hout]
  · intro _
    have hheld := (h.held t hlock).1
    rw [hpc] at hheld
    exact hheld

/-- The object makes the same step, or none. -/
def Matches (q : Queue α) (x : Queue α × (Nat → Phase (Call α) (Answer α))) (s' : State α)
    (obs : List (Event (Call α) (Answer α))) : Prop :=
  (obs = [] ∧ Simulates s' x) ∨
    ∃ l y, (object q perform).step x l = some (y, obs) ∧ Simulates s' y

theorem Simulates.holder (h : Simulates s x) (hpc : s.pcs t = pc) (hin : pc.inside = true) :
    s.lock = some t ∧ s.queue = pc.applied x.1 ∧ pc.Knows x.1 := by
  have hinside := h.inside t
  rw [hpc] at hinside
  have hlock := hinside.mp hin
  obtain ⟨hq, hknows⟩ := h.held t hlock
  rw [hpc] at hq hknows
  exact ⟨hlock, hq, hknows⟩

/-- A store in the critical section, that no other thread sees. -/
theorem Simulates.store {pc' : Pc α} (h : Simulates s x) (hpc : s.pcs t = pc)
    (hin : pc.inside = true) (hphase : pc'.phase = pc.phase) (hin' : pc'.inside = true)
    (hq : q = pc'.applied x.1) (hknows : pc'.Knows x.1) :
    Simulates ({ s with queue := q }.goto t pc') x := by
  obtain ⟨hlock, -, -⟩ := h.holder hpc hin
  have hself : Function.update x.2 t pc'.phase = x.2 := by
    rw [hphase, ← hpc, ← h.phases, Function.update_eq_self]
  refine ⟨?_, ?_, ?_, ?_⟩
  · rw [← hself]
    exact phase_update h.phases rfl
  · intro t'
    by_cases ht : t' = t
    · subst ht
      simp [State.goto, hin', hlock]
    · simp only [State.goto, Function.update_of_ne ht, h.inside]
  · intro hfree
    cases hlock.symm.trans hfree
  · intro t' ht'
    cases hlock.symm.trans ht'
    simp only [State.goto, Function.update_self]
    exact ⟨hq, hknows⟩

/-- A load there. -/
theorem Simulates.load {pc' : Pc α} (h : Simulates s x) (hpc : s.pcs t = pc)
    (hin : pc.inside = true) (hphase : pc'.phase = pc.phase) (hin' : pc'.inside = true)
    (happlied : pc'.applied x.1 = pc.applied x.1) (hknows : pc'.Knows x.1) :
    Simulates (s.goto t pc') x := by
  obtain ⟨-, hq, -⟩ := h.holder hpc hin
  exact h.store hpc hin hphase hin' (hq.trans happlied.symm) hknows

theorem Matches.of_commit {q0 : Queue α} {c : Call α} {a : Answer α} (hphase : x.2 t = .called c)
    (hp : perform x.1 c = some (q, a)) (h : Simulates s' (q, Function.update x.2 t (.done a))) :
    Matches q0 x s' [] := by
  refine .inr ⟨(t, .commit), _, ?_, h⟩
  simp [object, hphase, hp]

theorem Simulates.event_eq (h : Simulates s x) : s.queue.addEvent = x.1.addEvent := by
  cases hlock : s.lock with
  | none => rw [h.free hlock]
  | some t =>
    rw [(h.held t hlock).1, Pc.applied_event]

/-- `eventfd_read` does not take the mutex. -/
theorem read_matches {q0 : Queue α} {obs : List (Event (Call α) (Answer α))} (h : Simulates s x)
    (hpc : s.pcs t = .locking .eventfdRead) (hgo : s.go t = some (s', obs)) :
    Matches q0 x s' obs := by
  have hphase : x.2 t = .called .eventfdRead := by rw [h.phases, hpc, Pc.phase]
  have hout : (s.pcs t).inside = false := by rw [hpc]; rfl
  simp only [State.go, hpc, perform] at hgo
  cases hread : Jullop.eventfdRead s.queue.addEvent with
  | none =>
    rw [hread] at hgo
    cases hgo
    rw [h.event_eq] at hread
    refine .of_commit (q := x.1) (a := .eventfdRead none) hphase (by simp [perform, hread]) ?_
    exact h.outside hout rfl rfl rfl rfl rfl
  | some y =>
    rw [hread] at hgo
    cases hgo
    rw [h.event_eq] at hread
    refine .of_commit (q := { x.1 with addEvent := y.2 }) (a := .eventfdRead (some y.1)) hphase
      (by simp [perform, hread]) ?_
    exact (h.setEvent y.2).outside hout rfl rfl rfl rfl rfl

theorem locking_matches {q0 : Queue α} {call : Call α} {obs : List (Event (Call α) (Answer α))}
    (h : Simulates s x) (hpc : s.pcs t = .locking call) (hgo : s.go t = some (s', obs)) :
    Matches q0 x s' obs := by
  by_cases hcall : call = .eventfdRead
  · rw [hcall] at hpc
    exact read_matches h hpc hgo
  · have hlocking : s.lock = none ∧
        some ({ s with lock := some t }.goto t (.testing call), []) = some (s', obs) := by
      cases call with
      | eventfdRead => exact absurd rfl hcall
      | push | pop | size => simpa only [State.go, hpc, Option.ite_none_right_eq_some] using hgo
    obtain ⟨hfree, hs'⟩ := hlocking
    cases hs'
    exact .inl ⟨rfl, h.acquire hpc hcall hfree⟩

/-- A call that finds the queue full or empty, or that asks for its size, takes effect with
its first load. -/
theorem testing_matches {q0 : Queue α} {call : Call α} {obs : List (Event (Call α) (Answer α))}
    (h : Simulates s x) (hpc : s.pcs t = .testing call) (hgo : s.go t = some (s', obs)) :
    Matches q0 x s' obs := by
  have hphase : x.2 t = .called call := by rw [h.phases, hpc, Pc.phase]
  have hin : (Pc.testing call).inside = true := rfl
  obtain ⟨hlock, hq, hknows⟩ := h.holder hpc hin
  cases call with
  | eventfdRead => cases hknows
  | push ptr =>
    have hq' : s.queue = x.1 := hq
    simp only [State.go, hpc, hq'] at hgo
    split at hgo
    · rename_i hfull
      cases hgo
      refine .of_commit (q := x.1) (a := .push .queueFailure) hphase ?_ ?_
      · simp [perform, queuePush, hfull]
      · exact h.commit hlock hlock rfl hq'
    · rename_i hfull
      cases hgo
      rw [Bool.not_eq_true] at hfull
      exact .inl ⟨rfl, h.load hpc rfl rfl rfl rfl hfull⟩
  | pop =>
    have hq' : s.queue = x.1 := hq
    simp only [State.go, hpc, hq'] at hgo
    split at hgo
    · rename_i hempty
      cases hgo
      refine .of_commit (q := x.1) (a := .pop none) hphase ?_ ?_
      · simp [perform, queuePop, hempty]
      · exact h.commit hlock hlock rfl hq'
    · rename_i hempty
      cases hgo
      rw [Bool.not_eq_true] at hempty
      exact .inl ⟨rfl, h.load hpc rfl rfl rfl rfl hempty⟩
  | size =>
    have hq' : s.queue = x.1 := hq
    simp only [State.go, hpc, hq'] at hgo
    cases hgo
    exact .of_commit (q := x.1) hphase rfl (h.commit hlock hlock rfl hq')

/-- A push takes effect with its event. -/
theorem signal_matches {q0 : Queue α} {ptr : α} {obs : List (Event (Call α) (Answer α))}
    (h : Simulates s x) (hpc : s.pcs t = .pushSignal ptr) (hgo : s.go t = some (s', obs)) :
    Matches q0 x s' obs := by
  have hphase : x.2 t = .called (.push ptr) := by rw [h.phases, hpc, Pc.phase]
  obtain ⟨hlock, hq, hknows⟩ := h.holder hpc rfl
  simp only [State.go, hpc, Option.map_eq_some_iff, Prod.mk.injEq] at hgo
  obtain ⟨event, hevent, rfl, rfl⟩ := hgo
  rw [h.event_eq] at hevent
  have hroom : isFull x.1 = false := hknows
  refine .of_commit (q := { publish x.1 ptr with addEvent := event }) (a := .push .queueSuccess)
    hphase ?_ ?_
  · simp [perform, queuePush, hroom, hevent]
  · exact h.commit hlock hlock rfl (by rw [hq]; rfl)

/-- A pop takes effect with the store of the size. -/
theorem shrink_matches {q0 : Queue α} {ptr : Option α} {size : Nat}
    {obs : List (Event (Call α) (Answer α))} (h : Simulates s x)
    (hpc : s.pcs t = .popShrinkFrom ptr size) (hgo : s.go t = some (s', obs)) :
    Matches q0 x s' obs := by
  have hphase : x.2 t = .called .pop := by rw [h.phases, hpc, Pc.phase]
  obtain ⟨hlock, hq, hsome, rfl, rfl⟩ := h.holder hpc rfl
  simp only [State.go, hpc] at hgo
  cases hgo
  have hpop : queuePop x.1 = (x.1.ringBuffer x.1.dequeueOffset,
      { x.1 with
        dequeueOffset := (x.1.dequeueOffset + 1) % x.1.maxSize
        currentSize := x.1.currentSize - 1 }) := by
    simp [queuePop, hsome]
  refine .of_commit (q := (queuePop x.1).2) (a := .pop (queuePop x.1).1) hphase rfl ?_
  rw [hpop]
  exact h.commit hlock hlock rfl (by rw [hq]; rfl)

theorem go_matches {q0 : Queue α} {obs : List (Event (Call α) (Answer α))} (h : Simulates s x)
    (hgo : s.go t = some (s', obs)) : Matches q0 x s' obs := by
  cases hpc : s.pcs t with
  | outside =>
    simp only [State.go, hpc] at hgo
    cases hgo
  | locking call => exact locking_matches h hpc hgo
  | testing call => exact testing_matches h hpc hgo
  | pushSignal ptr => exact signal_matches h hpc hgo
  | popShrinkFrom ptr size => exact shrink_matches h hpc hgo
  | unlocking answer =>
    obtain ⟨hlock, -, -⟩ := h.holder hpc rfl
    simp only [State.go, hpc] at hgo
    cases hgo
    exact .inl ⟨rfl, h.release hpc hlock⟩
  | returning answer =>
    have hphase : x.2 t = .done answer := by rw [h.phases, hpc, Pc.phase]
    simp only [State.go, hpc] at hgo
    cases hgo
    refine .inr ⟨(t, .ret), (x.1, Function.update x.2 t .idle), ?_, ?_⟩
    · simp [object, hphase]
    · exact h.outside (by rw [hpc]; rfl) rfl rfl rfl rfl rfl
  -- the loads
  | pushStore | pushAdvance | pushGrow | popLoad =>
    obtain ⟨-, hq, hknows⟩ := h.holder hpc rfl
    simp only [State.go, hpc] at hgo
    cases hgo
    exact .inl ⟨rfl, h.load hpc rfl rfl rfl rfl ⟨hknows, by rw [hq]; rfl⟩⟩
  | popLoadAt =>
    obtain ⟨-, hq, hknows, rfl⟩ := h.holder hpc rfl
    simp only [State.go, hpc] at hgo
    cases hgo
    exact .inl ⟨rfl, h.load hpc rfl rfl rfl rfl ⟨hknows, by rw [hq]; rfl⟩⟩
  | popAdvance | popShrink =>
    obtain ⟨-, hq, hknows, rfl⟩ := h.holder hpc rfl
    simp only [State.go, hpc] at hgo
    cases hgo
    exact .inl ⟨rfl, h.load hpc rfl rfl rfl rfl ⟨hknows, rfl, by rw [hq]; rfl⟩⟩
  -- the stores
  | pushStoreAt | pushAdvanceFrom | pushGrowFrom =>
    obtain ⟨-, hq, hknows, rfl⟩ := h.holder hpc rfl
    simp only [State.go, hpc] at hgo
    cases hgo
    exact .inl ⟨rfl, h.store hpc rfl rfl rfl (by rw [hq]; rfl) hknows⟩
  | popAdvanceFrom =>
    obtain ⟨-, hq, hknows, rfl, rfl⟩ := h.holder hpc rfl
    simp only [State.go, hpc] at hgo
    cases hgo
    exact .inl ⟨rfl, h.store hpc rfl rfl rfl (by rw [hq]; rfl) ⟨hknows, rfl⟩⟩

theorem simulates_init (maxSize : Nat) :
    Simulates (⟨queueInit maxSize, none, fun _ => .outside⟩ : State α)
      (queueInit maxSize, fun _ => .idle) :=
  ⟨fun _ => rfl, fun _ => iff_of_false nofun nofun, fun _ => rfl, nofun⟩

theorem mutexQueue_simulates {maxSize : Nat} {tr : List (Event (Call α) (Answer α))}
    (h : (mutexQueue maxSize).Run s tr) :
    ∃ x, (object (queueInit maxSize) perform).Run x tr ∧ Simulates s x := by
  refine h.simulate Simulates ?_ ?_
  · rintro s rfl
    exact ⟨_, rfl, simulates_init maxSize⟩
  · intro s x l s' obs hsim hstep
    obtain ⟨t, act⟩ := l
    cases act with
    | go => exact go_matches hsim hstep
    | call call =>
      simp only [mutexQueue] at hstep
      split at hstep
      · rename_i hpc
        cases hstep
        have hphase : x.2 t = .idle := by rw [hsim.phases, hpc, Pc.phase]
        refine .inr ⟨(t, .call call), (x.1, Function.update x.2 t (.called call)), ?_, ?_⟩
        · simp [object, hphase]
        · exact hsim.outside (by rw [hpc]; rfl) rfl rfl rfl rfl rfl
      · cases hstep

/-- The thread in the critical section can go on, as long as the counter has room. -/
theorem Simulates.holder_goes (h : Simulates s x) (hlock : s.lock = some t)
    (hevent : s.queue.addEvent < eventfdMax) : (s.go t).isSome = true := by
  have hinside := (h.inside t).mpr hlock
  have hknows := (h.held t hlock).2
  cases hpc : s.pcs t with
  | outside | locking | returning =>
    rw [hpc] at hinside
    cases hinside
  | testing call =>
    rw [hpc] at hknows
    cases call with
    | eventfdRead => cases hknows
    | push | pop =>
      simp only [State.go, hpc]
      split <;> rfl
    | size => simp [State.go, hpc]
  | pushSignal ptr => simp [State.go, hpc, eventfdWrite, hevent]
  | _ => simp [State.go, hpc]

theorem Simulates.goes (h : Simulates s x) (hin : s.pcs t ≠ .outside)
    (hevent : s.queue.addEvent < eventfdMax) : ∃ t', (s.go t').isSome = true := by
  cases hlock : s.lock with
  | some t' => exact ⟨t', h.holder_goes hlock hevent⟩
  | none =>
    refine ⟨t, ?_⟩
    have hout : ¬ (s.pcs t).inside = true := by simp [h.inside, hlock]
    cases hpc : s.pcs t with
    | outside => exact absurd hpc hin
    | returning => simp [State.go, hpc]
    | locking call =>
      cases call with
      | push | pop | size => simp [State.go, hpc, hlock]
      | eventfdRead =>
        simp only [State.go, hpc, perform]
        split <;> rfl
    | _ =>
      rw [hpc] at hout
      exact absurd rfl hout

/-- Whatever the threads do between the accesses of a call, every history of the queue
is one of whole calls, each made at once between its start and its answer. No two
threads are in the critical section, and while a thread is in a call some thread can
go on. -/
theorem mutexQueue_linearizable {maxSize : Nat} {tr : List (Event (Call α) (Answer α))}
    (h : (mutexQueue maxSize).Run s tr) :
    Linearizable perform (queueInit maxSize) tr ∧
    (∀ t t', (s.pcs t).inside = true → (s.pcs t').inside = true → t = t') ∧
    (∀ t, s.pcs t ≠ .outside → s.queue.addEvent < eventfdMax → ∃ t', (s.go t').isSome = true) := by
  obtain ⟨x, hrun, hsim⟩ := mutexQueue_simulates h
  refine ⟨object_linearizable hrun, fun t t' ht ht' => ?_, fun t => hsim.goes⟩
  rw [hsim.inside] at ht ht'
  exact Option.some.inj (ht.symm.trans ht')

end

/-- A push by one thread, with the signal seen by another before the unlock, and its
pop. -/
theorem mutexQueue_linearizable_signal : ∃ (s : State Nat) (tr : List (Event (Call Nat) (Answer Nat))),
    (mutexQueue 2).Run s tr ∧ answered 1 tr = [.eventfdRead (some 1), .pop (some 7)] ∧
    Linearizable perform (queueInit 2) tr := by
  let ls : List (Nat × Act Nat) := [(0, .call (.push 7))] ++ List.replicate 9 (0, .go) ++
    [(1, .call .eventfdRead), (1, .go), (1, .go), (1, .call .pop), (0, .go)] ++
    List.replicate 10 (1, .go)
  have hexec : ∃ y, (mutexQueue 2).exec ⟨queueInit 2, none, fun _ => .outside⟩ ls = some y ∧
      answered 1 y.2 = [.eventfdRead (some 1), .pop (some 7)] := by
    refine ⟨_, rfl, ?_⟩
    rfl
  obtain ⟨⟨s, tr⟩, hs, htr⟩ := hexec
  have hrun : (mutexQueue 2).Run s tr := .of_exec rfl hs
  exact ⟨s, tr, hrun, htr, (mutexQueue_linearizable hrun).1⟩

end MutexQueue

end Jullop
