import Jullop.AtomicQueue
import Jullop.LockQueue

/-! The hand-over between `queue_push` and `process_epoll_event`. Elements go
through the ring and their number through the event file descriptor; the two
must agree whatever the interleaving. The actor is written against `queue.h`, so
it is modelled once over a channel that stands for either queue. -/

namespace Jullop

/-- A queue with one producer and one consumer, seen through `queue.h`. The
steps of `queue_push` and `queue_pop` are those of the implementation, and
`between` says that an element is published and not yet signalled. -/
structure Channel (α : Type) where
  Shared : Type
  Push : Type
  Pop : Type
  made : Shared → Prop
  pushIdle : Push
  popIdle : Pop
  between : Push → Bool
  addEvent : Shared → Nat
  setEvent : Shared → Nat → Shared
  queuePush : Shared → α → Push → Option (Shared × Push × List (QueueObs α))
  queuePop : Shared → Pop → Option (Shared × Pop × List (QueueObs α))

namespace Channel

variable {α : Type}

inductive ActorPc (P : Type)
  /-- in `epoll_wait`, or busy with another queue -/
  | waiting
  /-- at the `eventfd_read` of `process_epoll_event` -/
  | reading
  /-- in the inner loop, with `owed` iterations left -/
  | popping (owed : Nat) (pop : P)

structure State (c : Channel α) where
  shared : c.Shared
  producer : c.Push
  actor : ActorPc c.Pop

inductive Thread (α : Type)
  | worker (ptr : α)
  | actor

def ActorPc.owed {P : Type} : ActorPc P → Nat
  | .popping owed _ => owed
  | _ => 0

/-- Where the inner loop goes after a step of `queue_pop`: a NULL pointer makes
`process_epoll_event` return. -/
def afterPop {P : Type} (idle : P) (owed : Nat) (pop : P) : List (QueueObs α) → ActorPc P
  | [.pop none] => .waiting
  | [.pop (some _)] => .popping owed idle
  | _ => .popping (owed + 1) pop

/-- One step of the actor's loop. `epoll_wait` is level-triggered: it reports
the queue only while the counter is positive. -/
def processEpollEvent (c : Channel α) (shared : c.Shared) :
    ActorPc c.Pop → Option (c.Shared × ActorPc c.Pop × List (QueueObs α))
  | .waiting => if 0 < c.addEvent shared then some (shared, .reading, []) else none
  | .reading =>
    match eventfdRead (c.addEvent shared) with
    | none => some (shared, .waiting, [])
    | some (numToRead, event) =>
      some (c.setEvent shared event, .popping numToRead c.popIdle, [])
  | .popping 0 _ => some (shared, .reading, [])
  | .popping (owed + 1) pop =>
    (c.queuePop shared pop).map fun (shared, pop, obs) =>
      (shared, afterPop c.popIdle owed pop obs, obs)

def handOver (c : Channel α) : Machine (State c) (Thread α) (QueueObs α) where
  init s := c.made s.shared ∧ s.producer = c.pushIdle ∧ s.actor = .waiting
  step s
    | .worker ptr =>
      (c.queuePush s.shared ptr s.producer).map fun (shared, pc, obs) =>
        (⟨shared, pc, s.actor⟩, obs)
    | .actor =>
      (c.processEpollEvent s.shared s.actor).map fun (shared, pc, obs) =>
        (⟨shared, s.producer, pc⟩, obs)

/-- What the hand-over relies on: `Rep` ties a queue and the two calls under way
to the elements outstanding, and `Doomed` marks a `queue_pop` that has already
seen the queue empty. -/
structure Lawful (c : Channel α) where
  Rep : c.Shared → c.Push → c.Pop → List α → Prop
  Doomed : c.Pop → Prop
  start : ∀ {q}, c.made q →
    Rep q c.pushIdle c.popIdle [] ∧ c.addEvent q = 0 ∧ c.between c.pushIdle = false
  event : ∀ {q pu po items} (n : Nat), Rep q pu po items → Rep (c.setEvent q n) pu po items
  addEvent_set : ∀ q n, c.addEvent (c.setEvent q n) = n
  idle : ¬ Doomed c.popIdle
  restart : ∀ {q pu po items}, Rep q pu po items → Rep q pu c.popIdle items
  push : ∀ {q pu po items ptr q' pu' obs}, Rep q pu po items →
    c.queuePush q ptr pu = some (q', pu', obs) →
    Rep q' pu' po (obs.foldl QueueObs.apply items) ∧
      c.addEvent q' + (c.between pu').toNat + items.length =
        c.addEvent q + (c.between pu).toNat + (obs.foldl QueueObs.apply items).length ∧
      .pop none ∉ obs
  pop : ∀ {q pu po items q' po' obs}, Rep q pu po items → items ≠ [] → ¬ Doomed po →
    c.queuePop q po = some (q', po', obs) →
    Rep q' pu po' (obs.foldl QueueObs.apply items) ∧ c.addEvent q' = c.addEvent q ∧
      ((obs = [] ∧ ¬ Doomed po') ∨ ∃ x, obs = [.pop (some x)])

/-- The pop the actor is executing; outside the inner loop none is. -/
def ActorPc.pop {P : Type} (idle : P) : ActorPc P → P
  | .popping _ pop => pop
  | _ => idle

structure Balanced {c : Channel α} (law : Lawful c) (s : State c) (tr : List (QueueObs α)) :
    Prop where
  rep : law.Rep s.shared s.producer (s.actor.pop c.popIdle) (outstanding tr)
  alive : ¬ law.Doomed (s.actor.pop c.popIdle)
  balance : c.addEvent s.shared + s.actor.owed + (c.between s.producer).toNat =
    (outstanding tr).length
  served : .pop none ∉ tr

theorem Balanced.worker_step {c : Channel α} {law : Lawful c} {s : State c}
    {tr obs : List (QueueObs α)} (h : Balanced law s tr) {ptr : α} {q : c.Shared} {pu : c.Push}
    (hs : c.queuePush s.shared ptr s.producer = some (q, pu, obs)) :
    Balanced law ⟨q, pu, s.actor⟩ (tr ++ obs) := by
  obtain ⟨hrep, hbal, hnull⟩ := law.push h.rep hs
  have hold := h.balance
  refine ⟨by rwa [outstanding_append], h.alive, ?_, by simp [h.served, hnull]⟩
  rw [outstanding_append]
  dsimp only at hbal ⊢
  omega

theorem Balanced.actor_step {c : Channel α} {law : Lawful c} {s : State c}
    {tr obs : List (QueueObs α)} (h : Balanced law s tr) {q : c.Shared} {pc : ActorPc c.Pop}
    (hs : c.processEpollEvent s.shared s.actor = some (q, pc, obs)) :
    Balanced law ⟨q, s.producer, pc⟩ (tr ++ obs) := by
  obtain ⟨shared, producer, actor⟩ := s
  obtain ⟨hrep, halive, hbal, hserved⟩ := h
  dsimp only at hrep halive hbal hs ⊢
  cases actor with
  | waiting =>
    simp only [processEpollEvent, Option.ite_none_right_eq_some, Option.some.injEq,
      Prod.mk.injEq] at hs
    obtain ⟨_, rfl, rfl, rfl⟩ := hs
    rw [List.append_nil]
    exact ⟨hrep, halive, hbal, hserved⟩
  | reading =>
    simp only [processEpollEvent, eventfdRead] at hs
    by_cases hz : c.addEvent shared = 0
    · simp only [hz, if_true, Option.some.injEq, Prod.mk.injEq] at hs
      obtain ⟨rfl, rfl, rfl⟩ := hs
      rw [List.append_nil]
      exact ⟨hrep, halive, hbal, hserved⟩
    · simp only [hz, if_false, Option.some.injEq, Prod.mk.injEq] at hs
      obtain ⟨rfl, rfl, rfl⟩ := hs
      rw [List.append_nil]
      refine ⟨law.event 0 hrep, law.idle, ?_, hserved⟩
      simp only [law.addEvent_set, ActorPc.owed] at hbal ⊢
      omega
  | popping owed pop =>
    cases owed with
    | zero =>
      simp only [processEpollEvent, Option.some.injEq, Prod.mk.injEq] at hs
      obtain ⟨rfl, rfl, rfl⟩ := hs
      rw [List.append_nil]
      exact ⟨law.restart hrep, law.idle, hbal, hserved⟩
    | succ owed =>
      simp only [processEpollEvent, Option.map_eq_some_iff, Prod.mk.injEq, Prod.exists] at hs
      obtain ⟨q₁, pop₁, obs₁, hp, rfl, rfl, rfl⟩ := hs
      simp only [ActorPc.owed] at hbal
      have hne : outstanding tr ≠ [] := by
        intro he
        rw [he, List.length_nil] at hbal
        omega
      obtain ⟨hrep', hev, ⟨rfl, halive'⟩ | ⟨x, rfl⟩⟩ := law.pop hrep hne halive hp
      · rw [List.append_nil]
        exact ⟨hrep', halive', by simpa [afterPop, ActorPc.owed, hev] using hbal, hserved⟩
      · refine ⟨?_, law.idle, ?_, by simpa using hserved⟩
        · rw [outstanding_append]
          exact law.restart hrep'
        · have hlen := List.length_pos_iff.mpr hne
          simp only [afterPop, ActorPc.owed, hev, outstanding_append, List.foldl_cons,
            List.foldl_nil, QueueObs.apply, List.length_tail]
          omega

theorem handOver_balanced {c : Channel α} (law : Lawful c) {s : State c}
    {tr : List (QueueObs α)} (h : (handOver c).Run s tr) : Balanced law s tr := by
  refine Machine.Run.invariant (Balanced law) ?_ ?_ h
  · rintro ⟨shared, producer, actor⟩ ⟨hq, rfl, rfl⟩
    obtain ⟨hrep, hev, hb⟩ := law.start hq
    exact ⟨hrep, law.idle, by simp [hev, hb, ActorPc.owed, outstanding], by simp⟩
  · intro s tr l t obs hi hs
    cases l with
    | worker ptr =>
      simp only [handOver, Option.map_eq_some_iff, Prod.mk.injEq, Prod.exists] at hs
      obtain ⟨q, pc, _, hs, rfl, rfl⟩ := hs
      exact hi.worker_step hs
    | actor =>
      simp only [handOver, Option.map_eq_some_iff, Prod.mk.injEq, Prod.exists] at hs
      obtain ⟨q, pc, _, hs, rfl, rfl⟩ := hs
      exact hi.actor_step hs

end Channel

section Lock

open LockQueue

variable {α : Type}

structure Guarded (α : Type) where
  queue : LockQueue.Queue α
  held : Bool

inductive LockPush
  | idle
  | published

/-- The producer publishes and signals inside one critical section, which keeps
`queue_pop` out in between but not `eventfd_read`. -/
def lockChannel (maxSize : Nat) : Channel α where
  Shared := Guarded α
  Push := LockPush
  Pop := Unit
  made q := q = ⟨queueInit maxSize, false⟩
  pushIdle := .idle
  popIdle := ()
  between
    | .idle => false
    | .published => true
  addEvent q := q.queue.addEvent
  setEvent q n := { q with queue := { q.queue with addEvent := n } }
  queuePush q ptr
    | .idle =>
      if q.held then none
      else if isFull q.queue then some (q, .idle, [.push ptr .queueFailure])
      else some (⟨publish q.queue ptr, true⟩, .published, [.push ptr .queueSuccess])
    | .published =>
      (eventfdWrite q.queue.addEvent).map fun event =>
        (⟨{ q.queue with addEvent := event }, false⟩, .idle, [])
  queuePop q _ :=
    if q.held then none
    else some (⟨(queuePop q.queue).2, q.held⟩, (), [.pop (queuePop q.queue).1])

theorem queuePush_eq_publish {q : LockQueue.Queue α} (h : isFull q = false) (ptr : α) :
    queuePush q ptr = (eventfdWrite (publish q ptr).addEvent).map fun event =>
      (.queueSuccess, { publish q ptr with addEvent := event }) := by
  simp [queuePush, h, publish]

theorem lockChannel_push {maxSize : Nat} {q q' : Guarded α} {pu pu' : LockPush} {items : List α}
    {ptr : α} {obs : List (QueueObs α)} (h : Represents q.queue items)
    (hp : (lockChannel maxSize).queuePush q ptr pu = some (q', pu', obs)) :
    Represents q'.queue (obs.foldl QueueObs.apply items) ∧
      (lockChannel maxSize).addEvent q' + ((lockChannel maxSize : Channel α).between pu').toNat +
          items.length =
        (lockChannel maxSize).addEvent q + ((lockChannel maxSize : Channel α).between pu).toNat +
          (obs.foldl QueueObs.apply items).length ∧
      .pop none ∉ obs := by
  cases pu with
  | idle =>
    simp only [lockChannel] at hp
    by_cases hheld : q.held = true
    · simp [hheld] at hp
    · by_cases hf : isFull q.queue = true
      · simp only [hheld, hf, if_true, Bool.false_eq_true, if_false] at hp
        cases hp
        exact ⟨h, rfl, by simp⟩
      · simp only [hheld, hf, Bool.false_eq_true, if_false] at hp
        cases hp
        refine ⟨publish_represents h (fun he => hf (h.isFull_iff.mpr he)) ptr, ?_, by simp⟩
        simp [lockChannel, publish, QueueObs.apply]
        omega
  | published =>
    obtain ⟨event, he, rfl, rfl, rfl⟩ := Option.map_eq_some_iff.mp hp
    refine ⟨h.setEvent event, ?_, by simp⟩
    simp [lockChannel, eventfdWrite_eq_some he]

def lockChannelLawful (maxSize : Nat) : (lockChannel maxSize : Channel α).Lawful where
  Rep q _ _ items := Represents q.queue items
  Doomed _ := False
  start := by
    rintro q rfl
    exact ⟨queueInit_represents maxSize, rfl, rfl⟩
  event n h := h.setEvent n
  addEvent_set _ _ := rfl
  idle := id
  restart h := h
  push := lockChannel_push
  pop := by
    intro q pu po items q' po' obs h hne _ hp
    obtain ⟨hheld, hp⟩ := Option.ite_none_left_eq_some.mp hp
    cases hp
    obtain ⟨x, items, rfl⟩ := List.exists_cons_of_ne_nil hne
    obtain ⟨h1, h2, _, h4⟩ := queuePop_cons h
    rw [h1]
    exact ⟨h2, h4, .inr ⟨x, rfl⟩⟩

end Lock

section Atomic

open AtomicQueue

variable {α : Type}

def atomicChannel (n : Nat) : Channel α where
  Shared := AtomicQueue.Queue α
  Push := PushPc α
  Pop := PopPc α
  made q := ∃ heap, q = queueInit heap n
  pushIdle := .idle
  popIdle := .idle
  between
    | .published => true
    | _ => false
  addEvent q := q.addEvent
  setEvent q n := { q with addEvent := n }
  queuePush q ptr pc := (queuePush q ptr pc).map fun (q, pc, obs) => (q, pc, calls obs)
  queuePop q pc := some ((queuePop q pc).1, (queuePop q pc).2.1, calls (queuePop q pc).2.2)

theorem AtomicQueue.pending_append (tr obs : List (AtomicObs α)) :
    pending (tr ++ obs) = (calls obs).foldl QueueObs.apply (pending tr) := by
  rw [pending, calls, List.filterMap_append, outstanding_append]
  rfl

/-- A `queue_pop` that has loaded equal offsets will return NULL. -/
def PopDoomed : PopPc α → Prop
  | .loadedPush pop push => pop = push
  | _ => False

theorem atomicChannel_push {n : Nat} {q q' : AtomicQueue.Queue α} {pu pu' : PushPc α} {po : PopPc α}
    {items : List α} {ptr : α} {obs : List (QueueObs α)}
    (h : ∃ size tr, Inv size ⟨q, pu, po⟩ tr ∧ pending tr = items)
    (hp : (atomicChannel n).queuePush q ptr pu = some (q', pu', obs)) :
    (∃ size tr, Inv size ⟨q', pu', po⟩ tr ∧ pending tr = obs.foldl QueueObs.apply items) ∧
      (atomicChannel n).addEvent q' + ((atomicChannel n : Channel α).between pu').toNat +
          items.length =
        (atomicChannel n).addEvent q + ((atomicChannel n : Channel α).between pu).toNat +
          (obs.foldl QueueObs.apply items).length ∧
      .pop none ∉ obs := by
  obtain ⟨size, tr, h, rfl⟩ := h
  obtain ⟨⟨q₁, pu₁, obs₁⟩, hstep, rfl, rfl, rfl⟩ := Option.map_eq_some_iff.mp hp
  clear hp
  refine ⟨⟨size, tr ++ obs₁, h.producer_step hstep, pending_append tr obs₁⟩, ?_⟩
  cases pu with
  | idle => cases hstep; exact ⟨rfl, by simp [calls]⟩
  | loadedPush ptr push => cases hstep; exact ⟨rfl, by simp [calls, AtomicObs.call?]⟩
  | loadedPop ptr push pop =>
    simp only [queuePush] at hstep
    split at hstep <;> cases hstep <;> exact ⟨rfl, by simp [calls, AtomicObs.call?]⟩
  | written ptr push =>
    cases hstep
    refine ⟨?_, by simp [calls, AtomicObs.call?]⟩
    simp [atomicChannel, calls, AtomicObs.call?, QueueObs.apply]
    omega
  | published =>
    obtain ⟨event, he, rfl, rfl, rfl⟩ := Option.map_eq_some_iff.mp hstep
    refine ⟨?_, by simp [calls]⟩
    simp [atomicChannel, calls, eventfdWrite_eq_some he]

def atomicChannelLawful (n : Nat) : (atomicChannel n : Channel α).Lawful where
  Rep q pu po items := ∃ size tr, Inv size ⟨q, pu, po⟩ tr ∧ pending tr = items
  Doomed := PopDoomed
  start := by
    rintro q ⟨heap, rfl⟩
    obtain ⟨size, hpos, hw⟩ := exists_wraps (queueInit heap n).mask
    exact ⟨⟨size, [], Inv.start hpos hw, rfl⟩, rfl, rfl⟩
  event := by
    rintro q pu po items m ⟨size, tr, h, hp⟩
    exact ⟨size, tr, h.setEvent m, hp⟩
  addEvent_set _ _ := rfl
  idle := id
  restart := by
    rintro q pu po items ⟨size, tr, h, hp⟩
    exact ⟨size, tr, ⟨h.layout, h.fifo, h.producer, trivial, h.justified⟩, hp⟩
  push := atomicChannel_push
  pop := by
    rintro q pu po items q' po' obs ⟨size, tr, h, rfl⟩ hne hdoom hp
    cases hp
    refine ⟨⟨size, _, h.consumer_step, pending_append tr _⟩, ?_⟩
    have hl := h.layout
    have hc := h.consumer
    cases po with
    | idle => exact ⟨rfl, .inl ⟨rfl, id⟩⟩
    | loadedPop pop =>
      refine ⟨rfl, .inl ⟨rfl, fun he : pop = q.pushOffset => ?_⟩⟩
      rw [show pop = (popped tr).length % size from hc, hl.push, stale_push hl.room] at he
      exact hne (List.length_eq_zero_iff.mp he)
    | loadedPush pop push =>
      have hpp : pop ≠ push := hdoom
      simp only [queuePop, hpp, if_false]
      exact ⟨trivial, .inl ⟨rfl, id⟩⟩
    | read pop ptr =>
      obtain ⟨_, _, rfl⟩ := hc
      obtain ⟨x, items, hx⟩ := List.exists_cons_of_ne_nil hne
      exact ⟨rfl, .inr ⟨x, by simp [queuePop, calls, AtomicObs.call?, hx]⟩⟩

end Atomic

namespace Channel

variable {α : Type}

/-- The two implementations of `queue.h`, of any size. -/
def IsQueue (c : Channel α) : Prop :=
  (∃ maxSize, c = lockChannel maxSize) ∨ ∃ n, c = atomicChannel n

/-- No wake-up is lost between `queue_push` and `process_epoll_event`. -/
theorem handOver_no_lost_wakeup {c : Channel α} (hc : IsQueue c) {s : State c}
    {tr : List (QueueObs α)} (h : (handOver c).Run s tr) :
    c.addEvent s.shared + s.actor.owed + (c.between s.producer).toNat =
      (outstanding tr).length ∧
    .pop none ∉ tr ∧
    (s.actor = .waiting → c.between s.producer = false → outstanding tr ≠ [] →
      0 < c.addEvent s.shared) := by
  have hb : c.addEvent s.shared + s.actor.owed + (c.between s.producer).toNat =
      (outstanding tr).length ∧ .pop none ∉ tr := by
    rcases hc with ⟨maxSize, rfl⟩ | ⟨n, rfl⟩
    · have hb := handOver_balanced (lockChannelLawful maxSize) h
      exact ⟨hb.balance, hb.served⟩
    · have hb := handOver_balanced (atomicChannelLawful n) h
      exact ⟨hb.balance, hb.served⟩
  refine ⟨hb.1, hb.2, fun hwait hout hne => ?_⟩
  have hpos := List.length_pos_iff.mpr hne
  have hbal := hb.1
  simp only [hwait, hout, ActorPc.owed, Bool.toNat_false] at hbal
  omega

/-- The actor reads the counter while the worker stands between publishing and
signalling its first element; it goes back to waiting and is woken later. -/
theorem handOver_no_lost_wakeup_early : ∃ s : State (lockChannel 5 : Channel Nat),
    (handOver (lockChannel 5)).Run s [.push 1 .queueSuccess, .push 2 .queueSuccess] ∧
    (s.actor.owed = 1 ∧ outstanding [QueueObs.push 1 .queueSuccess, .push 2 .queueSuccess] =
      [1, 2]) ∧ .pop none ∉ [QueueObs.push 1 .queueSuccess, .push 2 .queueSuccess] := by
  have hstart : (handOver (lockChannel 5 : Channel Nat)).Run
      ⟨⟨LockQueue.queueInit 5, false⟩, .idle, .waiting⟩ [] := .start ⟨rfl, rfl, rfl⟩
  have hrun := ((((hstart.next (.worker 1) rfl).next (.worker 1) rfl).next .actor rfl).next
    (.worker 2) rfl).next .actor rfl
  exact ⟨_, hrun, ⟨rfl, rfl⟩, (handOver_no_lost_wakeup (.inl ⟨5, rfl⟩) hrun).2.1⟩

end Channel

end Jullop
