import Jullop.QueueInterface
import Jullop.Ring

/-! The lock queue, `mrmw_queue.c`. The mutex makes each call one critical
section, so a run of any number of threads is a sequence of whole calls. -/

namespace Jullop

namespace LockQueue

variable {α : Type*}

/-- The ring holds `maxSize` pointers, NULL being `none`; `addEvent` is the
counter behind the event file descriptor. -/
structure Queue (α : Type*) where
  maxSize : Nat
  currentSize : Nat
  ringBuffer : Nat → Option α
  enqueueOffset : Nat
  dequeueOffset : Nat
  addEvent : Nat

def isFull (q : Queue α) : Bool := q.currentSize == q.maxSize

def isEmpty (q : Queue α) : Bool := q.currentSize == 0

def queueInit (maxSize : Nat) : Queue α where
  maxSize := maxSize
  currentSize := 0
  ringBuffer := fun _ => none
  enqueueOffset := 0
  dequeueOffset := 0
  addEvent := 0

def queueSize (q : Queue α) : Nat := q.currentSize

/-- The part of `queue_push` before its `eventfd_write`. -/
def publish (q : Queue α) (ptr : α) : Queue α :=
  { q with
    ringBuffer := Function.update q.ringBuffer q.enqueueOffset (some ptr)
    enqueueOffset := (q.enqueueOffset + 1) % q.maxSize
    currentSize := q.currentSize + 1 }

/-- `none` is the exit of the process when `eventfd_write` fails. -/
def queuePush (q : Queue α) (ptr : α) : Option (QueueResult × Queue α) :=
  if isFull q then some (.queueFailure, q)
  else
    (eventfdWrite q.addEvent).map fun event =>
      (.queueSuccess, { publish q ptr with addEvent := event })

def queuePop (q : Queue α) : Option α × Queue α :=
  if isEmpty q then (none, q)
  else
    (q.ringBuffer q.dequeueOffset,
      { q with
        dequeueOffset := (q.dequeueOffset + 1) % q.maxSize
        currentSize := q.currentSize - 1 })

/-- The abstraction relation: the elements are the `currentSize` slots from
`dequeueOffset` on, and `enqueueOffset` is the slot after them. -/
structure Represents (q : Queue α) (items : List α) : Prop where
  size : q.currentSize = items.length
  size_le : q.currentSize ≤ q.maxSize
  dequeue_lt : 0 < q.maxSize → q.dequeueOffset < q.maxSize
  enqueue : q.enqueueOffset = (q.dequeueOffset + q.currentSize) % q.maxSize
  slots : Ring.window q.ringBuffer q.maxSize q.dequeueOffset q.currentSize = items.map some

def contents (q : Queue α) : List α :=
  (Ring.window q.ringBuffer q.maxSize q.dequeueOffset q.currentSize).filterMap id

theorem Represents.contents_eq {q : Queue α} {items : List α} (h : Represents q items) :
    contents q = items := by
  rw [contents, h.slots, List.filterMap_map]
  simp

theorem Represents.enqueue_lt {q : Queue α} {items : List α} (h : Represents q items)
    (hpos : 0 < q.maxSize) : q.enqueueOffset < q.maxSize := by
  rw [h.enqueue]
  exact Nat.mod_lt _ hpos

theorem queueInit_represents (maxSize : Nat) : Represents (queueInit maxSize : Queue α) [] where
  size := rfl
  size_le := Nat.zero_le _
  dequeue_lt := id
  enqueue := by simp [queueInit]
  slots := rfl

theorem Represents.isFull_iff {q : Queue α} {items : List α} (h : Represents q items) :
    isFull q = true ↔ items.length = q.maxSize := by
  simp [isFull, h.size]

theorem queuePush_of_full {q : Queue α} {items : List α} (h : Represents q items)
    (hf : items.length = q.maxSize) (ptr : α) :
    queuePush q ptr = some (.queueFailure, q) := by
  simp [queuePush, h.isFull_iff.mpr hf]

theorem Represents.setEvent {q : Queue α} {items : List α} (h : Represents q items)
    (event : Nat) : Represents { q with addEvent := event } items :=
  ⟨h.size, h.size_le, h.dequeue_lt, h.enqueue, h.slots⟩

theorem publish_represents {q : Queue α} {items : List α} (h : Represents q items)
    (hf : items.length ≠ q.maxSize) (ptr : α) : Represents (publish q ptr) (items ++ [ptr]) := by
  have hlt : q.currentSize < q.maxSize := by
    have := h.size_le
    have := h.size
    omega
  refine ⟨by simp [publish, h.size], hlt, h.dequeue_lt, ?_, ?_⟩
  · simp only [publish]
    rw [h.enqueue, Nat.mod_add_mod, Nat.add_assoc]
  · simp only [publish]
    rw [h.enqueue, Ring.window_push hlt, h.slots, List.map_append, List.map_singleton]

theorem queuePush_of_not_full {q q' : Queue α} {items : List α} {ptr : α} {r : QueueResult}
    (h : Represents q items) (hf : items.length ≠ q.maxSize)
    (hp : queuePush q ptr = some (r, q')) :
    r = .queueSuccess ∧ Represents q' (items ++ [ptr]) ∧ q'.maxSize = q.maxSize ∧
      q'.addEvent = q.addEvent + 1 := by
  simp only [queuePush, h.isFull_iff, hf, if_false, Option.map_eq_some_iff, Prod.mk.injEq] at hp
  obtain ⟨event, he, rfl, rfl⟩ := hp
  exact ⟨rfl, (publish_represents h hf ptr).setEvent event, rfl, eventfdWrite_eq_some he⟩

theorem queuePush_of_success {q q' : Queue α} {items : List α} {ptr : α} (h : Represents q items)
    (hp : queuePush q ptr = some (.queueSuccess, q')) :
    Represents q' (items ++ [ptr]) ∧ q'.maxSize = q.maxSize := by
  have hf : items.length ≠ q.maxSize := by
    intro hfull
    rw [queuePush_of_full h hfull] at hp
    cases hp
  obtain ⟨-, hrep, hmax, -⟩ := queuePush_of_not_full h hf hp
  exact ⟨hrep, hmax⟩

theorem queuePush_eq_none {q : Queue α} {ptr : α} (h : queuePush q ptr = none) :
    eventfdMax ≤ q.addEvent := by
  by_cases hf : isFull q = true
  · simp [queuePush, hf] at h
  · by_cases hc : q.addEvent < eventfdMax
    · simp [queuePush, hf, eventfdWrite, hc] at h
    · omega

theorem queuePush_failure {q q' : Queue α} {ptr : α} {r : QueueResult}
    (h : queuePush q ptr = some (r, q')) (hr : r ≠ .queueSuccess) : isFull q = true := by
  by_contra hf
  simp only [queuePush, hf, if_false, Option.map_eq_some_iff, Prod.mk.injEq] at h
  obtain ⟨event, -, rfl, -⟩ := h
  exact hr rfl

theorem queuePop_nil {q : Queue α} (h : Represents q []) : queuePop q = (none, q) := by
  have : isEmpty q = true := by simpa [isEmpty] using h.size
  simp [queuePop, this]

theorem queuePop_cons {q : Queue α} {x : α} {items : List α} (h : Represents q (x :: items)) :
    (queuePop q).1 = some x ∧ Represents (queuePop q).2 items ∧
      (queuePop q).2.maxSize = q.maxSize ∧ (queuePop q).2.addEvent = q.addEvent := by
  have hs : q.currentSize = items.length + 1 := h.size
  have he : isEmpty q = false := by simp [isEmpty, hs]
  have hle := h.size_le
  have hpos : 0 < q.maxSize := by omega
  have hw := h.slots
  rw [hs, Ring.window_cons, List.map_cons, List.cons.injEq, Nat.mod_eq_of_lt (h.dequeue_lt hpos)]
    at hw
  simp only [queuePop, he, Bool.false_eq_true, if_false]
  refine ⟨hw.1, ⟨by simp [hs], ?_, fun hpos => Nat.mod_lt _ hpos, ?_, ?_⟩, trivial, trivial⟩
  · dsimp only
    omega
  · dsimp only
    rw [h.enqueue, Nat.mod_add_mod, hs]
    congr 1
    omega
  · dsimp only
    rw [Ring.window_mod, hs]
    exact hw.2

theorem queuePop_represents {q : Queue α} {items : List α} (h : Represents q items) :
    (queuePop q).1 = items.head? ∧ Represents (queuePop q).2 items.tail ∧
      (queuePop q).2.maxSize = q.maxSize ∧ (queuePop q).2.addEvent = q.addEvent := by
  cases items with
  | nil => rw [queuePop_nil h]; exact ⟨rfl, h, rfl, rfl⟩
  | cons x items => exact queuePop_cons h

/-- Any number of threads on one queue. A label is the thread that holds the
mutex and the call it makes. -/
def lockQueue (maxSize : Nat) : Machine (Queue α) (Nat × QueueOp α) (QueueObs α) where
  init q := q = queueInit maxSize
  step q
    | (_, .push ptr) => (queuePush q ptr).map fun (r, q') => (q', [.push ptr r])
    | (_, .pop) => some ((queuePop q).2, [.pop (queuePop q).1])
    | (_, .size) => some (q, [.size (queueSize q)])

theorem lockQueue_step {maxSize : Nat} {q q' : Queue α} {items : List α}
    {l : Nat × QueueOp α} {obs : List (QueueObs α)} (h : Represents q items)
    (hmax : q.maxSize = maxSize) (hs : (lockQueue maxSize).step q l = some (q', obs)) :
    Represents q' (obs.foldl QueueObs.apply items) ∧ q'.maxSize = maxSize ∧
      q'.addEvent = q.addEvent + successfulPushes obs ∧
      (boundedFifo maxSize).step items l.2 =
        some (obs.foldl QueueObs.apply items, obs) := by
  obtain ⟨thread, op⟩ := l
  cases op with
  | push ptr =>
    simp only [lockQueue, Option.map_eq_some_iff, Prod.mk.injEq, Prod.exists] at hs
    obtain ⟨r, q₁, hp, rfl, rfl⟩ := hs
    by_cases hf : items.length = q.maxSize
    · rw [queuePush_of_full h hf] at hp
      cases hp
      simp [QueueObs.apply, successfulPushes, boundedFifo, h, hmax, hf]
    · obtain ⟨rfl, hr, hm, he⟩ := queuePush_of_not_full h hf hp
      have hne : items.length ≠ maxSize := hmax ▸ hf
      simp [QueueObs.apply, successfulPushes, boundedFifo, hr, hm, hmax, he, hne]
  | pop =>
    simp only [lockQueue, Option.some.injEq, Prod.mk.injEq] at hs
    obtain ⟨rfl, rfl⟩ := hs
    obtain ⟨h1, h2, h3, h4⟩ := queuePop_represents h
    rw [h1]
    cases items with
    | nil => exact ⟨h2, h3.trans hmax, by simpa [successfulPushes] using h4, rfl⟩
    | cons x items => exact ⟨h2, h3.trans hmax, by simpa [successfulPushes] using h4, rfl⟩
  | size =>
    simp only [lockQueue, Option.some.injEq, Prod.mk.injEq] at hs
    obtain ⟨rfl, rfl⟩ := hs
    simp [QueueObs.apply, successfulPushes, boundedFifo, queueSize, h, hmax, h.size]

theorem lockQueue_run {maxSize : Nat} {q : Queue α}
    {tr : List (QueueObs α)} (h : (lockQueue maxSize).Run q tr) :
    Represents q (outstanding tr) ∧ q.maxSize = maxSize ∧ q.addEvent = successfulPushes tr ∧
      (boundedFifo maxSize).Run (outstanding tr) tr := by
  refine Machine.Run.invariant (fun q tr => Represents q (outstanding tr) ∧
    q.maxSize = maxSize ∧ q.addEvent = successfulPushes tr ∧
      (boundedFifo maxSize).Run (outstanding tr) tr) ?_ ?_ h
  · rintro q rfl
    exact ⟨queueInit_represents maxSize, rfl, rfl, .start rfl⟩
  · rintro q tr l q' obs ⟨hr, hm, he, hrun⟩ hs
    obtain ⟨hr', hm', he', hstep⟩ := lockQueue_step hr hm hs
    rw [outstanding_append]
    refine ⟨hr', hm', ?_, .next l.2 hrun hstep⟩
    rw [he', he]
    simp [successfulPushes]

/-- The lock queue refines a bounded FIFO, whatever the order of the critical
sections. -/
theorem lockQueue_refines_boundedFifo {maxSize : Nat} (hmax : 1 ≤ maxSize) {q : Queue α}
    {tr : List (QueueObs α)} (h : (lockQueue maxSize).Run q tr) :
    (boundedFifo maxSize).Run (outstanding tr) tr ∧
    (∀ ptr r q', queuePush q ptr = some (r, q') →
      (r = .queueFailure ↔ (outstanding tr).length = maxSize) ∧
      (r = .queueFailure → q' = q) ∧
      (r = .queueSuccess → q'.addEvent = q.addEvent + 1)) ∧
    (∀ ptr, queuePush q ptr = none → eventfdMax ≤ q.addEvent) ∧
    (queuePop q).1 = (outstanding tr).head? ∧
    queueSize q = (outstanding tr).length ∧
    q.enqueueOffset < maxSize ∧ q.dequeueOffset < maxSize ∧
    q.addEvent = successfulPushes tr := by
  obtain ⟨hr, rfl, he, hrun⟩ := lockQueue_run h
  refine ⟨hrun, ?_, fun _ => queuePush_eq_none, (queuePop_represents hr).1, hr.size,
    hr.enqueue_lt hmax, hr.dequeue_lt hmax, he⟩
  · intro ptr r q' hp
    by_cases hf : (outstanding tr).length = q.maxSize
    · rw [queuePush_of_full hr hf] at hp
      cases hp
      simp [hf]
    · obtain ⟨rfl, _, _, he'⟩ := queuePush_of_not_full hr hf hp
      simp [hf, he']

/-- Two threads on a queue of one slot, as in the test `queue_too_small`. -/
theorem lockQueue_refines_boundedFifo_one :
    ∃ q : Queue Nat, (lockQueue 1).Run q
        [.push 1 .queueSuccess, .push 2 .queueFailure, .pop (some 1)] ∧
      (boundedFifo 1).Run ([] : List Nat)
        [.push 1 .queueSuccess, .push 2 .queueFailure, .pop (some 1)] ∧
      q.addEvent = 1 := by
  have hrun := (((Machine.Run.start rfl).next (m := lockQueue 1) (0, .push 1) rfl).next
    (1, .push 2) rfl).next (0, .pop) rfl
  have hq := lockQueue_refines_boundedFifo (by decide) hrun
  exact ⟨_, hrun, hq.1, hq.2.2.2.2.2.2.2⟩

end LockQueue

end Jullop
