import Jullop.AtomicQueue
import Jullop.ReleaseAcquire

/-! `srsw_queue.c` with the memory orders that it asks for. Each side loads its own offset
relaxed, acquires the offset of the other and releases its own; the slots of the ring are
plain memory. The counter of the eventfd is one variable of the kernel, so that a read of
it synchronizes with the writes that it takes. -/

namespace Jullop

namespace RelaxedQueue

open AtomicQueue (PushPc PopPc Wraps pow2Size queueInit)
open ReleaseAcquire

variable {α : Type*}

inductive Offset
  | push
  | pop
  deriving DecidableEq

inductive Side
  | producer
  | consumer
  deriving DecidableEq

instance : Fintype Side := ⟨{.producer, .consumer}, fun t => by cases t <;> decide⟩

structure Queue (α : Type*) where
  mask : Nat
  memory : Memory Offset Side Nat Nat (Option α)
  addEvent : Nat
  eventView : View Offset Side

/-- A queue as `queue_init` leaves it, before the threads start. -/
def Queue.share (q : AtomicQueue.Queue α) : Queue α where
  mask := q.mask
  memory := Memory.start (fun | .push => q.pushOffset | .pop => q.popOffset) q.ringBuffer
  addEvent := q.addEvent
  eventView := ⊥

/-- `race` is an access to a slot of the ring that another is not ordered with. -/
inductive Obs (α : Type*)
  | call (obs : QueueObs α)
  | events (value : Nat)
  | race
  deriving DecidableEq

/-- One step of `queue_push`; a load finds the message numbered `i`. -/
def queuePush (q : Queue α) (ptr : α) (i : Nat) :
    PushPc α → Option (Queue α × PushPc α × List (Obs α))
  | .idle =>
    (q.memory.load .producer .push .relaxed i).map fun y =>
      ({ q with memory := y.2 }, .loadedPush ptr y.1, [])
  | .loadedPush ptr push =>
    (q.memory.load .producer .pop .acquire i).map fun y =>
      ({ q with memory := y.2 }, .loadedPop ptr push y.1, [])
  | .loadedPop ptr push pop =>
    if (push + 1) &&& q.mask = pop then some (q, .idle, [.call (.push ptr .queueFailure)])
    else
      match q.memory.writeCell .producer push (some ptr) with
      | none => some (q, .idle, [.race])
      | some m => some ({ q with memory := m }, .written ptr push, [])
  | .written ptr push =>
    some ({ q with memory := q.memory.storeRelease .producer .push ((push + 1) &&& q.mask) },
      .published, [.call (.push ptr .queueSuccess)])
  | .published =>
    (eventfdWrite q.addEvent).map fun event =>
      ({ q with addEvent := event, eventView := q.eventView ⊔ q.memory.views .producer }, .idle, [])

def queuePop (q : Queue α) (i : Nat) : PopPc α → Option (Queue α × PopPc α × List (Obs α))
  | .idle =>
    (q.memory.load .consumer .pop .relaxed i).map fun y =>
      ({ q with memory := y.2 }, .loadedPop y.1, [])
  | .loadedPop pop =>
    (q.memory.load .consumer .push .acquire i).map fun y =>
      ({ q with memory := y.2 }, .loadedPush pop y.1, [])
  | .loadedPush pop push =>
    if pop = push then some (q, .idle, [.call (.pop none)])
    else
      match q.memory.readCell .consumer pop with
      | none => some (q, .idle, [.race])
      | some y => some ({ q with memory := y.2 }, .read pop y.1, [])
  | .read pop ptr =>
    some ({ q with memory := q.memory.storeRelease .consumer .pop ((pop + 1) &&& q.mask) },
      .idle, [.call (.pop ptr)])

/-- The consumer takes the events, as the event loop does before it pops. -/
def readEvents (q : Queue α) : Option (Queue α × List (Obs α)) :=
  (eventfdRead q.addEvent).map fun y =>
    ({ q with addEvent := y.2, memory := q.memory.learn .consumer q.eventView }, [.events y.1])

structure State (α : Type*) where
  queue : Queue α
  producer : PushPc α
  consumer : PopPc α

inductive Act (α : Type*)
  | push (ptr : α) (i : Nat)
  | pop (i : Nat)
  | readEvents

def relaxedQueue (n : Nat) : Machine (State α) (Act α) (Obs α) where
  init s := ∃ heap, s = ⟨.share (queueInit heap n), .idle, .idle⟩
  step s
    | .push ptr i =>
      (queuePush s.queue ptr i s.producer).map fun y => (⟨y.1, y.2.1, s.consumer⟩, y.2.2)
    | .pop i => (queuePop s.queue i s.consumer).map fun y => (⟨y.1, s.producer, y.2.1⟩, y.2.2)
    | .readEvents =>
      match s.consumer with
      | .idle => (readEvents s.queue).map fun y => (⟨y.1, s.producer, .idle⟩, y.2)
      | _ => none

def Obs.call? : Obs α → Option (QueueObs α)
  | .call obs => some obs
  | _ => none

def calls (tr : List (Obs α)) : List (QueueObs α) := tr.filterMap Obs.call?

def pushed (tr : List (Obs α)) : List α := pushedPtrs (calls tr)

def popped (tr : List (Obs α)) : List α := poppedPtrs (calls tr)

/-- The events that the consumer has taken. -/
def taken (tr : List (Obs α)) : Nat :=
  (tr.map fun | .events value => value | _ => 0).sum

/-- The views that can be passed on while a ring is shared. -/
def possible (m : Memory Offset Side Nat Nat (Option α)) : Set (View Offset Side) :=
  m.known ∩ (announced .push .producer ∩ announced .pop .consumer)

/-- Of the ring of `size` slots, `items` were written in turn, the last of them perhaps
not yet announced, and `reads` read. -/
structure Layout (size : Nat) (m : Memory Offset Side Nat Nat (Option α)) (items : List α)
    (pushes pops reads : Nat) : Prop where
  stamped : m.Stamped
  push : Counts m .push .producer (· % size) pushes
  pop : Counts m .pop .consumer (· % size) pops
  writeClock : m.views .producer (.inr .producer) = items.length
  readClock : m.views .consumer (.inr .consumer) = reads
  room : items.length < m.views .producer (.inl .pop) + size
  ready : reads ≤ m.views .consumer (.inl .push)
  written : Paced m.written .producer (· % size) items.length
  read : Paced m.read .consumer (· % size) reads
  slots : ∀ k x, pops ≤ k → items[k]? = some x → m.contents (k % size) = some x

section Layouts

variable {size pushes pops reads i value : Nat} {items : List α} {x : α}
  {m m' : Memory Offset Side Nat Nat (Option α)} {v : View Offset Side}

theorem possible_mono (h : m.known ⊆ m'.known) : possible m ⊆ possible m' :=
  Set.inter_subset_inter_left _ h

theorem possible_supClosed (m : Memory Offset Side Nat Nat (Option α)) : SupClosed (possible m) :=
  m.known_supClosed.inter ((announced_supClosed _ _).inter (announced_supClosed _ _))

namespace Layout

theorem start (hsize : 0 < size) {values : Offset → Nat} (contents : Nat → Option α)
    (hvalues : ∀ l, values l = 0) :
    Layout size (Memory.start values contents) [] 0 0 0 := by
  have hbot : ∀ s : Set (View Offset Side), ⊥ ∈ s →
      (Memory.start values contents).Everywhere s := by
    intro s hs
    refine ⟨fun _ => hs, fun l message hmem => ?_⟩
    cases List.mem_singleton.mp hmem
    exact hs
  have hcounts : ∀ l (t : Side), Counts (Memory.start values contents) l t (· % size) 0 :=
    fun l t => ⟨by simp [Memory.start, hvalues], rfl, hbot _ (Nat.le_refl 0)⟩
  refine ⟨⟨fun l i message hi => ?_, hbot _ ⟨fun l => Nat.one_pos, fun t => Nat.le_refl 0⟩⟩,
    hcounts _ _, hcounts _ _, rfl, rfl, ?_, Nat.le_refl 0, ?_, ?_, ?_⟩
  · rw [Memory.start, List.getElem?_singleton, Option.ite_none_right_eq_some,
      Option.some.injEq] at hi
    obtain ⟨rfl, rfl⟩ := hi
    rfl
  · exact Nat.lt_add_left _ hsize
  · intro c u k hk
    cases hk
  · intro c u k hk
    cases hk
  · intro k x _ hx
    cases hx

theorem everywhere (h : Layout size m items pushes pops reads) : m.Everywhere (possible m) :=
  ⟨fun t => ⟨h.stamped.known.1 t, h.push.announced.1 t, h.pop.announced.1 t⟩,
    fun l message hmem => ⟨h.stamped.known.2 l message hmem, h.push.announced.2 l message hmem,
      h.pop.announced.2 l message hmem⟩⟩

theorem pushes_le (h : Layout size m items pushes pops reads) : pushes ≤ items.length := by
  have hle : m.views .producer (.inl .push) ≤ m.views .producer (.inr .producer) :=
    h.push.announced.1 .producer
  rwa [h.push.latest, h.writeClock] at hle

theorem pops_le (h : Layout size m items pushes pops reads) : pops ≤ reads := by
  have hle : m.views .consumer (.inl .pop) ≤ m.views .consumer (.inr .consumer) :=
    h.pop.announced.1 .consumer
  rwa [h.pop.latest, h.readClock] at hle

theorem seenPush_le (h : Layout size m items pushes pops reads) (u : Side) :
    m.views u (.inl .push) ≤ pushes := by
  have hlt := (h.stamped.known.1 u).1 .push
  rw [h.push.length_eq] at hlt
  exact Nat.le_of_lt_succ hlt

theorem seenPop_le (h : Layout size m items pushes pops reads) (u : Side) :
    m.views u (.inl .pop) ≤ pops := by
  have hlt := (h.stamped.known.1 u).1 .pop
  rw [h.pop.length_eq] at hlt
  exact Nat.le_of_lt_succ hlt

theorem learn (h : Layout size m items pushes pops reads) (hv : v ∈ possible m) (u : Side) :
    Layout size (m.learn u v) items pushes pops reads := by
  have hknown := m.known_learn u v hv.1
  refine ⟨h.stamped.learn hknown, h.push.learn hv.2.1 hknown, h.pop.learn hv.2.2 hknown, ?_, ?_,
    ?_, ?_, h.written, h.read, h.slots⟩
  · rw [m.learn_own hv.1, h.writeClock]
  · rw [m.learn_own hv.1, h.readClock]
  · exact h.room.trans_le (Nat.add_le_add_right (m.views_le_learn u _ v _) _)
  · exact h.ready.trans (m.views_le_learn u _ v _)

/-- The producer may write the slot after the last one when it knows that the slot was
given up. -/
theorem write (h : Layout size m items pushes pops reads)
    (hroom : items.length + 1 < m.views .producer (.inl .pop) + size) (x : α) :
    m.writeCell .producer (items.length % size) (some x) =
        some (m.noteWrite .producer (items.length % size) (some x)) ∧
      Layout size (m.noteWrite .producer (items.length % size) (some x)) (items ++ [x]) pushes
        pops reads := by
  have hseen := h.seenPop_le .producer
  have hready := h.ready.trans (h.seenPush_le .consumer)
  have hpushes := h.pushes_le
  have hstamp : m.stamp .producer = items.length + 1 := by rw [Memory.stamp, h.writeClock]
  constructor
  · refine if_pos ⟨h.written.before fun k hk _ => h.writeClock.symm ▸ hk,
      h.read.before fun k hk he => ?_⟩
    have hannounced : m.views .producer (.inl .pop) ≤ m.views .producer (.inr .consumer) :=
      h.pop.announced.1 .producer
    by_contra hlate
    exact Ring.mod_ne_of_lt (by omega : k < items.length) (by omega) he
  · have hpush := h.push.access h.stamped .producer
    have hpop := h.pop.access h.stamped .producer
    have hstamped := h.stamped.access .producer
    refine ⟨⟨hstamped.seen, hstamped.known⟩, ⟨hpush.values, hpush.latest, hpush.announced⟩,
      ⟨hpop.values, hpop.latest, hpop.announced⟩, ?_, ?_, ?_, ?_, ?_, h.read, ?_⟩
    · exact (m.access_stamp .producer).trans (by rw [hstamp, List.length_append]; rfl)
    · rw [m.noteWrite_views_of_ne (by decide), h.readClock]
    · rw [List.length_append]
      exact hroom.trans_eq (congrArg (· + size) (m.access_seen .producer .producer .pop).symm)
    · exact h.ready.trans_eq (m.access_seen .producer .consumer .push).symm
    · have hwritten := h.written.update
      rw [← hstamp] at hwritten
      rw [List.length_append, List.length_singleton, ← hstamp]
      exact hwritten
    · intro k y hk hy
      show Function.update m.contents (items.length % size) (some x) (k % size) = some y
      rcases Nat.lt_or_ge k items.length with hlt | hge
      · rw [List.getElem?_append_left hlt] at hy
        rw [Function.update_of_ne (Ring.mod_ne_of_lt hlt (by omega))]
        exact h.slots k y hk hy
      · rw [List.getElem?_append_right hge, List.getElem?_singleton,
          Option.ite_none_right_eq_some] at hy
        obtain ⟨hz, hxy⟩ := hy
        obtain rfl : k = items.length := by omega
        rw [Function.update_self, hxy]

theorem announce (h : Layout size m items pushes pops reads) (hlt : pushes < items.length) :
    Layout size (m.storeRelease .producer .push ((pushes + 1) % size)) items (pushes + 1) pops
      reads := by
  refine ⟨h.stamped.storeRelease _ _ _, h.push.storeRelease (h.writeClock.symm ▸ hlt),
    h.pop.storeRelease_of_ne (by decide) _ _, ?_, ?_, ?_, ?_, h.written, h.read, h.slots⟩
  · rw [m.storeRelease_own, h.writeClock]
  · rw [m.storeRelease_own, h.readClock]
  · rw [m.storeRelease_seen_of_ne (by decide)]
    exact h.room
  · rw [m.storeRelease_views_of_ne (by decide)]
    exact h.ready

/-- The consumer may read a slot when it knows that the slot was announced. -/
theorem take (h : Layout size m items pushes pops reads)
    (hready : reads < m.views .consumer (.inl .push)) :
    ∃ x, items[reads]? = some x ∧
      m.readCell .consumer (reads % size) =
        some (some x, m.noteRead .consumer (reads % size)) ∧
      Layout size (m.noteRead .consumer (reads % size)) items pushes pops (reads + 1) := by
  have hseen := h.seenPush_le .consumer
  have hpushes := h.pushes_le
  have hpops := h.pops_le
  have hroom := h.room
  have hseenPop := h.seenPop_le .producer
  have hstamp : m.stamp .consumer = reads + 1 := by rw [Memory.stamp, h.readClock]
  have hlt : reads < items.length := by omega
  have hitem := List.getElem?_eq_getElem hlt
  refine ⟨items[reads], hitem, ?_, ?_⟩
  · rw [Memory.readCell, h.slots reads _ hpops hitem]
    refine if_pos (h.written.before fun k hk he => ?_)
    have hannounced : m.views .consumer (.inl .push) ≤ m.views .consumer (.inr .producer) :=
      h.push.announced.1 .consumer
    by_contra hlate
    exact Ring.mod_ne_of_lt (by omega : reads < k) (by omega) he.symm
  · have hpush := h.push.access h.stamped .consumer
    have hpop := h.pop.access h.stamped .consumer
    have hstamped := h.stamped.access .consumer
    refine ⟨⟨hstamped.seen, hstamped.known⟩, ⟨hpush.values, hpush.latest, hpush.announced⟩,
      ⟨hpop.values, hpop.latest, hpop.announced⟩, ?_, ?_, ?_, ?_, h.written, ?_, h.slots⟩
    · rw [m.noteRead_views_of_ne (by decide), h.writeClock]
    · rw [← hstamp]
      exact m.access_stamp .consumer
    · exact hroom.trans_eq (congrArg (· + size) (m.access_seen .consumer .producer .pop).symm)
    · exact hready.trans_eq (m.access_seen .consumer .consumer .push).symm
    · have hread := h.read.update
      rw [← hstamp] at hread ⊢
      exact hread

theorem release (h : Layout size m items pushes pops reads) (hlt : pops < reads) :
    Layout size (m.storeRelease .consumer .pop ((pops + 1) % size)) items pushes (pops + 1)
      reads := by
  refine ⟨h.stamped.storeRelease _ _ _, h.push.storeRelease_of_ne (by decide) _ _,
    h.pop.storeRelease (h.readClock.symm ▸ hlt), ?_, ?_, ?_, ?_, h.written, h.read,
    fun k x hk => h.slots k x (Nat.le_of_succ_le hk)⟩
  · rw [m.storeRelease_own, h.writeClock]
  · rw [m.storeRelease_own, h.readClock]
  · rw [m.storeRelease_views_of_ne (by decide)]
    exact h.room
  · rw [m.storeRelease_seen_of_ne (by decide)]
    exact h.ready

end Layout

end Layouts

/-- The element that was written and not yet announced. -/
def unannounced : PushPc α → List α
  | .written ptr _ => [ptr]
  | _ => []

/-- The read for which the slot was not yet given up. -/
def unreleased : PopPc α → Nat
  | .read _ _ => 1
  | _ => 0

/-- The push for which no event was written yet. -/
def unsignalled : PushPc α → Nat
  | .published => 1
  | _ => 0

def ProducerOk (size : Nat) (m : Memory Offset Side Nat Nat (Option α)) (pushes : Nat) :
    PushPc α → Prop
  | .idle | .published => True
  | .loadedPush _ push | .written _ push => push = pushes % size
  | .loadedPop _ push pop =>
    push = pushes % size ∧ pop = m.views .producer (.inl .pop) % size

def ConsumerOk (size : Nat) (m : Memory Offset Side Nat Nat (Option α)) (items : List α)
    (pops : Nat) : PopPc α → Prop
  | .idle => True
  | .loadedPop pop => pop = pops % size
  | .loadedPush pop push => pop = pops % size ∧ push = m.views .consumer (.inl .push) % size
  | .read pop ptr => pop = pops % size ∧ ∃ x, ptr = some x ∧ items[pops]? = some x

/-- Nothing races, and a pop finds the queue empty only when it has answered every event
that was taken. -/
def Sound (events pops : Nat) : Obs α → Prop
  | .race => False
  | .call (.pop none) => events ≤ pops
  | _ => True

/-- The queue when `items` have been pushed, `out` popped and `events` taken. -/
structure Inv (size : Nat) (s : State α) (items out : List α) (events : Nat) : Prop where
  wraps : Wraps s.queue.mask size
  layout : Layout size s.queue.memory (items ++ unannounced s.producer) items.length out.length
    (out.length + unreleased s.consumer)
  eventView : s.queue.eventView ∈ possible s.queue.memory
  signals : events + s.queue.addEvent + unsignalled s.producer = items.length
  noted : events + s.queue.addEvent ≤ s.queue.eventView (.inl .push)
  heard : events ≤ s.queue.memory.views .consumer (.inl .push)
  producer : ProducerOk size s.queue.memory items.length s.producer
  consumer : ConsumerOk size s.queue.memory items out.length s.consumer
  fifo : out <+: items

/-- What a step that shows `obs` makes of the invariant. -/
def Keeps (size : Nat) (t : State α) (items out : List α) (events : Nat) (obs : List (Obs α)) :
    Prop :=
  Inv size t (items ++ pushed obs) (out ++ popped obs) (events + taken obs) ∧
    (obs = [] ∨ ∃ o, obs = [o] ∧ Sound events out.length o)

theorem pushed_append (tr obs : List (Obs α)) : pushed (tr ++ obs) = pushed tr ++ pushed obs := by
  simp only [pushed, calls, pushedPtrs, List.filterMap_append]

theorem popped_append (tr obs : List (Obs α)) : popped (tr ++ obs) = popped tr ++ popped obs := by
  simp only [popped, calls, poppedPtrs, List.filterMap_append]

theorem taken_append (tr obs : List (Obs α)) : taken (tr ++ obs) = taken tr + taken obs := by
  simp only [taken, List.map_append, List.sum_append]

section Steps

variable {size n events : Nat} {s t : State α} {items out : List α} {obs : List (Obs α)} {o : Obs α}

theorem Inv.silent (h : Inv size t items out events) : Keeps size t items out events [] := by
  refine ⟨?_, .inl rfl⟩
  show Inv size t (items ++ []) (out ++ []) events
  rwa [List.append_nil, List.append_nil]

theorem Inv.neutral (h : Inv size t items out events) (hpushed : pushed [o] = [])
    (hpopped : popped [o] = []) (htaken : taken [o] = 0) (hsound : Sound events out.length o) :
    Keeps size t items out events [o] := by
  refine ⟨?_, .inr ⟨o, rfl, hsound⟩⟩
  rwa [hpushed, hpopped, htaken, List.append_nil, List.append_nil]

theorem known_write (m : Memory Offset Side Nat Nat (Option α)) (c : Nat) (x : Option α) :
    m.known ⊆ (m.noteWrite .producer c x).known :=
  m.known_learn _ _

theorem known_read (m : Memory Offset Side Nat Nat (Option α)) (c : Nat) :
    m.known ⊆ (m.noteRead .consumer c).known :=
  m.known_learn _ _

theorem ProducerOk.frame {m m' : Memory Offset Side Nat Nat (Option α)} {pushes : Nat}
    {pc : PushPc α} (h : ProducerOk size m pushes pc)
    (hviews : m'.views .producer = m.views .producer) : ProducerOk size m' pushes pc := by
  cases pc with
  | loadedPop ptr push pop => exact ⟨h.1, hviews ▸ h.2⟩
  | _ => exact h

theorem ConsumerOk.frame {m m' : Memory Offset Side Nat Nat (Option α)} {items items' : List α}
    {pops : Nat} {pc : PopPc α} (h : ConsumerOk size m items pops pc)
    (hviews : m'.views .consumer = m.views .consumer) (hitems : items <+: items') :
    ConsumerOk size m' items' pops pc := by
  cases pc with
  | loadedPush pop push => exact ⟨h.1, hviews ▸ h.2⟩
  | read pop ptr =>
    obtain ⟨hpop, x, hptr, hx⟩ := h
    obtain ⟨rest, rfl⟩ := hitems
    rw [← List.getElem?_append_left (List.getElem?_eq_some_iff.mp hx).1] at hx
    exact ⟨hpop, x, hptr, hx⟩
  | _ => exact h

theorem Inv.producer_step (h : Inv size s items out events) {ptr : α} {i : Nat} {q : Queue α}
    {pc : PushPc α} (hs : queuePush s.queue ptr i s.producer = some (q, pc, obs)) :
    Keeps size ⟨q, pc, s.consumer⟩ items out events obs := by
  obtain ⟨sq, sp, sc⟩ := s
  obtain ⟨hwraps, hl, hevent, hsignals, hnoted, hheard, hp, hc, hfifo⟩ := h
  dsimp only at hwraps hl hevent hsignals hnoted hheard hp hc hs ⊢
  cases sp with
  | idle =>
    simp only [queuePush, Option.map_eq_some_iff, Prod.mk.injEq, Prod.exists] at hs
    obtain ⟨value, m, he, rfl, rfl, rfl⟩ := hs
    obtain ⟨hpush, hsame⟩ := hl.push.load_own he
    rw [hsame]
    exact Inv.silent ⟨hwraps, hl, hevent, hsignals, hnoted, hheard, hpush, hc, hfifo⟩
  | loadedPush ptr push =>
    simp only [queuePush, Option.map_eq_some_iff, Prod.mk.injEq, Prod.exists] at hs
    obtain ⟨value, m, he, rfl, rfl, rfl⟩ := hs
    obtain ⟨-, hpop, hseen, message, hmem, hview, hlearn⟩ :=
      hl.pop.load_other hl.stamped he
    have hposs := hl.everywhere.2 .pop message hmem
    have hother := sq.memory.learn_views_of_ne (show Side.consumer ≠ .producer by decide)
      message.view
    rw [hlearn]
    refine Inv.silent ⟨hwraps, hl.learn hposs _, possible_mono (sq.memory.known_learn _ _) hevent,
      hsignals, hnoted, hother.symm ▸ hheard, ⟨hp, ?_⟩, hc.frame hother List.prefix_rfl, hfifo⟩
    rw [hpop, Memory.learn_views_self, Pi.sup_apply, hview, sup_eq_right.mpr hseen]
  | loadedPop ptr push pop =>
    obtain ⟨rfl, rfl⟩ := hp
    simp only [unannounced, List.append_nil] at hl
    have hroom := hl.room
    have hle := (hl.seenPop_le .producer).trans hfifo.length_le
    simp only [queuePush, hwraps _] at hs
    have hfull := AtomicQueue.stale_pop (Nat.add_sub_of_le hle) (by omega : _ - _ < size)
    split at hs
    · cases hs
      refine Inv.neutral ⟨hwraps, ?_, hevent, hsignals, hnoted, hheard, trivial, hc, hfifo⟩
        rfl rfl rfl trivial
      simpa only [unannounced, List.append_nil] using hl
    · rename_i hne
      have hfree : items.length + 1 < sq.memory.views .producer (.inl .pop) + size := by
        omega
      obtain ⟨hwrite, hl'⟩ := hl.write hfree ptr
      rw [hwrite] at hs
      cases hs
      have hother := sq.memory.noteWrite_views_of_ne (show Side.consumer ≠ .producer by decide)
        (items.length % size) (some ptr)
      exact Inv.silent ⟨hwraps, hl', possible_mono (known_write ..) hevent, hsignals, hnoted,
        hother.symm ▸ hheard, rfl, hc.frame hother List.prefix_rfl, hfifo⟩
  | written ptr push =>
    obtain rfl : push = _ := hp
    simp only [queuePush, hwraps _] at hs
    cases hs
    have hlen : (items ++ [ptr]).length = items.length + 1 := List.length_append ..
    have hl' := hl.announce (hlen ▸ Nat.lt_succ_self _)
    have hother := sq.memory.storeRelease_views_of_ne (show Side.consumer ≠ .producer by decide)
      .push ((items.length + 1) % size)
    have hprefix := List.prefix_append items [ptr]
    refine ⟨?_, .inr ⟨_, rfl, trivial⟩⟩
    show Inv size _ (items ++ [ptr]) (out ++ []) events
    rw [List.append_nil]
    refine ⟨hwraps, ?_, possible_mono (sq.memory.known_storeRelease _ _ _) hevent, ?_, hnoted,
      hother.symm ▸ hheard, trivial, hc.frame hother hprefix, hfifo.trans hprefix⟩
    · rw [hlen]
      simpa only [unannounced, List.append_nil] using hl'
    · rw [hlen, ← hsignals]
      rfl
  | published =>
    simp only [queuePush, Option.map_eq_some_iff, Prod.mk.injEq] at hs
    obtain ⟨event, he, rfl, rfl, rfl⟩ := hs
    obtain rfl := eventfdWrite_eq_some he
    refine Inv.silent ⟨hwraps, hl,
      (possible_supClosed _) hevent (hl.everywhere.1 .producer), hsignals, ?_, hheard, trivial, hc,
      hfifo⟩
    refine le_trans ?_ (le_sup_right (a := sq.eventView) (b := sq.memory.views .producer) _)
    rw [hl.push.latest]
    exact hsignals.le

theorem Inv.consumer_step (h : Inv size s items out events) {i : Nat} {q : Queue α}
    {pc : PopPc α} (hs : queuePop s.queue i s.consumer = some (q, pc, obs)) :
    Keeps size ⟨q, s.producer, pc⟩ items out events obs := by
  obtain ⟨sq, sp, sc⟩ := s
  obtain ⟨hwraps, hl, hevent, hsignals, hnoted, hheard, hp, hc, hfifo⟩ := h
  dsimp only at hwraps hl hevent hsignals hnoted hheard hp hc hs ⊢
  cases sc with
  | idle =>
    simp only [queuePop, Option.map_eq_some_iff, Prod.mk.injEq, Prod.exists] at hs
    obtain ⟨value, m, he, rfl, rfl, rfl⟩ := hs
    obtain ⟨hpop, hsame⟩ := hl.pop.load_own he
    rw [hsame]
    exact Inv.silent ⟨hwraps, hl, hevent, hsignals, hnoted, hheard, hp, hpop, hfifo⟩
  | loadedPop pop =>
    simp only [queuePop, Option.map_eq_some_iff, Prod.mk.injEq, Prod.exists] at hs
    obtain ⟨value, m, he, rfl, rfl, rfl⟩ := hs
    obtain ⟨-, hpush, hseen, message, hmem, hview, hlearn⟩ :=
      hl.push.load_other hl.stamped he
    have hposs := hl.everywhere.2 .push message hmem
    have hother := sq.memory.learn_views_of_ne (show Side.producer ≠ .consumer by decide)
      message.view
    have hself : (sq.memory.learn .consumer message.view).views .consumer (.inl .push) = i := by
      rw [Memory.learn_views_self, Pi.sup_apply, hview, sup_eq_right.mpr hseen]
    rw [hlearn]
    exact Inv.silent ⟨hwraps, hl.learn hposs _, possible_mono (sq.memory.known_learn _ _) hevent,
      hsignals, hnoted, hself.symm ▸ hheard.trans hseen, hp.frame hother,
      ⟨hc, by rw [hpush, hself]⟩, hfifo⟩
  | loadedPush pop push =>
    obtain ⟨rfl, rfl⟩ := hc
    have hl : Layout size sq.memory (items ++ unannounced sp) items.length out.length out.length :=
      hl
    have hready := hl.ready
    have hseen := hl.seenPush_le .consumer
    have hpushes := hl.pushes_le
    have hroom := hl.room
    have hseenPop := hl.seenPop_le .producer
    have hless : sq.memory.views .consumer (.inl .push) - out.length < size := by omega
    have hempty := AtomicQueue.stale_push (c := out.length) hless
    rw [Nat.add_sub_of_le hready] at hempty
    simp only [queuePop] at hs
    split at hs
    · rename_i he
      cases hs
      have hnone := hempty.mp he
      exact Inv.neutral ⟨hwraps, hl, hevent, hsignals, hnoted, hheard, hp, trivial, hfifo⟩
        rfl rfl rfl (show events ≤ out.length by omega)
    · rename_i hne
      have hsome : out.length < sq.memory.views .consumer (.inl .push) := by
        omega
      obtain ⟨x, hx, hread, hl'⟩ := hl.take hsome
      rw [hread] at hs
      cases hs
      rw [List.getElem?_append_left (by omega)] at hx
      have hother := sq.memory.noteRead_views_of_ne (show Side.producer ≠ .consumer by decide)
        (out.length % size)
      refine Inv.silent ⟨hwraps, hl', possible_mono (known_read ..) hevent, hsignals, hnoted,
        ?_, hp.frame hother, ⟨rfl, x, rfl, hx⟩, hfifo⟩
      exact hheard.trans_eq (sq.memory.access_seen .consumer .consumer .push).symm
  | read pop ptr =>
    obtain ⟨rfl, x, rfl, hx⟩ := hc
    simp only [queuePop, hwraps _] at hs
    cases hs
    have hl' := hl.release (Nat.lt_succ_self _)
    have hother := sq.memory.storeRelease_views_of_ne (show Side.producer ≠ .consumer by decide)
      .pop ((out.length + 1) % size)
    refine ⟨?_, .inr ⟨_, rfl, trivial⟩⟩
    show Inv size _ (items ++ []) (out ++ [x]) events
    rw [List.append_nil]
    refine ⟨hwraps, ?_, possible_mono (sq.memory.known_storeRelease _ _ _) hevent, hsignals, hnoted,
      ?_, hp.frame hother, trivial, ?_⟩
    · rw [List.length_append]
      exact hl'
    · exact hheard.trans_eq (sq.memory.storeRelease_seen_of_ne (by decide) _ _ _).symm
    · obtain ⟨rest, rfl⟩ := hfifo
      rw [List.getElem?_append_right le_rfl, Nat.sub_self] at hx
      cases rest with
      | nil => cases hx
      | cons y rest =>
        cases hx
        exact ⟨rest, by simp⟩

theorem Inv.events_step (h : Inv size s items out events) {q : Queue α}
    (hc : s.consumer = .idle) (hs : readEvents s.queue = some (q, obs)) :
    Keeps size ⟨q, s.producer, .idle⟩ items out events obs := by
  obtain ⟨sq, sp, sc⟩ := s
  obtain ⟨hwraps, hl, hevent, hsignals, hnoted, hheard, hp, -, hfifo⟩ := h
  dsimp only at hwraps hl hevent hsignals hnoted hheard hp hc hs ⊢
  subst hc
  simp only [readEvents, Option.map_eq_some_iff, Prod.mk.injEq, Prod.exists] at hs
  obtain ⟨value, counter, he, rfl, rfl⟩ := hs
  obtain ⟨rfl, rfl, -⟩ := eventfdRead_eq_some he
  have hother := sq.memory.learn_views_of_ne (show Side.producer ≠ .consumer by decide) sq.eventView
  refine ⟨?_, .inr ⟨_, rfl, trivial⟩⟩
  show Inv size _ (items ++ []) (out ++ []) (events + (sq.addEvent + 0))
  rw [List.append_nil, List.append_nil, Nat.add_zero]
  refine ⟨hwraps, hl.learn hevent _, possible_mono (sq.memory.known_learn _ _) hevent, hsignals,
    hnoted, ?_, hp.frame hother, trivial, hfifo⟩
  rw [Memory.learn_views_self]
  exact hnoted.trans (le_sup_right (a := sq.memory.views .consumer) (b := sq.eventView) _)

theorem Inv.step (h : Inv size s items out events) {l : Act α}
    (hs : (relaxedQueue n).step s l = some (t, obs)) : Keeps size t items out events obs := by
  cases l with
  | push ptr i =>
    simp only [relaxedQueue, Option.map_eq_some_iff, Prod.mk.injEq, Prod.exists] at hs
    obtain ⟨q, pc, o, hpush, rfl, rfl⟩ := hs
    exact h.producer_step hpush
  | pop i =>
    simp only [relaxedQueue, Option.map_eq_some_iff, Prod.mk.injEq, Prod.exists] at hs
    obtain ⟨q, pc, o, hpop, rfl, rfl⟩ := hs
    exact h.consumer_step hpop
  | readEvents =>
    simp only [relaxedQueue] at hs
    split at hs
    · rename_i hidle
      simp only [Option.map_eq_some_iff, Prod.mk.injEq, Prod.exists] at hs
      obtain ⟨q, o, hread, rfl, rfl⟩ := hs
      exact h.events_step hidle hread
    · cases hs

theorem Inv.start {heap : Nat → Option α} (hsize : 0 < size)
    (h : Wraps (queueInit heap n).mask size) :
    Inv size ⟨.share (queueInit heap n), .idle, .idle⟩ [] [] 0 := by
  have hl : Layout size (Queue.share (queueInit heap n)).memory [] 0 0 0 :=
    .start hsize _ fun l => by cases l <;> rfl
  exact ⟨h, hl, ⟨⟨fun l => Nat.one_pos, fun t => Nat.le_refl 0⟩, Nat.le_refl 0, Nat.le_refl 0⟩,
    rfl, Nat.le_refl 0, Nat.le_refl 0, trivial, trivial, List.prefix_rfl⟩

/-- What an observation says of the run before it. -/
def Sees (before : List (Obs α)) (o : Obs α) : Prop := Sound (taken before) (popped before).length o

theorem relaxedQueue_inv (h1 : 1 ≤ n) (h2 : n ≤ 2 ^ 32) {tr : List (Obs α)}
    (h : (relaxedQueue n).Run s tr) :
    Inv (pow2Size (BitVec.ofNat 64 n)).toNat s (pushed tr) (popped tr) (taken tr) ∧
      Trace.Each Sees tr := by
  refine Machine.Run.invariant (fun s tr => Inv (pow2Size (BitVec.ofNat 64 n)).toNat s (pushed tr)
    (popped tr) (taken tr) ∧ Trace.Each Sees tr) ?_ ?_ h
  · rintro s ⟨heap, rfl⟩
    obtain ⟨k, hk, -⟩ := AtomicQueue.pow2Size_toNat h1 h2
    exact ⟨.start (hk ▸ Nat.two_pow_pos k) (AtomicQueue.queueInit_wraps h1 h2 heap),
      Trace.Each.nil _⟩
  · rintro s tr l t obs ⟨hi, heach⟩ hs
    obtain ⟨hi', hobs⟩ := hi.step hs
    refine ⟨?_, ?_⟩
    · rwa [pushed_append, popped_append, taken_append]
    · rcases hobs with rfl | ⟨o, rfl, ho⟩
      · rwa [List.append_nil]
      · exact heach.snoc ho

/-- With the memory orders of the source the lock-free queue has no data race and is a
bounded FIFO, and the consumer finds every element whose event it has taken. -/
theorem relaxedQueue_ordered (h1 : 1 ≤ n) (h2 : n ≤ 2 ^ 32) {tr : List (Obs α)}
    (h : (relaxedQueue n).Run s tr) :
    .race ∉ tr ∧ popped tr <+: pushed tr ∧
    (pushed tr).length < (popped tr).length + (pow2Size (BitVec.ofNat 64 n)).toNat ∧
    ∀ before after, tr = before ++ .call (.pop none) :: after →
      taken before ≤ (popped before).length := by
  obtain ⟨hi, heach⟩ := relaxedQueue_inv h1 h2 h
  refine ⟨fun hrace => ?_, hi.fifo, ?_, fun before after he => heach before _ after he⟩
  · obtain ⟨before, after, he⟩ := List.append_of_mem hrace
    exact heach before _ after he
  · have hroom := hi.layout.room
    have hseen := hi.layout.seenPop_le .producer
    rw [List.length_append] at hroom
    omega

end Steps

/-- Once the element whose event was taken is popped, the queue may be found empty. -/
theorem relaxedQueue_ordered_drained : ∃ (s : State Nat) (tr : List (Obs Nat)),
    (relaxedQueue 2).Run s tr ∧
    tr = [.call (.push 7 .queueSuccess), .events 1, .call (.pop (some 7)), .call (.pop none)] ∧
    .race ∉ tr ∧ popped tr <+: pushed tr ∧
    taken [Obs.call (.push 7 .queueSuccess), .events 1, .call (.pop (some 7))] ≤
      (popped [Obs.call (.push 7 .queueSuccess), .events 1, .call (.pop (some 7))]).length := by
  have hexec : ((relaxedQueue 2).exec ⟨.share (queueInit (fun _ => none) 2), .idle, .idle⟩
      [.push 7 0, .push 7 0, .push 7 0, .push 7 0, .push 7 0, .readEvents, .pop 0, .pop 1, .pop 0,
        .pop 0, .pop 1, .pop 1, .pop 0]).map Prod.snd =
      some [Obs.call (.push 7 .queueSuccess), .events 1, .call (.pop (some 7)),
        .call (.pop none)] := by decide +kernel
  obtain ⟨⟨s, tr⟩, he, rfl⟩ := Option.map_eq_some_iff.mp hexec
  have hrun : (relaxedQueue 2).Run s _ := .of_exec ⟨fun _ => none, rfl⟩ he
  obtain ⟨hrace, hfifo, -, hdrained⟩ := relaxedQueue_ordered (by decide) (by decide) hrun
  exact ⟨s, _, hrun, rfl, hrace, hfifo, hdrained _ [] rfl⟩

end RelaxedQueue

end Jullop
