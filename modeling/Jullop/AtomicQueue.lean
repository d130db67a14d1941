import Jullop.BitSpread
import Jullop.QueueInterface
import Jullop.Ring
import Mathlib.Data.Nat.Find

/-! The lock-free queue, `srsw_queue.c`, one atomic access at a time. Loads and
stores are sequentially consistent and the ring has `maxSize` slots. -/

namespace Jullop

namespace AtomicQueue

variable {α : Type*}

structure Queue (α : Type*) where
  maxSize : Nat
  mask : Nat
  pushOffset : Nat
  popOffset : Nat
  ringBuffer : Nat → Option α
  addEvent : Nat

def pow2Size (value : BitVec 64) : BitVec 64 :=
  let value := value - 1
  let value := value ||| value >>> 1
  let value := value ||| value >>> 2
  let value := value ||| value >>> 4
  let value := value ||| value >>> 8
  let value := value ||| value >>> 16
  value + 1

/-- `heap` is what `posix_memalign` leaves in the ring. -/
def queueInit (heap : Nat → Option α) (size : Nat) : Queue α :=
  let size := pow2Size (BitVec.ofNat 64 size)
  { maxSize := size.toNat
    mask := (size - 1).toNat
    pushOffset := 0
    popOffset := 0
    ringBuffer := heap
    addEvent := 0 }

/-- How far a `queue_push` has come; the names say what was done last. -/
inductive PushPc (α : Type*)
  | idle
  | loadedPush (ptr : α) (push : Nat)
  | loadedPop (ptr : α) (push pop : Nat)
  | written (ptr : α) (push : Nat)
  | published

inductive PopPc (α : Type*)
  | idle
  | loadedPop (pop : Nat)
  | loadedPush (pop push : Nat)
  | read (pop : Nat) (ptr : Option α)

/-- The calls as their callers see them, a push being seen when it is published
and a pop when it gives up its slot, and the loads of the other side's offset. -/
inductive AtomicObs (α : Type*)
  | call (obs : QueueObs α)
  | loadedPop
  | loadedPush
  deriving DecidableEq

/-- One step of `queue_push`; `ptr` is the argument when a new call starts. -/
def queuePush (q : Queue α) (ptr : α) :
    PushPc α → Option (Queue α × PushPc α × List (AtomicObs α))
  | .idle => some (q, .loadedPush ptr q.pushOffset, [])
  | .loadedPush ptr push => some (q, .loadedPop ptr push q.popOffset, [.loadedPop])
  | .loadedPop ptr push pop =>
    if (push + 1) &&& q.mask = pop then some (q, .idle, [.call (.push ptr .queueFailure)])
    else
      some ({ q with ringBuffer := Function.update q.ringBuffer push (some ptr) },
        .written ptr push, [])
  | .written ptr push =>
    some ({ q with pushOffset := (push + 1) &&& q.mask }, .published,
      [.call (.push ptr .queueSuccess)])
  | .published =>
    (eventfdWrite q.addEvent).map fun event => ({ q with addEvent := event }, .idle, [])

def queuePop (q : Queue α) : PopPc α → Queue α × PopPc α × List (AtomicObs α)
  | .idle => (q, .loadedPop q.popOffset, [])
  | .loadedPop pop => (q, .loadedPush pop q.pushOffset, [.loadedPush])
  | .loadedPush pop push =>
    if pop = push then (q, .idle, [.call (.pop none)])
    else (q, .read pop (q.ringBuffer pop), [])
  | .read pop ptr =>
    ({ q with popOffset := (pop + 1) &&& q.mask }, .idle, [.call (.pop ptr)])

structure State (α : Type*) where
  queue : Queue α
  producer : PushPc α
  consumer : PopPc α

inductive Side (α : Type*)
  | producer (ptr : α)
  | consumer

/-- One producer and one consumer, in any interleaving of their accesses. -/
def atomicQueue (n : Nat) : Machine (State α) (Side α) (AtomicObs α) where
  init s := ∃ heap, s = ⟨queueInit heap n, .idle, .idle⟩
  step s
    | .producer ptr =>
      (queuePush s.queue ptr s.producer).map fun (q, pc, obs) => (⟨q, pc, s.consumer⟩, obs)
    | .consumer =>
      let (q, pc, obs) := queuePop s.queue s.consumer
      some (⟨q, s.producer, pc⟩, obs)

/-- A step is one of `queue_push` or one of `queue_pop`. -/
theorem atomicQueue_cases {n : Nat} {s t : State α} {l : Side α} {obs : List (AtomicObs α)}
    (hs : (atomicQueue n).step s l = some (t, obs)) :
    (∃ ptr q pc, queuePush s.queue ptr s.producer = some (q, pc, obs) ∧ t = ⟨q, pc, s.consumer⟩) ∨
    (t = ⟨(queuePop s.queue s.consumer).1, s.producer, (queuePop s.queue s.consumer).2.1⟩ ∧
      obs = (queuePop s.queue s.consumer).2.2) := by
  cases l with
  | producer ptr =>
    simp only [atomicQueue, Option.map_eq_some_iff, Prod.mk.injEq, Prod.exists] at hs
    obtain ⟨q, pc, _, hpush, rfl, rfl⟩ := hs
    exact .inl ⟨ptr, q, pc, hpush, rfl⟩
  | consumer =>
    simp only [atomicQueue, Option.some.injEq, Prod.mk.injEq] at hs
    exact .inr ⟨hs.1.symm, hs.2.symm⟩

/-- The shifts of `pow_2_size` add up to thirty-two bits. -/
theorem pow2Size_spread {n : Nat} (h1 : 1 ≤ n) (h2 : n ≤ 2 ^ 63) :
    ∃ w, BitSpread.Spread (n - 1) 32 w ∧ (pow2Size (BitVec.ofNat 64 n)).toNat = w + 1 := by
  have hone : (1 : BitVec 64).toNat = 1 := rfl
  have hv : (BitVec.ofNat 64 n - 1).toNat = n - 1 := by
    rw [BitVec.toNat_sub, hone, BitVec.toNat_ofNat]
    omega
  have hs := ((((BitSpread.Spread.self (n - 1)).shift (s := 1) (by omega)).shift (s := 2)
    (by omega)).shift (s := 4) (by omega) |>.shift (s := 8) (by omega)).shift (s := 16) (by omega)
  refine ⟨_, hs, ?_⟩
  have hlt := hs.lt (n := 63) (by omega)
  simp only [pow2Size, BitVec.toNat_add, BitVec.toNat_or, BitVec.toNat_ushiftRight, hv, hone]
  exact Nat.mod_eq_of_lt (by omega)

theorem pow2Size_of_dense {n : Nat} (h1 : 1 ≤ n) (h2 : n ≤ 2 ^ 63)
    (hd : BitSpread.Dense (n - 1) 32) :
    ∃ k, (pow2Size (BitVec.ofNat 64 n)).toNat = 2 ^ k ∧ n ≤ 2 ^ k ∧ ∀ k', n ≤ 2 ^ k' → k ≤ k' := by
  obtain ⟨w, hw, hsize⟩ := pow2Size_spread h1 h2
  by_cases hz : n - 1 = 0
  · obtain rfl : n = 1 := by omega
    exact ⟨0, by decide, by omega, by omega⟩
  · have hones := hw.eq_ones hz hd
    have hpos : 0 < 2 ^ ((n - 1).log2 + 1) := Nat.two_pow_pos _
    have hlt := Nat.lt_log2_self (n := n - 1)
    refine ⟨(n - 1).log2 + 1, by omega, by omega, ?_⟩
    intro k' hk'
    exact (Nat.log2_lt hz).mpr (by omega)

theorem pow2Size_toNat {n : Nat} (h1 : 1 ≤ n) (h2 : n ≤ 2 ^ 32) :
    ∃ k, (pow2Size (BitVec.ofNat 64 n)).toNat = 2 ^ k ∧ n ≤ 2 ^ k ∧ k ≤ 32 := by
  obtain ⟨k, hsize, hn, hleast⟩ :=
    pow2Size_of_dense h1 (by omega) (BitSpread.Dense.of_lt (by omega))
  exact ⟨k, hsize, hn, hleast 32 h2⟩

/-- An offset that is stepped by adding one and masking runs through the `size`
lowest slots, whatever the mask: `size` is given by its lowest clear bit. -/
def Wraps (mask size : Nat) : Prop := ∀ x, (x % size + 1) &&& mask = (x + 1) % size

theorem exists_wraps (mask : Nat) : ∃ size, 0 < size ∧ Wraps mask size := by
  have hex : ∃ i, mask.testBit i = false := ⟨mask, Nat.testBit_lt_two_pow Nat.lt_two_pow_self⟩
  have hclear := Nat.find_spec hex
  have hset := fun i hi => Bool.eq_true_of_not_eq_false (Nat.find_min hex (m := i) hi)
  generalize Nat.find hex = k at hclear hset
  refine ⟨2 ^ k, Nat.two_pow_pos k, fun x => Nat.eq_of_testBit_eq fun i => ?_⟩
  have hle : x % 2 ^ k + 1 ≤ 2 ^ k := Nat.mod_lt _ (Nat.two_pow_pos k)
  rw [← Nat.mod_add_mod, Nat.testBit_and, Nat.testBit_mod_two_pow]
  rcases Nat.lt_trichotomy i k with hi | rfl | hi
  · simp [hi, hset i hi]
  · simp [hclear]
  · have hlt : 2 ^ k < 2 ^ i := Nat.pow_lt_pow_right (by omega) hi
    simp [Nat.testBit_lt_two_pow (lt_of_le_of_lt hle hlt)]

theorem queueInit_mask {n k : Nat} (heap : Nat → Option α)
    (hk : (pow2Size (BitVec.ofNat 64 n)).toNat = 2 ^ k) : (queueInit heap n).mask = 2 ^ k - 1 := by
  have hlt := (pow2Size (BitVec.ofNat 64 n)).isLt
  have hpos := Nat.two_pow_pos k
  have hone : (1 : BitVec 64).toNat = 1 := rfl
  simp only [queueInit, BitVec.toNat_sub, hone, hk]
  omega

theorem queueInit_wraps {n : Nat} (h1 : 1 ≤ n) (h2 : n ≤ 2 ^ 32) (heap : Nat → Option α) :
    Wraps (queueInit heap n).mask (pow2Size (BitVec.ofNat 64 n)).toNat := by
  obtain ⟨k, hk, -⟩ := pow2Size_toNat h1 h2
  intro x
  rw [queueInit_mask heap hk, hk, Nat.and_two_pow_sub_one_eq_mod, Nat.mod_add_mod]

def AtomicObs.call? : AtomicObs α → Option (QueueObs α)
  | .call obs => some obs
  | _ => none

def calls (tr : List (AtomicObs α)) : List (QueueObs α) := tr.filterMap AtomicObs.call?

def pushed (tr : List (AtomicObs α)) : List α := pushedPtrs (calls tr)

def popped (tr : List (AtomicObs α)) : List α := poppedPtrs (calls tr)

def pending (tr : List (AtomicObs α)) : List α := outstanding (calls tr)

def AtomicObs.ofConsumer : AtomicObs α → Prop
  | .call (.pop _) => True
  | .loadedPush => True
  | _ => False

def AtomicObs.ofProducer : AtomicObs α → Prop
  | .call (.push _ _) => True
  | .loadedPop => True
  | _ => False

def Unread (tr : List (AtomicObs α)) (size i : Nat) : Prop :=
  ∃ k, (popped tr).length ≤ k ∧ k < (pushed tr).length ∧ k % size = i

/-- The producer's last load of `popOffset` saw `n` elements outstanding. -/
def SawPop (n : Nat) (tr : List (AtomicObs α)) : Prop :=
  ∃ before after, tr = before ++ .loadedPop :: after ∧ (∀ o ∈ after, o.ofConsumer) ∧
    (pending before).length = n

/-- The consumer's last load of `pushOffset` saw `n` elements outstanding. -/
def SawPush (n : Nat) (tr : List (AtomicObs α)) : Prop :=
  ∃ before after, tr = before ++ .loadedPush :: after ∧ (∀ o ∈ after, o.ofProducer) ∧
    (pending before).length = n

section Traces

variable (tr : List (AtomicObs α))

theorem calls_append (obs : List (AtomicObs α)) : calls (tr ++ obs) = calls tr ++ calls obs :=
  List.filterMap_append

theorem calls_loadedPop : calls (tr ++ [.loadedPop]) = calls tr := by
  simp [calls, List.filterMap_append, List.filterMap_cons, AtomicObs.call?]

theorem calls_loadedPush : calls (tr ++ [.loadedPush]) = calls tr := by
  simp [calls, List.filterMap_append, List.filterMap_cons, AtomicObs.call?]

theorem calls_call (o : QueueObs α) : calls (tr ++ [.call o]) = calls tr ++ [o] := by
  simp [calls, List.filterMap_append, AtomicObs.call?]

@[simp] theorem pushed_loadedPop : pushed (tr ++ [.loadedPop]) = pushed tr := by
  rw [pushed, calls_loadedPop, pushed]

@[simp] theorem popped_loadedPop : popped (tr ++ [.loadedPop]) = popped tr := by
  rw [popped, calls_loadedPop, popped]

@[simp] theorem pending_loadedPop : pending (tr ++ [.loadedPop]) = pending tr := by
  rw [pending, calls_loadedPop, pending]

@[simp] theorem pushed_loadedPush : pushed (tr ++ [.loadedPush]) = pushed tr := by
  rw [pushed, calls_loadedPush, pushed]

@[simp] theorem popped_loadedPush : popped (tr ++ [.loadedPush]) = popped tr := by
  rw [popped, calls_loadedPush, popped]

@[simp] theorem pending_loadedPush : pending (tr ++ [.loadedPush]) = pending tr := by
  rw [pending, calls_loadedPush, pending]

@[simp] theorem pushed_call (o : QueueObs α) :
    pushed (tr ++ [.call o]) = pushed tr ++ pushedPtrs [o] := by
  rw [pushed, calls_call, pushedPtrs, List.filterMap_append]
  rfl

@[simp] theorem popped_call (o : QueueObs α) :
    popped (tr ++ [.call o]) = popped tr ++ poppedPtrs [o] := by
  rw [popped, calls_call, poppedPtrs, List.filterMap_append]
  rfl

@[simp] theorem pending_call (o : QueueObs α) :
    pending (tr ++ [.call o]) = o.apply (pending tr) := by
  rw [pending, calls_call, outstanding_append]
  rfl

end Traces

theorem SawPop.append {n : Nat} {tr obs : List (AtomicObs α)} (h : SawPop n tr)
    (ho : ∀ o ∈ obs, o.ofConsumer) : SawPop n (tr ++ obs) := by
  obtain ⟨before, after, rfl, ha, hn⟩ := h
  refine ⟨before, after ++ obs, by simp, ?_, hn⟩
  intro o hm
  exact (List.mem_append.mp hm).elim (ha o) (ho o)

theorem SawPush.append {n : Nat} {tr obs : List (AtomicObs α)} (h : SawPush n tr)
    (ho : ∀ o ∈ obs, o.ofProducer) : SawPush n (tr ++ obs) := by
  obtain ⟨before, after, rfl, ha, hn⟩ := h
  refine ⟨before, after ++ obs, by simp, ?_, hn⟩
  intro o hm
  exact (List.mem_append.mp hm).elim (ha o) (ho o)

/-- The offsets and slots of a ring of `size` slots from which `popped` elements
were taken and that holds `items`. -/
structure Layout (q : Queue α) (size popped : Nat) (items : List α) : Prop where
  wraps : Wraps q.mask size
  push : q.pushOffset = (popped + items.length) % size
  pop : q.popOffset = popped % size
  room : items.length < size
  slots : Ring.window q.ringBuffer size popped items.length = items.map some

theorem queueInit_layout {n size : Nat} {heap : Nat → Option α} (hpos : 0 < size)
    (h : Wraps (queueInit heap n).mask size) : Layout (queueInit heap n) size 0 [] :=
  ⟨h, by simp [queueInit], by simp [queueInit], hpos, by simp⟩

/-- What a `queue_push` under way knows. Its copy of `popOffset` may be stale:
it is the offset of a moment at which `m` elements were outstanding, all pushed
ones except those popped by then. -/
def ProducerOk (size : Nat) (ring : Nat → Option α) (tr : List (AtomicObs α)) :
    PushPc α → Prop
  | .idle => True
  | .loadedPush _ push => push = (pushed tr).length % size
  | .loadedPop _ push pop =>
    push = (pushed tr).length % size ∧
      ∃ m c, SawPop m tr ∧ m < size ∧ c + m = (pushed tr).length ∧
        c ≤ (popped tr).length ∧ pop = c % size
  | .written ptr push =>
    push = (pushed tr).length % size ∧ (pending tr).length + 1 < size ∧ ring push = some ptr
  | .published => True

/-- What a `queue_pop` under way knows; at its load of `pushOffset`, `m` elements
were outstanding, and none of them has been popped since. -/
def ConsumerOk (size : Nat) (tr : List (AtomicObs α)) : PopPc α → Prop
  | .idle => True
  | .loadedPop pop => pop = (popped tr).length % size
  | .loadedPush pop push =>
    pop = (popped tr).length % size ∧
      ∃ m, SawPush m tr ∧ m ≤ (pending tr).length ∧ push = ((popped tr).length + m) % size
  | .read pop ptr =>
    pop = (popped tr).length % size ∧ pending tr ≠ [] ∧ ptr = (pending tr).head?

/-- A failed push saw the queue full and a NULL pop saw it empty. -/
def Justified (size : Nat) (before : List (AtomicObs α)) (o : AtomicObs α) : Prop :=
  (∀ ptr, o = .call (.push ptr .queueFailure) → SawPop (size - 1) before) ∧
    (o = .call (.pop none) → SawPush 0 before)

structure Inv (size : Nat) (s : State α) (tr : List (AtomicObs α)) : Prop where
  layout : Layout s.queue size (popped tr).length (pending tr)
  fifo : pushed tr = popped tr ++ pending tr
  producer : ProducerOk size s.queue.ringBuffer tr s.producer
  consumer : ConsumerOk size tr s.consumer
  justified : Trace.Each (Justified size) tr

theorem Inv.setEvent {size : Nat} {s : State α} {tr : List (AtomicObs α)} (h : Inv size s tr)
    (event : Nat) : Inv size { s with queue := { s.queue with addEvent := event } } tr :=
  ⟨⟨h.layout.wraps, h.layout.push, h.layout.pop, h.layout.room, h.layout.slots⟩, h.fifo,
    h.producer, h.consumer, h.justified⟩

theorem Inv.pushed_length {size : Nat} {s : State α} {tr : List (AtomicObs α)}
    (h : Inv size s tr) :
    (pushed tr).length = (popped tr).length + (pending tr).length := by
  rw [h.fifo, List.length_append]

theorem ConsumerOk.frame {size : Nat} {tr obs : List (AtomicObs α)} {pc : PopPc α}
    (h : ConsumerOk size tr pc) (hobs : ∀ o ∈ obs, o.ofProducer)
    (hpop : popped (tr ++ obs) = popped tr) (hpend : pending tr <+: pending (tr ++ obs)) :
    ConsumerOk size (tr ++ obs) pc := by
  cases pc with
  | idle => trivial
  | loadedPop pop => simpa only [ConsumerOk, hpop] using h
  | loadedPush pop push =>
    obtain ⟨hc, m, hm, hle, hp⟩ := h
    simp only [ConsumerOk, hpop]
    exact ⟨hc, m, hm.append hobs, hle.trans hpend.length_le, hp⟩
  | read pop ptr =>
    obtain ⟨hc, hne, hp⟩ := h
    obtain ⟨more, hmore⟩ := hpend
    simp only [ConsumerOk, hpop, ← hmore]
    refine ⟨hc, by simp [hne], ?_⟩
    rw [hp, List.head?_append_of_ne_nil _ hne]

theorem ProducerOk.frame {size : Nat} {ring : Nat → Option α} {tr obs : List (AtomicObs α)}
    {pc : PushPc α} (h : ProducerOk size ring tr pc) (hobs : ∀ o ∈ obs, o.ofConsumer)
    (hpush : pushed (tr ++ obs) = pushed tr)
    (hpop : (popped tr).length ≤ (popped (tr ++ obs)).length)
    (hpend : (pending (tr ++ obs)).length ≤ (pending tr).length) :
    ProducerOk size ring (tr ++ obs) pc := by
  cases pc with
  | idle => trivial
  | loadedPush ptr push => simpa only [ProducerOk, hpush] using h
  | loadedPop ptr push pop =>
    obtain ⟨hp, m, c, hm, hlt, hcm, hc, he⟩ := h
    simp only [ProducerOk, hpush]
    exact ⟨hp, m, c, hm.append hobs, hlt, hcm, hc.trans hpop, he⟩
  | written ptr push =>
    obtain ⟨hp, hr, hs⟩ := h
    simp only [ProducerOk, hpush]
    exact ⟨hp, by omega, hs⟩
  | published => trivial

/-- A stale copy of `popOffset` makes a push fail only when the queue was full
at the load, and never makes a full queue look free. -/
theorem stale_pop {size u c m : Nat} (hcm : c + m = u) (hm : m < size) :
    (u + 1) % size = c % size ↔ m = size - 1 := by
  constructor
  · intro he
    by_contra hne
    exact Ring.mod_ne_of_lt (by omega : c < u + 1) (by omega) he.symm
  · intro he
    rw [show u + 1 = c + size by omega, Nat.add_mod_right]

theorem stale_push {size c m : Nat} (hm : m < size) : c % size = (c + m) % size ↔ m = 0 := by
  constructor
  · intro he
    by_contra hne
    exact Ring.mod_ne_of_lt (by omega : c < c + m) (by omega) he
  · rintro rfl
    rfl

theorem Inv.producer_step {size : Nat} {s : State α} {tr obs : List (AtomicObs α)}
    (h : Inv size s tr) {ptr : α}
    {q : Queue α} {pc : PushPc α} (hs : queuePush s.queue ptr s.producer = some (q, pc, obs)) :
    Inv size ⟨q, pc, s.consumer⟩ (tr ++ obs) := by
  have hlen := h.pushed_length
  obtain ⟨sq, sp, sc⟩ := s
  obtain ⟨hl, hfifo, hp, hc, hj⟩ := h
  dsimp only at hl hp hc hj hs ⊢
  cases sp with
  | idle =>
    simp only [queuePush, Option.some.injEq, Prod.mk.injEq] at hs
    obtain ⟨rfl, rfl, rfl⟩ := hs
    rw [List.append_nil]
    exact ⟨hl, hfifo, by simp only [ProducerOk, hl.push, hlen], hc, hj⟩
  | loadedPush ptr push =>
    simp only [queuePush, Option.some.injEq, Prod.mk.injEq] at hs
    obtain ⟨rfl, rfl, rfl⟩ := hs
    refine ⟨by simpa using hl, by simpa using hfifo, ?_,
      hc.frame (by simp [AtomicObs.ofProducer]) (by simp) (by simp), hj.snoc ⟨by simp, by simp⟩⟩
    simp only [ProducerOk, pushed_loadedPop, popped_loadedPop]
    exact ⟨hp, (pending tr).length, (popped tr).length, ⟨tr, [], rfl, by simp, rfl⟩, hl.room,
      hlen.symm, le_rfl, hl.pop⟩
  | loadedPop ptr push pop =>
    obtain ⟨rfl, m, c, hsaw, hm, hcm, hle, rfl⟩ := hp
    have hfull := stale_pop hcm hm
    simp only [queuePush] at hs
    rw [hl.wraps] at hs
    by_cases hf : m = size - 1
    · rw [if_pos (hfull.mpr hf)] at hs
      simp only [Option.some.injEq, Prod.mk.injEq] at hs
      obtain ⟨rfl, rfl, rfl⟩ := hs
      refine ⟨by simpa [poppedPtrs, QueueObs.apply] using hl,
        by simpa [poppedPtrs, pushedPtrs, QueueObs.apply] using hfifo, trivial,
        hc.frame (by simp [AtomicObs.ofProducer]) (by simp [poppedPtrs])
          (by simp [QueueObs.apply]), hj.snoc ⟨fun _ _ => hf ▸ hsaw, by simp⟩⟩
    · rw [if_neg fun he => hf (hfull.mp he)] at hs
      simp only [Option.some.injEq, Prod.mk.injEq] at hs
      obtain ⟨rfl, rfl, rfl⟩ := hs
      rw [List.append_nil]
      have hroom : (pending tr).length + 1 < size := by omega
      refine ⟨⟨hl.wraps, hl.push, hl.pop, hl.room, ?_⟩, hfifo, ?_, hc, hj⟩
      · dsimp only
        rw [hlen, Ring.window_update hl.room]
        exact hl.slots
      · exact ⟨rfl, hroom, Function.update_self ..⟩
  | written ptr push =>
    obtain ⟨rfl, hroom, hslot⟩ := hp
    simp only [queuePush, Option.some.injEq, Prod.mk.injEq] at hs
    obtain ⟨rfl, rfl, rfl⟩ := hs
    refine ⟨?_, by simp [pushedPtrs, poppedPtrs, QueueObs.apply, hfifo], trivial,
      hc.frame (by simp [AtomicObs.ofProducer]) (by simp [poppedPtrs]) (by simp [QueueObs.apply]),
      hj.snoc ⟨by simp, by simp⟩⟩
    simp only [popped_call, poppedPtrs, List.filterMap_nil, List.filterMap_cons, List.append_nil,
      pending_call, QueueObs.apply]
    refine ⟨hl.wraps, ?_, hl.pop, by simpa using hroom, ?_⟩
    · dsimp only
      rw [hl.wraps, hlen, List.length_append, List.length_singleton, Nat.add_assoc]
    · dsimp only
      rw [List.length_append, List.length_singleton, Ring.window_succ, hl.slots, ← hlen,
        hslot, List.map_append, List.map_singleton]
  | published =>
    simp only [queuePush, Option.map_eq_some_iff, Prod.mk.injEq] at hs
    obtain ⟨event, _, rfl, rfl, rfl⟩ := hs
    rw [List.append_nil]
    exact ⟨⟨hl.wraps, hl.push, hl.pop, hl.room, hl.slots⟩, hfifo, trivial, hc, hj⟩

theorem Inv.consumer_step {size : Nat} {s : State α} {tr : List (AtomicObs α)}
    (h : Inv size s tr) :
    Inv size ⟨(queuePop s.queue s.consumer).1, s.producer, (queuePop s.queue s.consumer).2.1⟩
      (tr ++ (queuePop s.queue s.consumer).2.2) := by
  obtain ⟨sq, sp, sc⟩ := s
  obtain ⟨hl, hfifo, hp, hc, hj⟩ := h
  dsimp only at hl hp hc hj ⊢
  cases sc with
  | idle =>
    simp only [queuePop, List.append_nil]
    exact ⟨hl, hfifo, hp, hl.pop, hj⟩
  | loadedPop pop =>
    simp only [queuePop]
    refine ⟨by simpa using hl, by simpa using hfifo,
      hp.frame (by simp [AtomicObs.ofConsumer]) (by simp) (by simp) (by simp), ?_,
      hj.snoc ⟨by simp, by simp⟩⟩
    simp only [ConsumerOk, popped_loadedPush, pending_loadedPush]
    exact ⟨hc, (pending tr).length, ⟨tr, [], rfl, by simp, rfl⟩, le_rfl, hl.push⟩
  | loadedPush pop push =>
    obtain ⟨rfl, m, hsaw, hm, rfl⟩ := hc
    have hroom := hl.room
    have hempty := stale_push (c := (popped tr).length) (show m < size by omega)
    simp only [queuePop]
    by_cases hz : m = 0
    · rw [if_pos (hempty.mpr hz)]
      refine ⟨by simpa [poppedPtrs, QueueObs.apply] using hl,
        by simpa [poppedPtrs, pushedPtrs, QueueObs.apply] using hfifo,
        hp.frame (by simp [AtomicObs.ofConsumer]) (by simp [pushedPtrs]) (by simp)
          (by simp [QueueObs.apply]), trivial, hj.snoc ⟨by simp, fun _ => hz ▸ hsaw⟩⟩
    · rw [if_neg fun he => hz (hempty.mp he)]
      simp only [List.append_nil]
      have hne : pending tr ≠ [] := by
        intro he
        rw [he] at hm
        exact hz (Nat.le_zero.mp hm)
      refine ⟨hl, hfifo, hp, ⟨rfl, hne, ?_⟩, hj⟩
      obtain ⟨x, items, hx⟩ := List.exists_cons_of_ne_nil hne
      have hw := hl.slots
      rw [hx, List.length_cons, Ring.window_cons, List.map_cons, List.cons.injEq] at hw
      rw [hx, hw.1, List.head?_cons]
  | read pop ptr =>
    obtain ⟨rfl, hne, rfl⟩ := hc
    obtain ⟨x, items, hx⟩ := List.exists_cons_of_ne_nil hne
    simp only [queuePop, hx, List.head?_cons]
    have hw := hl.slots
    have hpush := hl.push
    have hroom := hl.room
    rw [hx, List.length_cons, Ring.window_cons, List.map_cons, List.cons.injEq] at hw
    rw [hx, List.length_cons] at hpush hroom
    refine ⟨?_, by simp [pushedPtrs, poppedPtrs, QueueObs.apply, hfifo, hx],
      hp.frame (by simp [AtomicObs.ofConsumer]) (by simp [pushedPtrs]) (by simp)
        (by simp [QueueObs.apply]), trivial, hj.snoc ⟨by simp, by simp⟩⟩
    simp only [popped_call, pending_call, QueueObs.apply, hx, List.tail_cons]
    refine ⟨hl.wraps, ?_, ?_, by omega, ?_⟩
    · simp only [hpush, poppedPtrs, List.filterMap_cons, List.filterMap_nil, List.length_append,
        List.length_singleton]
      congr 1
      omega
    · simp only [poppedPtrs, List.filterMap_cons, List.filterMap_nil, List.length_append,
        List.length_singleton]
      exact hl.wraps _
    · simpa [poppedPtrs] using hw.2

theorem Inv.start {n size : Nat} {heap : Nat → Option α} (hpos : 0 < size)
    (h : Wraps (queueInit heap n).mask size) : Inv size ⟨queueInit heap n, .idle, .idle⟩ [] :=
  ⟨queueInit_layout hpos h, rfl, trivial, trivial, Trace.Each.nil _⟩

theorem Inv.step {size n : Nat} {s t : State α} {tr obs : List (AtomicObs α)} {l : Side α}
    (h : Inv size s tr) (hs : (atomicQueue n).step s l = some (t, obs)) : Inv size t (tr ++ obs) := by
  obtain ⟨ptr, q, pc, hpush, rfl⟩ | ⟨rfl, rfl⟩ := atomicQueue_cases hs
  · exact h.producer_step hpush
  · exact h.consumer_step

theorem atomicQueue_inv {n : Nat} (h1 : 1 ≤ n) (h2 : n ≤ 2 ^ 32) {s : State α}
    {tr : List (AtomicObs α)} (h : (atomicQueue n).Run s tr) :
    Inv (pow2Size (BitVec.ofNat 64 n)).toNat s tr := by
  refine Machine.Run.invariant (Inv (pow2Size (BitVec.ofNat 64 n)).toNat) ?_ ?_ h
  · rintro s ⟨heap, rfl⟩
    obtain ⟨k, hk, _⟩ := pow2Size_toNat h1 h2
    exact Inv.start (hk ▸ Nat.two_pow_pos k) (queueInit_wraps h1 h2 heap)
  · intro s tr l t obs hi hs
    exact hi.step hs

theorem queuePush_maxSize {q q' : Queue α} {ptr : α} {pc pc' : PushPc α}
    {obs : List (AtomicObs α)} (h : queuePush q ptr pc = some (q', pc', obs)) :
    q'.maxSize = q.maxSize := by
  cases pc with
  | loadedPop ptr push pop =>
    simp only [queuePush] at h
    split at h <;> cases h <;> rfl
  | published =>
    simp only [queuePush, Option.map_eq_some_iff, Prod.mk.injEq] at h
    obtain ⟨event, _, rfl, _⟩ := h
    rfl
  | _ => cases h; rfl

theorem queuePop_maxSize (q : Queue α) (pc : PopPc α) :
    (queuePop q pc).1.maxSize = q.maxSize := by
  cases pc with
  | loadedPush pop push => simp only [queuePop]; split <;> rfl
  | _ => rfl

theorem atomicQueue_maxSize {n : Nat} {s : State α} {tr : List (AtomicObs α)}
    (h : (atomicQueue n).Run s tr) :
    s.queue.maxSize = (pow2Size (BitVec.ofNat 64 n)).toNat := by
  refine Machine.Run.invariant
    (fun s _ => s.queue.maxSize = (pow2Size (BitVec.ofNat 64 n)).toNat) ?_ ?_ h
  · rintro s ⟨heap, rfl⟩
    rfl
  · intro s tr l t obs hi hs
    obtain ⟨ptr, q, pc, hpush, rfl⟩ | ⟨rfl, rfl⟩ := atomicQueue_cases hs
    · exact (queuePush_maxSize hpush).trans hi
    · exact (queuePop_maxSize _ _).trans hi

theorem Inv.write_not_unread {size : Nat} {s : State α} {tr : List (AtomicObs α)}
    (h : Inv size s tr) {ptr : α} {push pop : Nat} (hp : s.producer = .loadedPop ptr push pop)
    (hne : (push + 1) &&& s.queue.mask ≠ pop) : ¬ Unread tr size push := by
  have hlen := h.pushed_length
  have hok := h.producer
  rw [hp] at hok
  obtain ⟨rfl, m, c, _, hm, hcm, hc, rfl⟩ := hok
  rw [h.layout.wraps, ne_eq, stale_pop hcm hm] at hne
  rintro ⟨k, hk, hk', he⟩
  exact Ring.mod_ne_of_lt hk' (by omega) he

theorem Inv.read_unread {size : Nat} {s : State α} {tr : List (AtomicObs α)}
    (h : Inv size s tr) {pop push : Nat} (hp : s.consumer = .loadedPush pop push)
    (hne : pop ≠ push) :
    Unread tr size pop ∧
      ∃ x, (pending tr).head? = some x ∧ s.queue.ringBuffer pop = some x := by
  have hlen := h.pushed_length
  have hok := h.consumer
  rw [hp] at hok
  obtain ⟨rfl, m, _, hm, rfl⟩ := hok
  have hroom := h.layout.room
  rw [ne_eq, stale_push (by omega)] at hne
  refine ⟨⟨(popped tr).length, le_rfl, by omega, rfl⟩, ?_⟩
  cases hx : pending tr with
  | nil => simp [hx] at hm; omega
  | cons x items =>
    have hw := h.layout.slots
    rw [hx, List.length_cons, Ring.window_cons, List.map_cons, List.cons.injEq] at hw
    exact ⟨x, rfl, hw.1⟩

/-- The lock-free queue is a FIFO in every interleaving of the accesses of one
producer and one consumer. -/
theorem atomicQueue_fifo {n : Nat} (h1 : 1 ≤ n) (h2 : n ≤ 2 ^ 32) {s : State α}
    {tr : List (AtomicObs α)} (h : (atomicQueue n).Run s tr) :
    popped tr <+: pushed tr ∧
    (∀ ptr push pop, s.producer = .loadedPop ptr push pop →
      (push + 1) &&& s.queue.mask ≠ pop → ¬ Unread tr s.queue.maxSize push) ∧
    (∀ pop push, s.consumer = .loadedPush pop push → pop ≠ push →
      Unread tr s.queue.maxSize pop ∧
        ∃ x, (pending tr).head? = some x ∧ s.queue.ringBuffer pop = some x) ∧
    (∀ before after ptr, tr = before ++ .call (.push ptr .queueFailure) :: after →
      SawPop ((pow2Size (BitVec.ofNat 64 n)).toNat - 1) before) ∧
    (∀ before after, tr = before ++ .call (.pop none) :: after → SawPush 0 before) := by
  have hi := atomicQueue_inv h1 h2 h
  rw [atomicQueue_maxSize h]
  refine ⟨⟨pending tr, hi.fifo.symm⟩, fun _ _ _ => hi.write_not_unread,
    fun _ _ => hi.read_unread, ?_, ?_⟩
  · intro before after ptr he
    exact (hi.justified _ _ _ he).1 ptr rfl
  · intro before after he
    exact (hi.justified _ _ _ he).2 rfl

/-- On a queue made for two elements one fits: of two pushes the second fails, and of
two pops as well. -/
theorem atomicQueue_fifo_two : ∃ (s : State Nat) (tr : List (AtomicObs Nat)),
    (atomicQueue 2).Run s tr ∧
    tr = [.loadedPop, .call (.push 7 .queueSuccess), .loadedPop, .call (.push 8 .queueFailure),
      .loadedPush, .call (.pop (some 7)), .loadedPush, .call (.pop none)] ∧
    popped tr <+: pushed tr ∧
    SawPop 1 [AtomicObs.loadedPop, .call (.push 7 .queueSuccess), .loadedPop] ∧
    SawPush 0 [AtomicObs.loadedPop, .call (.push 7 .queueSuccess), .loadedPop,
      .call (.push 8 .queueFailure), .loadedPush, .call (.pop (some 7)), .loadedPush] := by
  have hsize : (pow2Size (BitVec.ofNat 64 2)).toNat = 2 := by decide
  have hexec : ((atomicQueue 2).exec ⟨queueInit (fun _ => none) 2, .idle, .idle⟩
      (List.replicate 5 (.producer 7) ++ List.replicate 3 (.producer 8) ++
        List.replicate 7 .consumer)).map Prod.snd =
      some [AtomicObs.loadedPop, .call (.push 7 .queueSuccess), .loadedPop,
        .call (.push 8 .queueFailure), .loadedPush, .call (.pop (some 7)), .loadedPush,
        .call (.pop none)] := by
    decide +kernel
  obtain ⟨⟨s, tr⟩, he, rfl⟩ := Option.map_eq_some_iff.mp hexec
  have hrun : (atomicQueue 2).Run s _ := .of_exec ⟨_, rfl⟩ he
  obtain ⟨hfifo, -, -, hfull, hempty⟩ := atomicQueue_fifo (by decide) (by decide) hrun
  rw [hsize] at hfull
  exact ⟨s, _, hrun, rfl, hfifo, hfull _ _ 8 rfl, hempty _ [] rfl⟩

end AtomicQueue

end Jullop
