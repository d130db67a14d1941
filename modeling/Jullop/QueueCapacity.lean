import Jullop.AtomicQueue
import Jullop.LockQueue

/-! How many elements can be pushed into an empty queue: the lock-free queue keeps
one slot of its ring empty, the lock queue does not. -/

namespace Jullop

variable {α : Type*}

namespace AtomicQueue

/-- Calls of `queue_push` one after the other, with no step of the consumer in
between; a call that succeeds takes five steps. -/
def PushesSucceed (n : Nat) (s : State α) (xs : List α) : Prop :=
  ∃ t obs, (atomicQueue n).exec s (xs.flatMap fun ptr => List.replicate 5 (.producer ptr)) =
      some (t, obs) ∧ calls obs = xs.map fun ptr => .push ptr .queueSuccess

variable {n size : Nat} {s : State α} {tr : List (AtomicObs α)} {xs : List α}

theorem Inv.full_iff (h : Inv size s tr) :
    (s.queue.pushOffset + 1) &&& s.queue.mask = s.queue.popOffset ↔
      (pending tr).length + 1 = size := by
  have hroom := h.layout.room
  rw [h.layout.push, h.layout.pop, h.layout.wraps, stale_pop rfl hroom]
  omega

theorem exec_push_full (hidle : s.producer = .idle)
    (hfull : (s.queue.pushOffset + 1) &&& s.queue.mask = s.queue.popOffset) (ptr : α) :
    ∃ t, (atomicQueue n).exec s (List.replicate 5 (.producer ptr)) =
      some (t, [.loadedPop, .call (.push ptr .queueFailure), .loadedPop]) := by
  refine ⟨⟨s.queue, .loadedPop ptr s.queue.pushOffset s.queue.popOffset, s.consumer⟩, ?_⟩
  simp [Machine.exec, List.replicate, atomicQueue, queuePush, hidle, hfull]

theorem exec_push_silenced (hidle : s.producer = .idle)
    (hfree : (s.queue.pushOffset + 1) &&& s.queue.mask ≠ s.queue.popOffset)
    (hevent : eventfdMax ≤ s.queue.addEvent) (ptr : α) :
    (atomicQueue n).exec s (List.replicate 5 (.producer ptr)) = none := by
  have hfails : ¬ s.queue.addEvent < eventfdMax := by omega
  simp [Machine.exec, List.replicate, atomicQueue, queuePush, hidle, hfree, eventfdWrite, hfails]

theorem exec_push_free (hidle : s.producer = .idle)
    (hfree : (s.queue.pushOffset + 1) &&& s.queue.mask ≠ s.queue.popOffset)
    (hevent : s.queue.addEvent < eventfdMax) (ptr : α) :
    ∃ t, (atomicQueue n).exec s (List.replicate 5 (.producer ptr)) =
        some (t, [.loadedPop, .call (.push ptr .queueSuccess)]) ∧
      t.producer = .idle ∧ t.queue.addEvent = s.queue.addEvent + 1 := by
  refine ⟨⟨{ s.queue with
    ringBuffer := Function.update s.queue.ringBuffer s.queue.pushOffset (some ptr)
    pushOffset := (s.queue.pushOffset + 1) &&& s.queue.mask
    addEvent := s.queue.addEvent + 1 }, .idle, s.consumer⟩, ?_, rfl, rfl⟩
  simp [Machine.exec, List.replicate, atomicQueue, queuePush, hidle, hfree, eventfdWrite, hevent]

theorem pushesSucceed_cons {ptr : α} {obs : List (AtomicObs α)} {r : QueueResult} {t : State α}
    (hexec : (atomicQueue n).exec s (List.replicate 5 (.producer ptr)) = some (t, obs))
    (hcalls : calls obs = [.push ptr r]) :
    PushesSucceed n s (ptr :: xs) ↔ r = .queueSuccess ∧ PushesSucceed n t xs := by
  constructor
  · rintro ⟨u, all, hall, hsucceed⟩
    obtain ⟨t', first, more, hfirst, hmore, rfl⟩ := Machine.exec_append.mp hall
    rw [hexec] at hfirst
    cases hfirst
    rw [calls_append, hcalls, List.map_cons, List.singleton_append, List.cons.injEq,
      QueueObs.push.injEq] at hsucceed
    exact ⟨hsucceed.1.2, u, more, hmore, hsucceed.2⟩
  · rintro ⟨rfl, u, more, hmore, hsucceed⟩
    refine ⟨u, obs ++ more, Machine.exec_append.mpr ⟨t, obs, more, hexec, hmore, rfl⟩, ?_⟩
    rw [calls_append, hcalls, hsucceed]
    rfl

/-- The calls succeed as long as they leave one slot of the ring empty, and the
event counter below its largest value. -/
theorem Inv.pushesSucceed_iff (h : Inv size s tr) (hidle : s.producer = .idle)
    (hevent : s.queue.addEvent ≤ eventfdMax) :
    PushesSucceed n s xs ↔
      (pending tr).length + xs.length < size ∧ s.queue.addEvent + xs.length ≤ eventfdMax := by
  have hroom := h.layout.room
  induction xs generalizing s tr with
  | nil =>
    refine iff_of_true ⟨s, [], rfl, rfl⟩ ⟨?_, ?_⟩
    · simpa using hroom
    · simpa using hevent
  | cons ptr xs ih =>
    rw [List.length_cons]
    by_cases hfull : (s.queue.pushOffset + 1) &&& s.queue.mask = s.queue.popOffset
    · have hlen := h.full_iff.mp hfull
      obtain ⟨t, ht⟩ := exec_push_full (n := n) hidle hfull ptr
      refine iff_of_false ?_ (by omega)
      intro hsucceed
      cases ((pushesSucceed_cons ht rfl).mp hsucceed).1
    · by_cases hsilent : eventfdMax ≤ s.queue.addEvent
      · refine iff_of_false ?_ (by omega)
        rintro ⟨t, obs, hexec, -⟩
        obtain ⟨t', first, more, hfirst, -, -⟩ := Machine.exec_append.mp hexec
        rw [exec_push_silenced hidle hfull hsilent] at hfirst
        cases hfirst
      · obtain ⟨t, ht, htidle, htevent⟩ := exec_push_free (n := n) hidle hfull (by omega) ptr
        have hinv : Inv size t (tr ++ [.loadedPop, .call (.push ptr .queueSuccess)]) :=
          Machine.exec_invariant (Inv size) (fun _ _ _ _ _ hi hs => hi.step hs) h ht
        have hpending : pending (tr ++ [.loadedPop, .call (.push ptr .queueSuccess)]) =
            pending tr ++ [ptr] := by
          rw [List.append_cons, pending_call, pending_loadedPop, QueueObs.apply]
        have hrest := ih hinv htidle (by omega) hinv.layout.room
        rw [hpending, List.length_append, List.length_singleton, htevent] at hrest
        rw [pushesSucceed_cons ht rfl, and_iff_right rfl]
        refine hrest.trans ?_
        omega

/-- A ring of the rounded size has room for `n` elements and an empty slot. -/
theorem lt_pow2Size_iff (h1 : 1 ≤ n) (h2 : n ≤ 2 ^ 32) :
    n < (pow2Size (BitVec.ofNat 64 n)).toNat ↔ ¬ ∃ k, n = 2 ^ k := by
  obtain ⟨k, hk, hn, hleast⟩ :=
    pow2Size_of_dense h1 (by omega) (BitSpread.Dense.of_lt (by omega))
  rw [hk]
  constructor
  · rintro hlt ⟨k', rfl⟩
    have hle := hleast k' (Nat.le_refl _)
    have hpow := (Nat.pow_lt_pow_iff_right (by omega)).mp hlt
    omega
  · intro hpow
    exact Nat.lt_of_le_of_ne hn fun heq => hpow ⟨k, heq⟩

end AtomicQueue

namespace LockQueue

def PushesSucceed (n : Nat) (q : Queue α) (xs : List α) : Prop :=
  ∃ q', (lockQueue n).exec q (xs.map fun ptr => (0, .push ptr)) =
    some (q', xs.map fun ptr => .push ptr .queueSuccess)

variable {n : Nat} {q q' : Queue α} {ptr : α} {items xs : List α} {r : QueueResult}

theorem pushesSucceed_cons (hpush : queuePush q ptr = some (r, q')) :
    PushesSucceed n q (ptr :: xs) ↔ r = .queueSuccess ∧ PushesSucceed n q' xs := by
  have hstep : (lockQueue n).step q (0, .push ptr) = some (q', [.push ptr r]) := by
    simp [lockQueue, hpush]
  simp only [PushesSucceed, List.map_cons, Machine.exec, hstep, Option.bind_eq_bind,
    Option.bind_some, Option.bind_eq_some_iff, Option.pure_def, Option.some.injEq, Prod.mk.injEq,
    Prod.exists, List.singleton_append, List.cons.injEq, QueueObs.push.injEq, true_and]
  constructor
  · rintro ⟨u, v, obs, hexec, rfl, hr, rfl⟩
    exact ⟨hr, v, hexec⟩
  · rintro ⟨rfl, u, hexec⟩
    exact ⟨u, u, _, hexec, rfl, rfl, rfl⟩

/-- Every slot of the lock queue can be used. -/
theorem Represents.pushesSucceed_iff (h : Represents q items) (hevent : q.addEvent ≤ eventfdMax) :
    PushesSucceed n q xs ↔
      items.length + xs.length ≤ q.maxSize ∧ q.addEvent + xs.length ≤ eventfdMax := by
  have hle : items.length ≤ q.maxSize := h.size ▸ h.size_le
  induction xs generalizing q items with
  | nil =>
    refine iff_of_true ⟨q, rfl⟩ ⟨?_, ?_⟩
    · simpa using hle
    · simpa using hevent
  | cons ptr xs ih =>
    rw [List.length_cons]
    by_cases hfull : items.length = q.maxSize
    · refine iff_of_false ?_ (by omega)
      intro hsucceed
      cases ((pushesSucceed_cons (queuePush_of_full h hfull ptr)).mp hsucceed).1
    · cases hpush : queuePush q ptr with
      | none =>
        have hsilent := queuePush_eq_none hpush
        refine iff_of_false ?_ (by omega)
        rintro ⟨q', hexec⟩
        simp [Machine.exec, lockQueue, hpush] at hexec
      | some result =>
        obtain ⟨r, q'⟩ := result
        obtain ⟨rfl, hr, hmax, hcount⟩ := queuePush_of_not_full h hfull hpush
        have hroom : q.addEvent < eventfdMax := by
          by_contra hsilent
          simp [queuePush, h.isFull_iff, hfull, eventfdWrite, hsilent] at hpush
        have hrest := ih hr (by omega) (by rw [hmax, List.length_append, List.length_singleton]; omega)
        rw [hmax, hcount, List.length_append, List.length_singleton] at hrest
        rw [pushesSucceed_cons hpush, and_iff_right rfl]
        refine hrest.trans ?_
        omega

end LockQueue

/-- From an empty queue `n` pushes succeed exactly when the rounding of `n` leaves a
slot to spare, which it does not when `n` is a power of two; in the lock queue
they succeed for every `n`. -/
theorem capacity_iff {n : Nat} (h1 : 1 ≤ n) (h2 : n ≤ 2 ^ 32) {event : Nat}
    (hevent : event ≤ eventfdMax) {xs : List α} (hxs : xs.length = n) :
    (∀ (s : AtomicQueue.State α) tr, (AtomicQueue.atomicQueue n).Run s tr → s.producer = .idle →
      AtomicQueue.pending tr = [] →
      (AtomicQueue.PushesSucceed n { s with queue := { s.queue with addEvent := event } } xs ↔
        (¬ ∃ k, n = 2 ^ k) ∧ event + n ≤ eventfdMax)) ∧
    ∀ (q : LockQueue.Queue α) tr, (LockQueue.lockQueue n).Run q tr → outstanding tr = [] →
      (LockQueue.PushesSucceed n { q with addEvent := event } xs ↔ event + n ≤ eventfdMax) := by
  constructor
  · intro s tr hrun hidle hempty
    have hinv := (AtomicQueue.atomicQueue_inv h1 h2 hrun).setEvent event
    have hiff : AtomicQueue.PushesSucceed n _ xs ↔ _ := hinv.pushesSucceed_iff hidle hevent
    rw [hempty, hxs, List.length_nil, Nat.zero_add, AtomicQueue.lt_pow2Size_iff h1 h2] at hiff
    exact hiff
  · intro q tr hrun hempty
    obtain ⟨hr, hmax, -, -⟩ := LockQueue.lockQueue_run hrun
    have hiff : LockQueue.PushesSucceed n _ xs ↔ _ := (hr.setEvent event).pushesSucceed_iff hevent
    rw [hempty, hxs, List.length_nil, Nat.zero_add] at hiff
    refine hiff.trans ?_
    simp [hmax]

/-- A queue for three elements has a ring of four slots. -/
theorem capacity_iff_three : ∃ s : AtomicQueue.State Nat, (AtomicQueue.atomicQueue 3).Run s [] ∧
    AtomicQueue.PushesSucceed 3 { s with queue := { s.queue with addEvent := 0 } } [1, 2, 3] := by
  have hrun : (AtomicQueue.atomicQueue 3).Run
      (⟨AtomicQueue.queueInit (fun _ => none) 3, .idle, .idle⟩ : AtomicQueue.State Nat) [] :=
    .start ⟨_, rfl⟩
  have hpow : ¬ ∃ k, 3 = 2 ^ k := by
    rintro ⟨k, hk⟩
    cases k with
    | zero => exact absurd hk (by decide)
    | succ k =>
      rw [Nat.pow_succ] at hk
      omega
  have hsucceed := (@capacity_iff Nat 3 (by decide) (by decide) 0 (by decide) [1, 2, 3] rfl).1 _ _
    hrun rfl rfl
  exact ⟨_, hrun, hsucceed.mpr ⟨hpow, by decide⟩⟩

/-- A queue for one element never accepts one. -/
theorem capacity_one_refused : ¬ ∀ n, 1 ≤ n → n ≤ 2 ^ 32 → ∀ (s : AtomicQueue.State Nat) tr,
    (AtomicQueue.atomicQueue n).Run s tr → s.producer = .idle → AtomicQueue.pending tr = [] →
    ∀ xs : List Nat, xs.length = n → AtomicQueue.PushesSucceed n s xs := by
  intro hall
  have hrun : (AtomicQueue.atomicQueue 1).Run
      (⟨AtomicQueue.queueInit (fun _ => none) 1, .idle, .idle⟩ : AtomicQueue.State Nat) [] :=
    .start ⟨_, rfl⟩
  have hinv := AtomicQueue.atomicQueue_inv (by decide) (by decide) hrun
  have hsucceed := hall 1 (by decide) (by decide) _ _ hrun rfl rfl [7] rfl
  have hsize := ((hinv.pushesSucceed_iff rfl (Nat.zero_le _)).mp hsucceed).1
  exact absurd hsize (by decide)

end Jullop
