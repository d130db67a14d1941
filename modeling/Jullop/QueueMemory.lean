import Jullop.QueueCapacity

/-! The memory that `queue_init` of `srsw_queue.c` allocates for its ring, against
the slots that `queue_push` and `queue_pop` use of it. -/

namespace Jullop

namespace AtomicQueue

variable {α : Type*}

/-- `sizeof(void*)`. -/
def ptrSize : Nat := 8

/-- The number of bytes that `queue_init` requests from `posix_memalign`. -/
def ringBytes (n : Nat) : Nat := (pow2Size (BitVec.ofNat 64 n)).toNat

/-- The slot that the next step of a `queue_push` writes. -/
def PushPc.slot (mask : Nat) : PushPc α → Option Nat
  | .loadedPop _ push pop => if (push + 1) &&& mask = pop then none else some push
  | _ => none

/-- The slot that the next step of a `queue_pop` reads. -/
def PopPc.slot : PopPc α → Option Nat
  | .loadedPush pop push => if pop = push then none else some pop
  | _ => none

/-- The slots that the next step of a side accesses. -/
def State.slots (s : State α) : Side α → List Nat
  | .producer _ => (s.producer.slot s.queue.mask).toList
  | .consumer => s.consumer.slot.toList

/-- The queue with a note of every slot that is written or read. -/
def ringAccesses (n : Nat) : Machine (State α) (Side α) (AtomicObs α ⊕ Nat) :=
  (atomicQueue n).record State.slots

/-- The slot lies in the requested bytes. -/
def InBounds (n i : Nat) : Prop := (i + 1) * ptrSize ≤ ringBytes n

/-- A push that has written its slot and not yet published it. -/
def PushPc.unpublished : PushPc α → Nat
  | .written _ _ => 1
  | _ => 0

/-- How many pushes have got past the full check. -/
def passed (s : State α) (tr : List (AtomicObs α)) : Nat :=
  (pushed tr).length + s.producer.unpublished

variable {n size : Nat} {s : State α} {tr : List (AtomicObs α)}

/-- A step of the producer writes the slot of the next position, or none. -/
theorem Inv.producer_accesses (h : Inv size s tr) {ptr : α} {q : Queue α} {pc : PushPc α}
    {obs : List (AtomicObs α)} (hs : queuePush s.queue ptr s.producer = some (q, pc, obs)) :
    s.slots (.producer ptr) = [] ∧ passed ⟨q, pc, s.consumer⟩ (tr ++ obs) = passed s tr ∨
    s.slots (.producer ptr) = [passed s tr % size] ∧ 2 ≤ size ∧
      passed ⟨q, pc, s.consumer⟩ (tr ++ obs) = passed s tr + 1 := by
  cases hp : s.producer with
  | idle =>
    rw [hp] at hs
    cases hs
    simp [State.slots, passed, hp, PushPc.slot, PushPc.unpublished]
  | loadedPush x push =>
    rw [hp] at hs
    cases hs
    simp [State.slots, passed, hp, PushPc.slot, PushPc.unpublished]
  | loadedPop x push pop =>
    have hok := h.producer
    rw [hp] at hs hok
    obtain ⟨rfl, m, c, -, hm, hcm, -, rfl⟩ := hok
    have hfull := stale_pop hcm hm
    rw [← h.layout.wraps] at hfull
    simp only [queuePush] at hs
    split at hs
    · rename_i hpop
      cases hs
      left
      simp [State.slots, passed, hp, PushPc.slot, PushPc.unpublished, hpop, pushedPtrs]
    · rename_i hpop
      cases hs
      have htwo : 2 ≤ size := by
        rw [hfull] at hpop
        omega
      right
      simp [State.slots, passed, hp, PushPc.slot, PushPc.unpublished, hpop, htwo]
  | written x push =>
    rw [hp] at hs
    cases hs
    simp [State.slots, passed, hp, PushPc.slot, PushPc.unpublished, pushedPtrs]
  | published =>
    rw [hp] at hs
    simp only [queuePush, Option.map_eq_some_iff, Prod.mk.injEq] at hs
    obtain ⟨event, -, rfl, rfl, rfl⟩ := hs
    simp [State.slots, passed, hp, PushPc.slot, PushPc.unpublished]

/-- A step of the consumer reads the slot of a position that was pushed, or none. -/
theorem Inv.consumer_accesses (h : Inv size s tr) {i : Nat} (hi : i ∈ s.slots .consumer) :
    ∃ j < passed s tr, j % size = i := by
  have hlen := h.pushed_length
  have hroom := h.layout.room
  cases hc : s.consumer with
  | loadedPush pop push =>
    have hok := h.consumer
    rw [hc] at hok
    obtain ⟨rfl, m, -, hm, rfl⟩ := hok
    simp only [State.slots, hc, PopPc.slot, Option.mem_toList, Option.ite_none_left_eq_some,
      Option.some.injEq] at hi
    obtain ⟨hne, rfl⟩ := hi
    rw [stale_push (by omega)] at hne
    refine ⟨(popped tr).length, ?_, rfl⟩
    rw [passed]
    omega
  | _ => simp [State.slots, hc, PopPc.slot] at hi

theorem passed_consumer :
    passed ⟨(queuePop s.queue s.consumer).1, s.producer, (queuePop s.queue s.consumer).2.1⟩
      (tr ++ (queuePop s.queue s.consumer).2.2) = passed s tr := by
  cases hc : s.consumer with
  | loadedPush pop push =>
    simp only [queuePop]
    split <;> simp [passed, pushedPtrs]
  | _ => simp [passed, queuePop, pushedPtrs]

/-- The slots accessed so far are those of the positions passed so far. -/
structure Accessed (size : Nat) (s : State α) (tr : List (AtomicObs α ⊕ Nat)) : Prop where
  inv : Inv size s (Machine.shown tr)
  positions : ∀ i, i ∈ Machine.noted tr ↔ ∃ j < passed s (Machine.shown tr), j % size = i
  used : 0 < passed s (Machine.shown tr) → 2 ≤ size

theorem Accessed.step {t : State α} {l : Side α} {tr obs : List (AtomicObs α ⊕ Nat)}
    (h : Accessed size s tr) (hs : (ringAccesses n).step s l = some (t, obs)) :
    Accessed size t (tr ++ obs) := by
  obtain ⟨obs, hstep, rfl⟩ := Machine.record_step.mp hs
  have hinv := h.inv.step hstep
  obtain ⟨hbefore, hpositions, hused⟩ := h
  rw [← Machine.shown_append tr obs (s.slots l)] at hinv
  cases l with
  | producer ptr =>
    simp only [atomicQueue, Option.map_eq_some_iff, Prod.mk.injEq, Prod.exists] at hstep
    obtain ⟨q, pc, _, hpush, rfl, rfl⟩ := hstep
    obtain ⟨hnone, hpassed⟩ | ⟨hone, htwo, hpassed⟩ := hbefore.producer_accesses hpush
    · refine ⟨hinv, ?_, ?_⟩
      · intro i
        rw [Machine.shown_append, Machine.noted_append, hnone, hpassed, List.append_nil, hpositions]
      · rwa [Machine.shown_append, hpassed]
    · refine ⟨hinv, ?_, fun _ => htwo⟩
      intro i
      rw [Machine.shown_append, Machine.noted_append, hone, hpassed, List.mem_append, hpositions,
        List.mem_singleton]
      constructor
      · rintro (⟨j, hj, rfl⟩ | rfl)
        · exact ⟨j, by omega, rfl⟩
        · exact ⟨_, Nat.lt_succ_self _, rfl⟩
      · rintro ⟨j, hj, rfl⟩
        by_cases hlast : j = passed s (Machine.shown tr)
        · exact .inr (by rw [hlast])
        · exact .inl ⟨j, by omega, rfl⟩
  | consumer =>
    simp only [atomicQueue, Option.some.injEq, Prod.mk.injEq] at hstep
    obtain ⟨rfl, rfl⟩ := hstep
    refine ⟨hinv, ?_, ?_⟩
    · intro i
      rw [Machine.shown_append, Machine.noted_append, passed_consumer, List.mem_append, hpositions]
      exact ⟨fun hi => hi.elim id hbefore.consumer_accesses, .inl⟩
    · rwa [Machine.shown_append, passed_consumer]

theorem ringAccesses_accessed (h1 : 1 ≤ n) (h2 : n ≤ 2 ^ 32)
    {tr : List (AtomicObs α ⊕ Nat)} (h : (ringAccesses n).Run s tr) :
    Accessed (ringBytes n) s tr := by
  refine Machine.Run.invariant (Accessed (ringBytes n)) ?_ (fun _ _ _ _ _ hi hs => hi.step hs) h
  rintro s ⟨heap, rfl⟩
  have hinv := atomicQueue_inv h1 h2 (.start ⟨heap, rfl⟩)
  exact ⟨hinv, fun i => by simp [Machine.noted, Machine.shown, passed, pushed, calls, pushedPtrs,
    PushPc.unpublished], fun hpos => absurd hpos (Nat.lt_irrefl 0)⟩

/-- The positions in bounds are the first ones, so a run stays in bounds as long as it
has not passed them. -/
theorem Accessed.inBounds_iff {tr : List (AtomicObs α ⊕ Nat)} (h : Accessed (ringBytes n) s tr)
    (hpos : 0 < ringBytes n) :
    (∀ i ∈ Machine.noted tr, InBounds n i) ↔
      passed s (Machine.shown tr) ≤ ringBytes n / ptrSize := by
  have hfits : ringBytes n / ptrSize < ringBytes n := Nat.div_lt_self hpos (by decide)
  constructor
  · intro hall
    by_contra hmore
    have hlast := hall (ringBytes n / ptrSize)
      ((h.positions _).mpr ⟨_, by omega, Nat.mod_eq_of_lt hfits⟩)
    rw [InBounds, ptrSize] at hlast
    omega
  · intro hfew i hi
    obtain ⟨j, hj, rfl⟩ := (h.positions i).mp hi
    have hle := Nat.mod_le j (ringBytes n)
    rw [ptrSize] at hfew
    rw [InBounds, ptrSize]
    omega

/-- As many elements as the ring takes can be pushed one after the other. -/
theorem exists_passed (h1 : 1 ≤ n) (h2 : n ≤ 2 ^ 32) (xs : List α)
    (hxs : xs.length < ringBytes n) : ∃ (s : State α) (tr : List (AtomicObs α ⊕ Nat)),
      (ringAccesses n).Run s tr ∧ xs.length ≤ passed s (Machine.shown tr) := by
  have hbound : ringBytes n ≤ 2 ^ 32 := by
    obtain ⟨k, hk, -, hle⟩ := pow2Size_toNat h1 h2
    rw [ringBytes, hk]
    exact Nat.pow_le_pow_right (by omega) hle
  have hstart : (atomicQueue n).Run
      (⟨queueInit (fun _ => none) n, .idle, .idle⟩ : State α) [] := .start ⟨_, rfl⟩
  have hsucceed : PushesSucceed n _ xs :=
    ((atomicQueue_inv h1 h2 hstart).pushesSucceed_iff rfl (Nat.zero_le _)).mpr
      ⟨by rw [ringBytes] at hxs; simpa [pending, calls, outstanding] using hxs, by
        simp only [queueInit, eventfdMax]; omega⟩
  obtain ⟨t, tr, hexec, hcalls⟩ := hsucceed
  obtain ⟨tr', hrun, rfl⟩ := (hstart.exec hexec).record State.slots
  refine ⟨t, tr', hrun, ?_⟩
  have hpushed : pushed (Machine.shown tr') = xs := by
    rw [pushed, hcalls, pushedPtrs, List.filterMap_map]
    exact List.filterMap_some
  rw [passed, hpushed]
  exact Nat.le_add_right _ _

/-- The requested bytes are too few by the size of a pointer: they are enough for
a queue of one slot, which is never used, and else for as many pushes as pointers fit
in them. -/
theorem slots_in_bounds_iff [Inhabited α] {n : Nat} (h1 : 1 ≤ n) (h2 : n ≤ 2 ^ 32) :
    ((∀ (s : State α) tr, (ringAccesses n).Run s tr → ∀ i ∈ Machine.noted tr, InBounds n i) ↔
      n = 1) ∧
    ∀ (s : State α) tr, (ringAccesses n).Run s tr →
      ((∀ i ∈ Machine.noted tr, InBounds n i) ↔
        passed s (Machine.shown tr) ≤ ringBytes n / ptrSize) := by
  obtain ⟨k, hk, hle, -⟩ := pow2Size_toNat h1 h2
  have hsize : n ≤ ringBytes n := by
    rw [ringBytes, hk]
    exact hle
  have hrun : ∀ (s : State α) tr, (ringAccesses n).Run s tr →
      ((∀ i ∈ Machine.noted tr, InBounds n i) ↔
        passed s (Machine.shown tr) ≤ ringBytes n / ptrSize) :=
    fun s tr h => (ringAccesses_accessed h1 h2 h).inBounds_iff (by omega)
  refine ⟨⟨?_, ?_⟩, hrun⟩
  · intro hall
    by_contra hn
    obtain ⟨s, tr, hpassed, hmany⟩ := exists_passed h1 h2
      (List.replicate (ringBytes n / ptrSize + 1) (default : α)) (by
        rw [List.length_replicate, ptrSize]
        omega)
    have hfew := (hrun s tr hpassed).mp (hall s tr hpassed)
    rw [List.length_replicate] at hmany
    omega
  · rintro rfl s tr h i hi
    have hone : ringBytes 1 = 1 := by decide
    have hacc := ringAccesses_accessed h1 h2 h
    obtain ⟨j, hj, -⟩ := (hacc.positions i).mp hi
    have htwo := hacc.used (by omega)
    omega

def pushesOf (n : Nat) (xs : List Nat) : Option (State Nat × List (AtomicObs Nat ⊕ Nat)) :=
  (ringAccesses n).exec ⟨queueInit (fun _ => none) n, .idle, .idle⟩
    (xs.flatMap fun ptr => List.replicate 5 (.producer ptr))

/-- On a queue for sixteen elements two pushes stay within the requested bytes. -/
theorem slots_in_bounds_iff_sixteen : ∃ (s : State Nat) (tr : List (AtomicObs Nat ⊕ Nat)),
    (ringAccesses 16).Run s tr ∧ passed s (Machine.shown tr) = 2 ∧ Machine.noted tr = [0, 1] ∧
      ∀ i ∈ Machine.noted tr, InBounds 16 i := by
  have hexec : (pushesOf 16 [7, 8]).any (fun x =>
      passed x.1 (Machine.shown x.2) = 2 ∧ Machine.noted x.2 = [0, 1]) = true := by
    decide +kernel
  obtain ⟨⟨s, tr⟩, hs, htr⟩ := (Option.any_eq_true _ _).mp hexec
  obtain ⟨hpassed, hnoted⟩ := of_decide_eq_true htr
  have hrun : (ringAccesses 16).Run s tr := .of_exec ⟨_, rfl⟩ hs
  have hfew : passed s (Machine.shown tr) ≤ ringBytes 16 / ptrSize := by
    rw [hpassed]
    decide
  exact ⟨s, tr, hrun, hpassed, hnoted,
    ((slots_in_bounds_iff (by decide) (by decide)).2 s tr hrun).mpr hfew⟩

/-- On a queue for sixteen elements the third push writes past the requested
bytes. -/
theorem slots_out_of_bounds : ¬ ∀ n, 1 ≤ n → n ≤ 2 ^ 32 →
    ∀ (s : State Nat) (tr : List (AtomicObs Nat ⊕ Nat)), (ringAccesses n).Run s tr →
      ∀ i ∈ Machine.noted tr, InBounds n i := by
  intro hall
  have hexec : (pushesOf 16 [7, 8, 9]).any (fun x => 2 ∈ Machine.noted x.2) = true := by
    decide +kernel
  obtain ⟨⟨s, tr⟩, hs, htr⟩ := (Option.any_eq_true _ _).mp hexec
  have hrun : (ringAccesses 16).Run s tr := .of_exec ⟨_, rfl⟩ hs
  have hthird : (2 + 1) * ptrSize ≤ ringBytes 16 :=
    hall 16 (by decide) (by decide) s tr hrun 2 (of_decide_eq_true htr)
  exact absurd hthird (by decide)

end AtomicQueue

end Jullop
