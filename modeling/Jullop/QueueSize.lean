import Jullop.AtomicQueue
import Mathlib.Data.List.Infix

/-! `queue_size` of the lock-free queue, called by a thread that neither pushes
nor pops, as the statistics thread does. -/

namespace Jullop

namespace AtomicQueue

variable {α : Type*}

inductive SizePc
  | idle
  | loadedPush (push : Nat)

/-- What the threads do, the first load of a `queue_size` and what it returns. -/
inductive SizeObs (α : Type*)
  | queue (obs : AtomicObs α)
  | started
  | returned (size : Nat)
  deriving DecidableEq

/-- One step of `queue_size`; a call begins with its first load. -/
def queueSize (q : Queue α) : SizePc → SizePc × SizeObs α
  | .idle => (.loadedPush q.pushOffset, .started)
  | .loadedPush push =>
    let pop := q.popOffset
    (.idle, .returned (if pop ≤ push then push - pop else q.maxSize - pop + push))

structure Observed (α : Type*) where
  state : State α
  observer : SizePc

inductive ObservedThread (α : Type*)
  | queue (side : Side α)
  | observer

/-- The queue with its two threads and a third one that asks for its size. -/
def observedQueue (n : Nat) : Machine (Observed α) (ObservedThread α) (SizeObs α) where
  init s := (atomicQueue n).init s.state ∧ s.observer = .idle
  step s
    | .queue side =>
      ((atomicQueue n).step s.state side).map fun (t, obs) => (⟨t, s.observer⟩, obs.map .queue)
    | .observer =>
      let (pc, o) := queueSize s.state.queue s.observer
      some (⟨s.state, pc⟩, [o])

namespace SizeObs

def queue? : SizeObs α → Option (AtomicObs α)
  | queue obs => some obs
  | _ => none

def isPush : SizeObs α → Bool
  | queue (.call (.push _ .queueSuccess)) => true
  | _ => false

def isPop : SizeObs α → Bool
  | queue (.call (.pop (some _))) => true
  | _ => false

end SizeObs

/-- The accesses of the producer and the consumer. -/
def accesses (tr : List (SizeObs α)) : List (AtomicObs α) := tr.filterMap SizeObs.queue?

/-- The number of elements outstanding after these observations. -/
def outstandingCount (tr : List (SizeObs α)) : Nat := (pending (accesses tr)).length

/-- No element is popped after one has been pushed. -/
def PopsFirst (window : List (SizeObs α)) : Prop :=
  window.Pairwise fun o o' => ¬ (o.isPush = true ∧ o'.isPop = true)

instance (window : List (SizeObs α)) : Decidable (PopsFirst window) :=
  inferInstanceAs (Decidable (window.Pairwise _))

theorem pushed_length (tr : List (SizeObs α)) :
    (pushed (accesses tr)).length = tr.countP SizeObs.isPush := by
  rw [pushed, pushedPtrs, calls, accesses, List.filterMap_filterMap, List.filterMap_filterMap,
    List.length_filterMap_eq_countP]
  refine List.countP_congr fun o _ => ?_
  rcases o with ((⟨_, _ | _⟩ | _ | _) | _ | _) | _ | _ <;> rfl

theorem popped_length (tr : List (SizeObs α)) :
    (popped (accesses tr)).length = tr.countP SizeObs.isPop := by
  rw [popped, poppedPtrs, calls, accesses, List.filterMap_filterMap, List.filterMap_filterMap,
    List.length_filterMap_eq_countP]
  refine List.countP_congr fun o _ => ?_
  rcases o with ((_ | ⟨_ | _⟩ | _) | _ | _) | _ | _ <;> rfl

theorem queuePush_one {q q' : Queue α} {ptr : α} {pc pc' : PushPc α} {obs : List (AtomicObs α)}
    (h : queuePush q ptr pc = some (q', pc', obs)) : obs.length ≤ 1 := by
  cases pc with
  | loadedPop ptr push pop =>
    simp only [queuePush] at h
    split at h <;> cases h <;> simp
  | published =>
    simp only [queuePush, Option.map_eq_some_iff, Prod.mk.injEq] at h
    obtain ⟨event, _, -, -, rfl⟩ := h
    simp
  | _ => cases h; simp

theorem queuePop_one (q : Queue α) (pc : PopPc α) : (queuePop q pc).2.2.length ≤ 1 := by
  cases pc with
  | loadedPush pop push => simp only [queuePop]; split <;> simp
  | _ => simp [queuePop]

/-- A step is one of the queue, which the observer does not notice, or one of the
observer, which leaves the queue as it is. -/
theorem observedQueue_cases {n : Nat} {s t : Observed α} {l : ObservedThread α}
    {obs : List (SizeObs α)} (hs : (observedQueue n).step s l = some (t, obs)) :
    (∃ side t' obs', (atomicQueue n).step s.state side = some (t', obs') ∧
      t = ⟨t', s.observer⟩ ∧ obs = obs'.map .queue) ∨
    (t = ⟨s.state, (queueSize s.state.queue s.observer).1⟩ ∧
      obs = [(queueSize s.state.queue s.observer).2]) := by
  cases l with
  | queue side =>
    simp only [observedQueue, Option.map_eq_some_iff, Prod.mk.injEq, Prod.exists] at hs
    obtain ⟨t', obs', hs, rfl, rfl⟩ := hs
    exact .inl ⟨side, t', obs', hs, rfl, rfl⟩
  | observer =>
    simp only [observedQueue, Option.some.injEq, Prod.mk.injEq] at hs
    exact .inr ⟨hs.1.symm, hs.2.symm⟩

theorem observedQueue_one {n : Nat} (s : Observed α) (l : ObservedThread α) (t : Observed α)
    (obs : List (SizeObs α)) (hs : (observedQueue n).step s l = some (t, obs)) :
    obs.length ≤ 1 := by
  obtain ⟨side, t', obs', hq, -, rfl⟩ | ⟨-, rfl⟩ := observedQueue_cases hs
  · rw [List.length_map]
    obtain ⟨ptr, q, pc, hpush, -⟩ | ⟨-, rfl⟩ := atomicQueue_cases hq
    · exact queuePush_one hpush
    · exact queuePop_one _ _
  · exact Nat.le_refl 1

theorem accesses_queue (tr : List (SizeObs α)) (obs : List (AtomicObs α)) :
    accesses (tr ++ obs.map .queue) = accesses tr ++ obs := by
  rw [accesses, List.filterMap_append, List.filterMap_map]
  exact congrArg _ (List.filterMap_some)

theorem accesses_observer (tr : List (SizeObs α)) (q : Queue α) (pc : SizePc) :
    accesses (tr ++ [(queueSize q pc).2]) = accesses tr := by
  rw [accesses, List.filterMap_append]
  cases pc with
  | idle => exact List.append_nil _
  | loadedPush push => exact List.append_nil _

/-- The observer holds the offset that it loaded. -/
def ObserverOk (size : Nat) (tr : List (SizeObs α)) : SizePc → Prop
  | .idle => True
  | .loadedPush push => ∀ before window, tr = before ++ .started :: window →
      (∀ o ∈ window, o.queue? ≠ none) → push = before.countP SizeObs.isPush % size

theorem ObserverOk.queue {size : Nat} {tr : List (SizeObs α)} {pc : SizePc}
    (h : ObserverOk size tr pc) (obs : List (AtomicObs α)) :
    ObserverOk size (tr ++ obs.map .queue) pc := by
  induction obs using List.reverseRecOn with
  | nil => simpa using h
  | append_singleton obs o ih =>
    cases pc with
    | idle => trivial
    | loadedPush push =>
      intro before window he hwindow
      rw [List.map_append, List.map_singleton, ← List.append_assoc] at he
      cases window using List.reverseRecOn with
      | nil =>
        obtain ⟨-, hlast⟩ := List.append_inj' he rfl
        cases hlast
      | append_singleton window last =>
        rw [← List.cons_append, ← List.append_assoc] at he
        have hsplit := (List.append_inj' he rfl).1
        exact ih before window hsplit fun o ho => hwindow o (by simp [ho])

/-- The observer does not disturb the queue. -/
theorem observedQueue_queue {n : Nat} {s : Observed α} {tr : List (SizeObs α)}
    (h : (observedQueue n).Run s tr) : (atomicQueue n).Run s.state (accesses tr) := by
  induction h with
  | start hi => exact .start hi.1
  | next l _ hs ih =>
    obtain ⟨side, t', obs', hq, rfl, rfl⟩ | ⟨rfl, rfl⟩ := observedQueue_cases hs
    · rw [accesses_queue]
      exact ih.next side hq
    · rw [accesses_observer]
      exact ih

theorem observer_ok {n : Nat} (h1 : 1 ≤ n) (h2 : n ≤ 2 ^ 32) {s : Observed α}
    {tr : List (SizeObs α)} (h : (observedQueue n).Run s tr) :
    ObserverOk (pow2Size (BitVec.ofNat 64 n)).toNat tr s.observer := by
  induction h with
  | start hi =>
    rw [hi.2]
    trivial
  | next l hrun hs ih =>
    rename_i s t tr obs
    obtain ⟨_, _, obs', -, rfl, rfl⟩ | ⟨rfl, rfl⟩ := observedQueue_cases hs
    · exact ih.queue obs'
    · cases hpc : s.observer with
      | loadedPush push => trivial
      | idle =>
        have hinv := atomicQueue_inv h1 h2 (observedQueue_queue hrun)
        intro before window he hwindow
        change tr ++ [.started] = _ at he
        cases window using List.reverseRecOn with
        | nil =>
          obtain ⟨rfl, -⟩ := List.append_inj' he rfl
          rw [hinv.layout.push, ← hinv.pushed_length, pushed_length]
        | append_singleton window last =>
          rw [← List.cons_append, ← List.append_assoc] at he
          obtain ⟨-, hlast⟩ := List.append_inj' he rfl
          cases hlast
          exact absurd rfl (hwindow .started (by simp))

/-- The counts of every prefix of a run. -/
theorem observed_counts {n : Nat} (h1 : 1 ≤ n) (h2 : n ≤ 2 ^ 32) {s : Observed α}
    {tr : List (SizeObs α)} (h : (observedQueue n).Run s tr) :
    tr.countP SizeObs.isPush = tr.countP SizeObs.isPop + outstandingCount tr ∧
      outstandingCount tr < (pow2Size (BitVec.ofNat 64 n)).toNat := by
  have hinv := atomicQueue_inv h1 h2 (observedQueue_queue h)
  rw [← pushed_length, ← popped_length]
  exact ⟨hinv.pushed_length, hinv.layout.room⟩

/-- What a `queue_size` returns: the elements pushed at its first load less those
popped at its second, up to whole turns of the ring. -/
theorem returned_size {n : Nat} (h1 : 1 ≤ n) (h2 : n ≤ 2 ^ 32) {s : Observed α}
    {tr before window after : List (SizeObs α)} {v : Nat} (h : (observedQueue n).Run s tr)
    (he : tr = before ++ .started :: window ++ .returned v :: after)
    (hwindow : ∀ o ∈ window, o.queue? ≠ none) :
    v < (pow2Size (BitVec.ofNat 64 n)).toNat ∧
      before.countP SizeObs.isPop + window.countP SizeObs.isPop + v ≡
        before.countP SizeObs.isPush [MOD (pow2Size (BitVec.ofNat 64 n)).toNat] := by
  obtain ⟨s', l, t, hrun, hs⟩ := h.observed observedQueue_one he
  have hok := observer_ok h1 h2 hrun
  have hinv := atomicQueue_inv h1 h2 (observedQueue_queue hrun)
  have hmax := atomicQueue_maxSize (observedQueue_queue hrun)
  have hsize := Nat.zero_lt_of_lt hinv.layout.room
  have hpop := hinv.layout.pop
  rw [popped_length, List.countP_append, List.countP_cons_of_neg (by simp [SizeObs.isPop])] at hpop
  obtain ⟨_, _, obs, -, -, hobs⟩ | ⟨-, hs⟩ := observedQueue_cases hs
  · cases obs <;> simp at hobs
  · cases hpc : s'.observer with
    | idle => simp [hpc, queueSize] at hs
    | loadedPush push =>
      rw [hpc] at hok hs
      simp only [queueSize, List.cons.injEq, SizeObs.returned.injEq, and_true] at hs
      rw [hok before window rfl hwindow, hpop, hmax] at hs
      exact Ring.slot_distance hsize _ _ hs

/-- The value is the number of elements outstanding at a moment after `before`
and within the window. -/
def SizeAt (before window : List (SizeObs α)) (v : Nat) : Prop :=
  ∃ moment, moment <+: window ∧ v = outstandingCount (before ++ .started :: moment)

/-- The elements pushed before some moment of the window and those popped after it
make up whole turns of the ring. -/
def WholeTurns (size : Nat) (window : List (SizeObs α)) : Prop :=
  ∃ moment rest, window = moment ++ rest ∧
    size ∣ moment.countP SizeObs.isPush + rest.countP SizeObs.isPop

theorem PopsFirst.wholeTurns {window : List (SizeObs α)} (h : PopsFirst window) (size : Nat) :
    WholeTurns size window := by
  suffices hzero : ∃ pops pushes, window = pops ++ pushes ∧
      pops.countP SizeObs.isPush + pushes.countP SizeObs.isPop = 0 by
    obtain ⟨pops, pushes, hsplit, hnone⟩ := hzero
    exact ⟨pops, pushes, hsplit, hnone ▸ Nat.dvd_zero size⟩
  induction window with
  | nil => exact ⟨[], [], rfl, rfl⟩
  | cons o window ih =>
    obtain ⟨ho, hwindow⟩ := List.pairwise_cons.mp h
    by_cases hpush : o.isPush = true
    · refine ⟨[], o :: window, rfl, ?_⟩
      have hnot : ∀ o' ∈ window, ¬ o'.isPop = true := fun o' ho' hpop => ho o' ho' ⟨hpush, hpop⟩
      have hself : ¬ o.isPop = true := by
        rcases o with ((_ | _ | _) | _ | _) | _ | _ <;> simp_all [SizeObs.isPush, SizeObs.isPop]
      rw [List.countP_nil, Nat.zero_add, List.countP_eq_zero]
      exact List.forall_mem_cons.mpr ⟨hself, hnot⟩
    · obtain ⟨pops, pushes, rfl, hnone⟩ := ih hwindow
      exact ⟨o :: pops, pushes, rfl, by rw [List.countP_cons_of_neg hpush, hnone]⟩

/-- A window shorter than a turn. -/
theorem WholeTurns.popsFirst {size : Nat} {window : List (SizeObs α)} (h : WholeTurns size window)
    (hlt : window.countP SizeObs.isPush + window.countP SizeObs.isPop < size) :
    PopsFirst window := by
  obtain ⟨pops, pushes, rfl, hdvd⟩ := h
  rw [List.countP_append, List.countP_append] at hlt
  have hzero := Nat.eq_zero_of_dvd_of_lt hdvd (by omega)
  have hpops := List.countP_eq_zero.mp (Nat.eq_zero_of_add_eq_zero_right hzero)
  have hpushes := List.countP_eq_zero.mp (Nat.eq_zero_of_add_eq_zero_left hzero)
  have hfirst : PopsFirst pops :=
    List.pairwise_of_forall_mem_list fun o ho _ _ hboth => hpops o ho hboth.1
  have hlast : PopsFirst pushes :=
    List.pairwise_of_forall_mem_list fun _ _ o ho hboth => hpushes o ho hboth.2
  refine List.pairwise_append.mpr ⟨hfirst, hlast, ?_⟩
  intro o ho _ _ hboth
  exact hpops o ho hboth.1

theorem sizeAt_iff_wholeTurns {n : Nat} (h1 : 1 ≤ n) (h2 : n ≤ 2 ^ 32) {s : Observed α}
    {tr before window after : List (SizeObs α)} {v : Nat} (h : (observedQueue n).Run s tr)
    (he : tr = before ++ .started :: window ++ .returned v :: after)
    (hwindow : ∀ o ∈ window, o.queue? ≠ none) :
    SizeAt before window v ↔ WholeTurns (pow2Size (BitVec.ofNat 64 n)).toNat window := by
  obtain ⟨hv, hoffsets⟩ := returned_size h1 h2 h he hwindow
  -- At each moment the difference between the value and the count is the pushes
  -- before and the pops after it.
  have hmoment : ∀ moment rest, window = moment ++ rest →
      (v = outstandingCount (before ++ .started :: moment) ↔
        (pow2Size (BitVec.ofNat 64 n)).toNat ∣
          moment.countP SizeObs.isPush + rest.countP SizeObs.isPop) := by
    intro moment rest hsplit
    have hparts : tr = (before ++ .started :: moment) ++ (rest ++ .returned v :: after) := by
      simp [he, hsplit]
    obtain ⟨_, hrun⟩ := h.of_append observedQueue_one hparts
    obtain ⟨hcount, hlt⟩ := observed_counts h1 h2 hrun
    rw [List.countP_append, List.countP_append, List.countP_cons_of_neg (by simp [SizeObs.isPush]),
      List.countP_cons_of_neg (by simp [SizeObs.isPop])] at hcount
    rw [hsplit, List.countP_append] at hoffsets
    have hsum : before.countP SizeObs.isPop +
        (moment.countP SizeObs.isPop + rest.countP SizeObs.isPop) +
          outstandingCount (before ++ .started :: moment) =
        before.countP SizeObs.isPush +
          (moment.countP SizeObs.isPush + rest.countP SizeObs.isPop) := by
      omega
    rw [← Nat.left_modEq_add_iff, ← hsum]
    constructor
    · intro hv
      rw [← hv]
      exact hoffsets.symm
    · intro hsame
      exact ((hoffsets.trans hsame).add_left_cancel' _).eq_of_lt_of_lt hv hlt
  constructor
  · intro hat
    obtain ⟨moment, ⟨rest, hsplit⟩, hval⟩ := hat
    exact ⟨moment, rest, hsplit.symm, (hmoment moment rest hsplit.symm).mp hval⟩
  · intro hturns
    obtain ⟨moment, rest, hsplit, hdvd⟩ := hturns
    exact ⟨moment, ⟨rest, hsplit.symm⟩, (hmoment moment rest hsplit).mpr hdvd⟩

/-- A `queue_size` is right when what happens between its loads makes up whole turns
of the ring: always when the pops come before the pushes, and within less than a
turn only then. -/
theorem queueSize_at {n : Nat} (h1 : 2 ≤ n) (h2 : n ≤ 2 ^ 32) {s : Observed α}
    {tr before window after : List (SizeObs α)} {v : Nat} (h : (observedQueue n).Run s tr)
    (he : tr = before ++ .started :: window ++ .returned v :: after)
    (hwindow : ∀ o ∈ window, o.queue? ≠ none) :
    (SizeAt before window v ↔ WholeTurns (pow2Size (BitVec.ofNat 64 n)).toNat window) ∧
      (PopsFirst window → SizeAt before window v) ∧
      (window.countP SizeObs.isPush + window.countP SizeObs.isPop <
        (pow2Size (BitVec.ofNat 64 n)).toNat → SizeAt before window v → PopsFirst window) := by
  have hiff := sizeAt_iff_wholeTurns (by omega) h2 h he hwindow
  refine ⟨hiff, ?_, ?_⟩
  · intro hfirst
    exact hiff.mpr (hfirst.wholeTurns _)
  · intro hlt hat
    exact (hiff.mp hat).popsFirst hlt

def emptyQueue : Observed Nat := ⟨⟨queueInit (fun _ => none) 4, .idle, .idle⟩, .idle⟩

theorem emptyQueue_run {ls : List (ObservedThread Nat)} {s : Observed Nat}
    {tr : List (SizeObs Nat)} (h : (observedQueue 4).exec emptyQueue ls = some (s, tr)) :
    (observedQueue 4).Run s tr :=
  .of_exec ⟨⟨_, rfl⟩, rfl⟩ h

theorem emptyQueue_observed {ls : List (ObservedThread Nat)} {tr : List (SizeObs Nat)}
    (h : ((observedQueue 4).exec emptyQueue ls).map Prod.snd = some tr) :
    ∃ s, (observedQueue 4).exec emptyQueue ls = some (s, tr) := by
  obtain ⟨⟨s, _⟩, hs, rfl⟩ := Option.map_eq_some_iff.mp h
  exact ⟨s, hs⟩

/-- The steps of a whole call and what is seen of it. -/
def pushSteps (ptr : Nat) : List (ObservedThread Nat) := List.replicate 5 (.queue (.producer ptr))

def popSteps : List (ObservedThread Nat) := List.replicate 4 (.queue .consumer)

def pushAccesses (ptr : Nat) : List (SizeObs Nat) :=
  [.queue .loadedPop, .queue (.call (.push ptr .queueSuccess))]

def popAccesses (ptr : Nat) : List (SizeObs Nat) :=
  [.queue .loadedPush, .queue (.call (.pop (some ptr)))]

/-- One element is popped between the loads and another pushed after that: the queue
was empty in between. -/
theorem queueSize_at_zero : ∃ (s : Observed Nat) (tr : List (SizeObs Nat)),
    (observedQueue 4).Run s tr ∧
    tr = pushAccesses 7 ++ .started :: (popAccesses 7 ++ pushAccesses 8) ++ [.returned 0] ∧
    SizeAt (pushAccesses 7) (popAccesses 7 ++ pushAccesses 8) 0 := by
  obtain ⟨s, hs⟩ : ∃ s, (observedQueue 4).exec emptyQueue
      (pushSteps 7 ++ .observer :: popSteps ++ pushSteps 8 ++ [.observer]) =
      some (s, pushAccesses 7 ++ .started :: (popAccesses 7 ++ pushAccesses 8) ++ [.returned 0]) :=
    emptyQueue_observed (by decide +kernel)
  have hrun := emptyQueue_run hs
  exact ⟨s, _, hrun, rfl,
    (queueSize_at (by decide) (by decide) hrun rfl (by decide)).2.1 (by decide)⟩

/-- One element is pushed between the loads and the one before it popped after
that: the queue is never empty, and `queue_size` returns zero. -/
theorem queueSize_never_at : ¬ ∀ n, 2 ≤ n → n ≤ 2 ^ 32 → ∀ (s : Observed Nat)
    (tr before window after : List (SizeObs Nat)) (v : Nat), (observedQueue n).Run s tr →
    tr = before ++ .started :: window ++ .returned v :: after →
    (∀ o ∈ window, o.queue? ≠ none) → SizeAt before window v := by
  intro hall
  obtain ⟨s, hs⟩ : ∃ s, (observedQueue 4).exec emptyQueue
      (pushSteps 7 ++ .observer :: pushSteps 8 ++ popSteps ++ [.observer]) =
      some (s, pushAccesses 7 ++ .started :: (pushAccesses 8 ++ popAccesses 7) ++ [.returned 0]) :=
    emptyQueue_observed (by decide +kernel)
  obtain ⟨moment, hmoment, hzero⟩ := hall 4 (by decide) (by decide) s _ _ _ [] 0
    (emptyQueue_run hs) rfl (by decide)
  rw [← List.mem_inits] at hmoment
  revert moment
  decide

end AtomicQueue

end Jullop
