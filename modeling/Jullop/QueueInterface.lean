import Jullop.Machine
import Mathlib.Algebra.Group.Nat.Defs

/-! The interface of `queue.h`, which both queues implement, the event file
descriptor they signal on, and what a queue of this interface is for: a bounded
FIFO. -/

namespace Jullop

inductive QueueResult
  | queueSuccess
  | queueFailure
  deriving DecidableEq, Repr

def eventfdMax : Nat := 2 ^ 64 - 2

/-- `eventfd_write(fd, 1)` on a non-blocking descriptor; it fails rather than
pass the largest value. -/
def eventfdWrite (counter : Nat) : Option Nat :=
  if counter < eventfdMax then some (counter + 1) else none

/-- `eventfd_read` on a non-blocking descriptor: the value read and the counter
it leaves, or a failure when the counter is zero. -/
def eventfdRead (counter : Nat) : Option (Nat × Nat) :=
  if counter = 0 then none else some (counter, 0)

theorem eventfdWrite_eq_some {c d : Nat} (h : eventfdWrite c = some d) : d = c + 1 := by
  simp only [eventfdWrite, Option.ite_none_right_eq_some, Option.some.injEq] at h
  exact h.2.symm

theorem eventfdRead_eq_none {c : Nat} (h : eventfdRead c = none) : c = 0 := by
  simp only [eventfdRead] at h
  split at h
  · assumption
  · cases h

theorem eventfdRead_eq_some {c n event : Nat} (h : eventfdRead c = some (n, event)) :
    n = c ∧ event = 0 ∧ 0 < c := by
  simp only [eventfdRead] at h
  split at h
  · cases h
  · cases h
    exact ⟨rfl, rfl, by omega⟩

inductive QueueOp (α : Type*)
  | push (ptr : α)
  | pop
  | size

/-- What a caller sees of one call. A NULL pointer is `none`. -/
inductive QueueObs (α : Type*)
  | push (ptr : α) (result : QueueResult)
  | pop (result : Option α)
  | size (result : Nat)
  deriving DecidableEq, Repr

variable {α : Type*}

/-- The elements pushed and not yet popped, oldest first, as one observation
changes them. -/
def QueueObs.apply (items : List α) : QueueObs α → List α
  | .push x .queueSuccess => items ++ [x]
  | .push _ .queueFailure => items
  | .pop (some _) => items.tail
  | .pop none => items
  | .size _ => items

def outstanding (tr : List (QueueObs α)) : List α := tr.foldl QueueObs.apply []

theorem outstanding_append (tr obs : List (QueueObs α)) :
    outstanding (tr ++ obs) = obs.foldl QueueObs.apply (outstanding tr) := by
  simp [outstanding, List.foldl_append]

def successfulPushes (tr : List (QueueObs α)) : Nat :=
  tr.countP fun
    | .push _ .queueSuccess => true
    | _ => false

def pushedPtrs (tr : List (QueueObs α)) : List α :=
  tr.filterMap fun
    | .push x .queueSuccess => some x
    | _ => none

def poppedPtrs (tr : List (QueueObs α)) : List α :=
  tr.filterMap fun
    | .pop r => r
    | _ => none

def boundedFifo (maxSize : Nat) : Machine (List α) (QueueOp α) (QueueObs α) where
  init items := items = []
  step items
    | .push x =>
      if items.length = maxSize then some (items, [.push x .queueFailure])
      else some (items ++ [x], [.push x .queueSuccess])
    | .pop => some (items.tail, [.pop items.head?])
    | .size => some (items, [.size items.length])

end Jullop
