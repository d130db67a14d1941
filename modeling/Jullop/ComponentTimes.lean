import Jullop.RequestTimes
import Mathlib.Algebra.Ring.Nat

/-! The times of the components of a request against its total time, for calls that
come in the order of `client.c` and `actor.c`: no two components run at once, and all
of them run within the total time. -/

namespace Jullop

def components : List TimeType := [.clientReadTime, .queueTime, .actorTime, .clientWriteTime]

/-- One interval of a component. -/
structure Span where
  type : TimeType
  start : Timespec
  stop : Timespec
  ne_total : type ≠ .totalTime

def Span.calls (p : Span) : List TimeCall := [.start p.type p.start, .stop p.type p.stop]

/-- The calls for a request when only its total time runs. -/
inductive TotalOnly : List TimeCall → Prop
  | begun (now : Timespec) : TotalOnly [.start .totalTime now]
  | span {calls : List TimeCall} (h : TotalOnly calls) (p : Span) : TotalOnly (calls ++ p.calls)

inductive InQueue : List TimeCall → Prop
  | intro {calls : List TimeCall} (h : TotalOnly calls) (now : Timespec) :
      InQueue (calls ++ [.start .queueTime now])

inductive Finished : List TimeCall → Prop
  | intro {calls : List TimeCall} (h : TotalOnly calls) (now : Timespec) :
      Finished (calls ++ [.stop .totalTime now])

theorem unpaired_snoc (is : List (Timespec × Timespec)) (a b : Timespec) :
    unpaired (is ++ [(a, b)]) = unpaired is ++ [a, b] := by
  simp [unpaired]

theorem readings_span (t : TimeType) (calls : List TimeCall) (p : Span) :
    readings t (calls ++ p.calls) =
      readings t calls ++ if p.type = t then [p.start, p.stop] else [] := by
  have hsplit : calls ++ p.calls = (calls ++ [.start p.type p.start]) ++ [.stop p.type p.stop] := by
    simp [Span.calls]
  rw [hsplit, readings_snoc, readings_snoc]
  by_cases h : p.type = t <;> simp [TimeCall.type, TimeCall.now, h]

/-- The starts of `t` all have their ends. -/
def Ended (t : TimeType) (calls : List TimeCall) : Prop :=
  readings t calls = unpaired (intervals t calls)

variable {t : TimeType} {calls : List TimeCall}

theorem Ended.of_readings {is : List (Timespec × Timespec)} (h : readings t calls = unpaired is) :
    Ended t calls ∧ intervals t calls = is := by
  have his : intervals t calls = is := by
    rw [intervals, h]
    simpa using paired_unpaired is none
  exact ⟨by rw [Ended, his, h], his⟩

theorem Ended.span (h : Ended t calls) (p : Span) :
    Ended t (calls ++ p.calls) ∧ intervals t (calls ++ p.calls) =
      intervals t calls ++ if p.type = t then [(p.start, p.stop)] else [] := by
  refine Ended.of_readings ?_
  rw [readings_span, h]
  by_cases htype : p.type = t
  · simp [htype, unpaired_snoc]
  · simp [htype]

theorem TotalOnly.ended (h : TotalOnly calls) (ht : t ≠ .totalTime) : Ended t calls := by
  induction h with
  | begun now =>
    have hnone : readings t [.start .totalTime now] = unpaired [] := by
      simp [readings, TimeCall.type, Ne.symm ht, unpaired]
    exact (Ended.of_readings hnone).1
  | span h p ih => exact (ih.span p).1

/-- A sum over the components, of which exactly one is that of the span. -/
theorem sum_components {f g : TimeType → Int} (p : Span) (x : Int)
    (h : ∀ t, t ≠ .totalTime → g t = f t + if p.type = t then x else 0) :
    (components.map g).sum = (components.map f).sum + x := by
  obtain ⟨type, a, b, hne⟩ := p
  have hread := h .clientReadTime (by decide)
  have hqueue := h .queueTime (by decide)
  have hactor := h .actorTime (by decide)
  have hwrite := h .clientWriteTime (by decide)
  simp only [components, List.map_cons, List.map_nil, List.sum_cons, List.sum_nil, hread, hqueue,
    hactor, hwrite]
  cases type with
  | totalTime => exact absurd rfl hne
  | clientReadTime | clientWriteTime | actorTime | queueTime =>
    simp
    omega

/-- The components have taken no longer than the total time has run. -/
theorem TotalOnly.elapsed_le (h : TotalOnly calls) (hclock : Ordered calls) :
    ∃ now last, readings .totalTime calls = [now] ∧ last ∈ calls.map TimeCall.now ∧
      (components.map fun t => elapsed (intervals t calls)).sum ≤ last.nanos - now.nanos := by
  induction h with
  | begun now =>
    refine ⟨now, now, by simp [readings, TimeCall.type, TimeCall.now], by simp [TimeCall.now], ?_⟩
    simp [components, intervals, readings, paired, TimeCall.type, elapsed]
  | span h p ih =>
    rename_i calls
    have hsplit := List.pairwise_append.mp hclock
    obtain ⟨now, last, hnow, hlast, hle⟩ := ih hsplit.1
    refine ⟨now, p.stop, ?_, ?_, ?_⟩
    · simp [readings_span, hnow, p.ne_total]
    · simp [Span.calls, TimeCall.now]
    · have hsum := sum_components (f := fun t => elapsed (intervals t calls))
        (g := fun t => elapsed (intervals t (calls ++ p.calls))) p (p.stop.nanos - p.start.nanos) (by
          intro t ht
          simp only [((h.ended ht).span p).2]
          by_cases htype : p.type = t <;> simp [htype, elapsed])
      obtain ⟨call, hcall, hcallnow⟩ := List.mem_map.mp hlast
      have hstart : last.nanos ≤ p.start.nanos := by
        rw [← hcallnow]
        exact hsplit.2.2 call hcall (.start p.type p.start) (by simp [Span.calls])
      omega

theorem Finished.intervals_total (h : Finished calls) (hclock : Ordered calls) :
    ∃ a b, intervals .totalTime calls = [(a, b)] ∧
      (components.map fun t => elapsed (intervals t calls)).sum ≤ b.nanos - a.nanos := by
  obtain @⟨calls, h, now⟩ := h
  have hsplit := List.pairwise_append.mp hclock
  obtain ⟨a, last, ha, hlast, hle⟩ := h.elapsed_le hsplit.1
  have hsame : ∀ t, t ≠ .totalTime →
      intervals t (calls ++ [.stop .totalTime now]) = intervals t calls := by
    intro t ht
    rw [intervals, readings_snoc, intervals]
    simp [TimeCall.type, Ne.symm ht]
  refine ⟨a, now, ?_, ?_⟩
  · rw [intervals, readings_snoc, ha]
    simp [TimeCall.type, TimeCall.now, paired]
  · obtain ⟨call, hcall, hcallnow⟩ := List.mem_map.mp hlast
    have hstop : last.nanos ≤ now.nanos := by
      rw [← hcallnow]
      exact hsplit.2.2 call hcall (.stop .totalTime now) (by simp)
    have hsum : (components.map fun t => elapsed (intervals t (calls ++ [.stop .totalTime now]))) =
        components.map fun t => elapsed (intervals t calls) := by
      simp [components, hsame]
    rw [hsum]
    omega

/-- The rounding adds less than a microsecond for each component that is measured,
and takes less than one from the total time. -/
theorem Finished.components_le (h : Finished calls) (hclock : Ordered calls) :
    (components.map fun t => micros (intervals t calls)).sum ≤ micros (intervals .totalTime calls) +
      ((components.map fun t => (intervals t calls).length).sum : Nat) := by
  obtain ⟨a, b, htotal, hle⟩ := h.intervals_total hclock
  have hlow := (getTimeDelta_bounds a b).1
  have hmicros : micros [(a, b)] = getTimeDelta a b := by simp [micros]
  have hread := (micros_bounds (intervals .clientReadTime calls)).2
  have hqueue := (micros_bounds (intervals .queueTime calls)).2
  have hactor := (micros_bounds (intervals .actorTime calls)).2
  have hwrite := (micros_bounds (intervals .clientWriteTime calls)).2
  simp only [components, List.map_cons, List.map_nil, List.sum_cons, List.sum_nil] at hle ⊢
  rw [htotal, hmicros]
  push_cast
  omega

end Jullop
