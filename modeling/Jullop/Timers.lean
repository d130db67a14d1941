import Jullop.Connection

/-! The times that are started at each stage of a connection, over all that can
happen to it: which of the five bits of `is_time_set` are set. -/

namespace Jullop

namespace RequestContext

variable {c c' : RequestContext} {type : TimeType} {now : Timespec} {clock : Nat → Timespec}
  {h : Halt}

def bits (c : RequestContext) : BitVec 8 := c.timeStats.isTimeSet

theorem recordStart_bits (hc : c.recordStart type now = .ok c') : c'.bits = c.bits ||| type.bit := by
  simp only [recordStart, perRequestRecordStart, Outcome.bind_eq_ok, Outcome.check_eq_ok,
    Outcome.pure_eq, Outcome.ok.injEq] at hc
  obtain ⟨stats, hstats, rfl⟩ := hc
  split at hstats
  · cases hstats
  · cases hstats
    rfl

theorem recordEnd_bits (hc : c.recordEnd type now = .ok c') :
    c'.bits = c.bits &&& ~~~ type.bit := by
  simp only [recordEnd, perRequestRecordEnd, Outcome.bind_eq_ok, Outcome.check_eq_ok,
    Outcome.pure_eq, Outcome.ok.injEq] at hc
  obtain ⟨stats, hstats, rfl⟩ := hc
  split at hstats
  · cases hstats
    rfl
  · cases hstats

theorem recordStart_ne_halt (hbit : c.bits &&& type.bit = 0) : c.recordStart type now ≠ .halt h := by
  have hset : perRequestIsTimeSet c.timeStats type = false := decide_eq_false (not_not_intro hbit)
  simp [recordStart, perRequestRecordStart, hset]

theorem recordEnd_ne_halt (hbit : c.bits &&& type.bit ≠ 0) : c.recordEnd type now ≠ .halt h := by
  have hset : perRequestIsTimeSet c.timeStats type = true := decide_eq_true hbit
  simp [recordEnd, perRequestRecordEnd, hset]

end RequestContext

/-- The bits of the times that run at a stage: the total time, and the time in the
queue until the actor has taken the request up. -/
def Stage.bits : Stage → BitVec 8
  | .queued _ | .held _ => TimeType.totalTime.bit ||| TimeType.queueTime.bit
  | _ => TimeType.totalTime.bit

namespace RequestContext

variable {c c' : RequestContext} {clock : Nat → Timespec} {h : Halt}

theorem accept_bits {fd epollInfo : Nat} {inputHeap outputHeap : Nat → UInt8}
    (hc : accept fd inputHeap outputHeap epollInfo clock = .ok c) :
    c.bits = TimeType.totalTime.bit := by
  have hinit : (initRequestContext fd inputHeap outputHeap epollInfo).bits = 0 := rfl
  rw [recordStart_bits hc, hinit]
  rfl

theorem accept_ne_halt {fd epollInfo : Nat} {inputHeap outputHeap : Nat → UInt8} :
    accept fd inputHeap outputHeap epollInfo clock ≠ .halt h := by
  have hinit : (initRequestContext fd inputHeap outputHeap epollInfo).bits = 0 := rfl
  exact recordStart_ne_halt (by rw [hinit]; rfl)

section Total

variable (hb : c.bits = TimeType.totalTime.bit)

include hb

theorem read_bits {rs : List ReadResult} {st : ReadState} (hc : c.read rs clock = .ok (st, c')) :
    c'.bits = TimeType.totalTime.bit := by
  simp only [read, Outcome.bind_eq_ok, Outcome.enabled_eq_ok, Outcome.pure_eq, Outcome.ok.injEq,
    Prod.mk.injEq, Prod.exists] at hc
  obtain ⟨c0, h0, st', c1, h1, c2, h2, rfl, rfl⟩ := hc
  have hparse : c1.bits = c0.bits := congrArg PerRequestStats.isTimeSet (tryParse_timeStats h1)
  rw [recordEnd_bits h2, hparse, recordStart_bits h0, hb]
  rfl

theorem read_ne_halt {rs : List ReadResult} : c.read rs clock ≠ .halt h := by
  intro hc
  simp only [read, Outcome.bind_eq_halt, Outcome.enabled_ne_halt, Outcome.enabled_eq_ok,
    Outcome.pure_eq, reduceCtorEq, and_false, exists_false, or_false, false_or] at hc
  rcases hc with hc | ⟨c0, h0, ⟨st, c1⟩, h1, hc⟩
  · exact recordStart_ne_halt (by rw [hb]; rfl) hc
  · have hparse : c1.bits = c0.bits := congrArg PerRequestStats.isTimeSet (tryParse_timeStats h1)
    exact recordEnd_ne_halt (by rw [hparse, recordStart_bits h0, hb]; decide) hc

theorem write_bits {ws : List WriteResult} {st : WriteState} {bytes : List UInt8}
    (hc : c.write ws clock = .ok (st, bytes, c')) : c'.bits = TimeType.totalTime.bit := by
  simp only [write, Outcome.bind_eq_ok, Outcome.enabled_eq_ok, Outcome.pure_eq, Outcome.ok.injEq,
    Prod.mk.injEq, Prod.exists] at hc
  obtain ⟨c0, h0, st', bytes', buffer, h1, c2, h2, rfl, rfl, rfl⟩ := hc
  have hwrote : ({ c0 with outputBuffer := buffer } : RequestContext).bits = c0.bits := rfl
  rw [recordEnd_bits h2, hwrote, recordStart_bits h0, hb]
  rfl

theorem write_ne_halt {ws : List WriteResult} : c.write ws clock ≠ .halt h := by
  intro hc
  simp only [write, Outcome.bind_eq_halt, Outcome.enabled_ne_halt, Outcome.enabled_eq_ok,
    Outcome.pure_eq, reduceCtorEq, and_false, exists_false, or_false, false_or] at hc
  rcases hc with hc | ⟨c0, h0, ⟨st, bytes, buffer⟩, h1, hc⟩
  · exact recordStart_ne_halt (by rw [hb]; rfl) hc
  · have hwrote : ({ c0 with outputBuffer := buffer } : RequestContext).bits = c0.bits := rfl
    exact recordEnd_ne_halt (by rw [hwrote, recordStart_bits h0, hb]; decide) hc

/-- What `server_stats_record_request` is given. -/
theorem final_bits {now : Timespec} (hc : c.recordEnd .totalTime now = .ok c') : c'.bits = 0 := by
  rw [recordEnd_bits hc, hb]
  rfl

theorem final_ne_halt {now : Timespec} : c.recordEnd .totalTime now ≠ .halt h :=
  recordEnd_ne_halt (by rw [hb]; decide)

theorem queue_bits {now : Timespec} (hc : c.recordStart .queueTime now = .ok c') :
    c'.bits = TimeType.totalTime.bit ||| TimeType.queueTime.bit := by
  rw [recordStart_bits hc, hb]

theorem queue_ne_halt {now : Timespec} : c.recordStart .queueTime now ≠ .halt h :=
  recordStart_ne_halt (by rw [hb]; rfl)

end Total

section Queued

variable (hb : c.bits = TimeType.totalTime.bit ||| TimeType.queueTime.bit)

include hb

theorem process_bits (hc : c.process clock = .ok c') : c'.bits = TimeType.totalTime.bit := by
  simp only [process, Outcome.bind_eq_ok, Outcome.check_eq_ok] at hc
  obtain ⟨c0, h0, c1, h1, c2, h2, h3⟩ := hc
  have hhandle : c2.bits = c1.bits := by
    obtain ⟨-, buffer, -, rfl⟩ := handleRequest_eq_some.mp h2
    rfl
  rw [recordEnd_bits h3, hhandle, recordStart_bits h1, recordEnd_bits h0, hb]
  rfl

theorem process_halt (hc : c.process clock = .halt h) : h = .responseCheck := by
  simp only [process, Outcome.bind_eq_halt, Outcome.check_eq_halt, Outcome.check_eq_ok] at hc
  rcases hc with hc | ⟨c0, h0, hc | ⟨c1, h1, hc | ⟨c2, h2, hc⟩⟩⟩
  · exact absurd hc (recordEnd_ne_halt (by rw [hb]; decide))
  · exact absurd hc (recordStart_ne_halt (by rw [recordEnd_bits h0, hb]; rfl))
  · exact hc.2.symm
  · have hhandle : c2.bits = c1.bits := by
      obtain ⟨-, buffer, -, rfl⟩ := handleRequest_eq_some.mp h2
      rfl
    refine absurd hc (recordEnd_ne_halt ?_)
    rw [hhandle, recordStart_bits h1, recordEnd_bits h0, hb]
    decide

end Queued

end RequestContext

namespace Connection

/-- The bits of a connection are those of its stage. -/
def Timed : Connection → Prop
  | .live st c => c.bits = st.bits
  | _ => True

variable {r : Nat} {x y : Connection} {obs : List Obs}

theorem Timed.step {act : ConnectionAct} (h : x.Timed) (hs : x.step r act = .ok (y, obs)) :
    y.Timed := by
  cases step_cases hs with
  | accept hc => exact RequestContext.accept_bits hc
  | parse hc => exact RequestContext.read_bits h hc
  | read hc => exact RequestContext.read_bits h hc
  | delete | pop | register => exact h
  | push hc => exact RequestContext.queue_bits h hc
  | handle hc => exact RequestContext.process_bits h hc
  | write hc => exact RequestContext.write_bits h hc
  | @reset _ _ d _ _ _ _ _ _ _ _ hstart =>
    have hclear : (contextFinalizeReset d).bits = 0 := rfl
    rw [Timed, RequestContext.recordStart_bits hstart, hclear]
    rfl
  | readFail | writeClose | writeFail => trivial

end Connection

def AllTimed (k : Nat → Connection) : Prop := ∀ r, (k r).Timed

theorem AllTimed.live {k : Nat → Connection} {r : Nat} {st : Stage} {c : RequestContext}
    (h : AllTimed k) (hk : k r = .live st c) : c.bits = st.bits := by
  have hr := h r
  rwa [hk] at hr

theorem AllTimed.update {k : Nat → Connection} {x : Connection} (h : AllTimed k) (r : Nat)
    (hx : x.Timed) : AllTimed (Function.update k r x) := by
  intro r'
  by_cases hr : r' = r
  · subst hr
    rw [Function.update_self]
    exact hx
  · rw [Function.update_of_ne hr]
    exact h r'

end Jullop
