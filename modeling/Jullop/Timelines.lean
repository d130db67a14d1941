import Jullop.ComponentTimes
import Jullop.Recordings

/-! What the calls for the times of a request leave in its context is what its times
are, and at the end of the request they are in the order in which the components fit
into the total time. -/

namespace Jullop

/-- The calls for the context `r` since its times were cleared. -/
def callsOf (r : Nat) (log : List (Nat × TimerEntry)) : List TimeCall :=
  log.foldl (fun calls entry => if entry.1 = r then entry.2.apply calls else calls) []

theorem callsOf_append (r : Nat) (log entries : List (Nat × TimerEntry)) :
    callsOf r (log ++ entries) =
      entries.foldl (fun calls entry => if entry.1 = r then entry.2.apply calls else calls)
        (callsOf r log) := by
  rw [callsOf, List.foldl_append, callsOf]

theorem callsOf_other {r r' : Nat} {log entries : List (Nat × TimerEntry)}
    (h : ∀ entry ∈ entries, entry.1 = r) (hr : r' ≠ r) :
    callsOf r' (log ++ entries) = callsOf r' log := by
  rw [callsOf_append]
  induction entries with
  | nil => rfl
  | cons entry entries ih =>
    have hentry : entry.1 ≠ r' := by
      rw [h entry (by simp)]
      exact Ne.symm hr
    rw [List.foldl_cons, if_neg hentry]
    exact ih fun entry' hentry' => h entry' (by simp [hentry'])

/-- The times of a context are what its calls have made of them, and the calls are in
the order that goes with the times that run. -/
structure Timeline (c : RequestContext) (calls : List TimeCall) : Prop where
  replay_eq : replay calls = some c.timeStats
  totalOnly : c.bits = TimeType.totalTime.bit → TotalOnly calls
  inQueue : c.bits = TimeType.totalTime.bit ||| TimeType.queueTime.bit → InQueue calls

section

variable {c c' : RequestContext} {calls : List TimeCall} {type : TimeType} {now : Timespec}
  {clock : Nat → Timespec}

theorem replay_start (h : replay calls = some c.timeStats) (hc : c.recordStart type now = .ok c') :
    replay (calls ++ [.start type now]) = some c'.timeStats := by
  simp only [RequestContext.recordStart, Outcome.bind_eq_ok, Outcome.check_eq_ok, Outcome.pure_eq,
    Outcome.ok.injEq] at hc
  obtain ⟨stats, hstats, rfl⟩ := hc
  rw [replay_snoc, h]
  exact hstats

theorem replay_stop (h : replay calls = some c.timeStats) (hc : c.recordEnd type now = .ok c') :
    replay (calls ++ [.stop type now]) = some c'.timeStats := by
  simp only [RequestContext.recordEnd, Outcome.bind_eq_ok, Outcome.check_eq_ok, Outcome.pure_eq,
    Outcome.ok.injEq] at hc
  obtain ⟨stats, hstats, rfl⟩ := hc
  rw [replay_snoc, h]
  exact hstats

namespace Timeline

theorem of_totalOnly (h : replay calls = some c.timeStats) (hb : c.bits = TimeType.totalTime.bit)
    (htotal : TotalOnly calls) : Timeline c calls := by
  refine ⟨h, fun _ => htotal, ?_⟩
  rw [hb]
  intro hqueue
  exact absurd hqueue (by decide)

/-- The time of a request begins when its times have been cleared. -/
theorem start (hclear : c.timeStats = perRequestClearTime)
    (hc : c.recordStart .totalTime now = .ok c') : Timeline c' [.start .totalTime now] := by
  have hreplay : replay [] = some c.timeStats := by rw [hclear]; rfl
  refine of_totalOnly (replay_start hreplay hc) ?_ (.begun now)
  have hbits : c.bits = 0 := by rw [RequestContext.bits, hclear]; rfl
  rw [RequestContext.recordStart_bits hc, hbits]
  rfl

theorem read {rs : List ReadResult} {st : ReadState} (h : Timeline c calls)
    (hb : c.bits = TimeType.totalTime.bit) (hc : c.read rs clock = .ok (st, c')) :
    Timeline c' (calls ++ [.start .clientReadTime (clock 0), .stop .clientReadTime (clock 1)]) := by
  have hbits := RequestContext.read_bits hb hc
  simp only [RequestContext.read, Outcome.bind_eq_ok, Outcome.enabled_eq_ok, Outcome.pure_eq,
    Outcome.ok.injEq, Prod.mk.injEq, Prod.exists] at hc
  obtain ⟨c0, h0, st', c1, h1, c2, h2, rfl, rfl⟩ := hc
  have hreplay := replay_start h.replay_eq h0
  rw [← RequestContext.tryParse_timeStats h1] at hreplay
  refine of_totalOnly ?_ hbits ((h.totalOnly hb).span ⟨.clientReadTime, clock 0, clock 1, by decide⟩)
  simpa using replay_stop hreplay h2

theorem write {ws : List WriteResult} {st : WriteState} {bytes : List UInt8} (h : Timeline c calls)
    (hb : c.bits = TimeType.totalTime.bit) (hc : c.write ws clock = .ok (st, bytes, c')) :
    Timeline c' (calls ++ [.start .clientWriteTime (clock 0), .stop .clientWriteTime (clock 1)]) := by
  have hbits := RequestContext.write_bits hb hc
  simp only [RequestContext.write, Outcome.bind_eq_ok, Outcome.enabled_eq_ok, Outcome.pure_eq,
    Outcome.ok.injEq, Prod.mk.injEq, Prod.exists] at hc
  obtain ⟨c0, h0, st', bytes', buffer, h1, c2, h2, rfl, rfl, rfl⟩ := hc
  have hkept : ({ c0 with outputBuffer := buffer } : RequestContext).timeStats = c0.timeStats := rfl
  have hreplay := replay_start h.replay_eq h0
  rw [← hkept] at hreplay
  refine of_totalOnly ?_ hbits ((h.totalOnly hb).span ⟨.clientWriteTime, clock 0, clock 1, by decide⟩)
  simpa using replay_stop hreplay h2

theorem queue (h : Timeline c calls) (hb : c.bits = TimeType.totalTime.bit)
    (hc : c.recordStart .queueTime now = .ok c') :
    Timeline c' (calls ++ [.start .queueTime now]) := by
  refine ⟨replay_start h.replay_eq hc, ?_, fun _ => .intro (h.totalOnly hb) now⟩
  rw [RequestContext.queue_bits hb hc]
  intro htotal
  exact absurd htotal (by decide)

theorem process (h : Timeline c calls)
    (hb : c.bits = TimeType.totalTime.bit ||| TimeType.queueTime.bit)
    (hc : c.process clock = .ok c') :
    Timeline c' (calls ++ [.stop .queueTime (clock 0), .start .actorTime (clock 1),
      .stop .actorTime (clock 2)]) := by
  have hbits := RequestContext.process_bits hb hc
  obtain @⟨calls, htotal, now⟩ := h.inQueue hb
  simp only [RequestContext.process, Outcome.bind_eq_ok, Outcome.check_eq_ok] at hc
  obtain ⟨c0, h0, c1, h1, c2, h2, h3⟩ := hc
  have hhandle : c2.timeStats = c1.timeStats := by
    obtain ⟨-, buffer, -, rfl⟩ := handleRequest_eq_some.mp h2
    rfl
  have hreplay := replay_start (replay_stop h.replay_eq h0) h1
  rw [← hhandle] at hreplay
  have hqueued := htotal.span ⟨.queueTime, now, clock 0, by decide⟩
  have hacted := hqueued.span ⟨.actorTime, clock 1, clock 2, by decide⟩
  refine of_totalOnly ?_ hbits ?_
  · simpa using replay_stop hreplay h3
  · simpa [Span.calls] using hacted

theorem finish (h : Timeline c calls) (hb : c.bits = TimeType.totalTime.bit)
    (hc : c.recordEnd .totalTime now = .ok c') :
    replay (calls ++ [.stop .totalTime now]) = some c'.timeStats ∧
      Finished (calls ++ [.stop .totalTime now]) :=
  ⟨replay_stop h.replay_eq hc, .intro (h.totalOnly hb) now⟩

end Timeline

end

def Timelines (s : State) (log : List (Nat × TimerEntry)) : Prop :=
  ∀ r c, s.requests r = some c → Timeline c (callsOf r log)

/-- At a call of `server_stats_record_request` the times are those of the calls for a
request that is finished. -/
def Recorded (before : List (Nat × TimerEntry)) : Nat × TimerEntry → Prop
  | (r, .record x) => replay (callsOf r before) = some x ∧ Finished (callsOf r before)
  | _ => True

section

variable {cfg : Config} {s t : State} {r : Nat} {c d : RequestContext}
  {log entries : List (Nat × TimerEntry)}

theorem Timelines.keep (h : Timelines s log) (hreq : t.requests = s.requests) :
    Timelines t (log ++ []) := by
  rw [List.append_nil]
  intro r c hc
  rw [hreq] at hc
  exact h r c hc

theorem Timelines.set {y : Option RequestContext} (h : Timelines s log)
    (hentries : ∀ entry ∈ entries, entry.1 = r) (hreq : t.requests = Function.update s.requests r y)
    (hy : ∀ c, y = some c → Timeline c (callsOf r (log ++ entries))) :
    Timelines t (log ++ entries) := by
  intro r' c hc
  rw [hreq] at hc
  by_cases hr : r' = r
  · subst hr
    rw [Function.update_self] at hc
    exact hy c hc
  · rw [Function.update_of_ne hr] at hc
    rw [callsOf_other hentries hr]
    exact h r' c hc

theorem each_unrecorded (h : Trace.Each Recorded log) (hentries : records entries = []) :
    Trace.Each Recorded (log ++ entries) := by
  induction entries generalizing log with
  | nil => simpa using h
  | cons entry entries ih =>
    rw [List.append_cons]
    obtain ⟨r, entry⟩ := entry
    cases entry with
    | clear | call _ => exact ih (h.snoc trivial) hentries
    | record x => cases hentries

/-- The end of the total time, and the recording of what it has ended. -/
theorem each_finish (h : Trace.Each Recorded log) (ht : Timelines s log)
    (hr : s.requests r = some c) (hb : c.bits = TimeType.totalTime.bit)
    (hend : c.recordEnd .totalTime (s.clock 0) = .ok d) :
    Trace.Each Recorded
      (log ++ [(r, .call (.stop .totalTime (s.clock 0))), (r, .record d.timeStats)]) := by
  rw [List.append_cons]
  have hcall : Trace.Each Recorded (log ++ [(r, .call (.stop .totalTime (s.clock 0)))]) :=
    h.snoc trivial
  refine hcall.snoc ?_
  have hcalls : callsOf r (log ++ [(r, .call (.stop .totalTime (s.clock 0)))]) =
      callsOf r log ++ [.stop .totalTime (s.clock 0)] := by
    simp [callsOf_append, TimerEntry.apply]
  rw [Recorded, hcalls]
  exact (ht r c hr).finish hb hend

theorem Handling.timelines (h : Handling s t entries) (ht : Timelines s log) :
    Timelines t (log ++ entries) := by
  induction h generalizing log with
  | quiet hreq => exact ht.keep hreq
  | accept haccept hreq =>
    refine ht.set (by simp) hreq ?_
    rintro d ⟨⟩
    simpa [callsOf_append, TimerEntry.apply] using Timeline.start rfl haccept
  | read hr hb hread hreq =>
    refine ht.set (by simp [spanLog]) hreq ?_
    rintro d ⟨⟩
    simpa [callsOf_append, spanLog, TimerEntry.apply] using (ht _ _ hr).read hb hread
  | push hr hb hstart hreq =>
    refine ht.set (by simp) hreq ?_
    rintro d ⟨⟩
    simpa [callsOf_append, TimerEntry.apply] using (ht _ _ hr).queue hb hstart
  | process hr hb hprocess hreq =>
    refine ht.set (by simp [spanLog]) hreq ?_
    rintro d ⟨⟩
    simpa [callsOf_append, spanLog, TimerEntry.apply] using (ht _ _ hr).process hb hprocess
  | write hr hb hwrite hreq =>
    refine ht.set (by simp [spanLog]) hreq ?_
    rintro d ⟨⟩
    simpa [callsOf_append, spanLog, TimerEntry.apply] using (ht _ _ hr).write hb hwrite
  | close _ _ _ hreq => exact ht.set (by simp) hreq (by simp)
  | reset _ _ _ hstart hreq =>
    refine ht.set (by simp) hreq ?_
    rintro d ⟨⟩
    simpa [callsOf_append, TimerEntry.apply] using Timeline.start rfl hstart
  | seq _ _ ih ih' =>
    rw [← List.append_assoc]
    exact ih' (ih ht)

theorem Handling.each (h : Handling s t entries) (ht : Timelines s log)
    (heach : Trace.Each Recorded log) : Trace.Each Recorded (log ++ entries) := by
  induction h generalizing log with
  | quiet | accept | read | push | process | write => exact each_unrecorded heach rfl
  | close hr hb hend => exact each_finish heach ht hr hb hend
  | reset hr hb hend =>
    rw [List.append_cons, List.append_cons, ← List.append_cons log]
    exact each_unrecorded (each_finish heach ht hr hb hend) rfl
  | seq h _ ih ih' =>
    rw [← List.append_assoc]
    exact ih' (h.timelines ht) (ih ht heach)

/-- At each recording of a run the calls for the request are those of one that is
finished. -/
theorem timedServer_recorded (h : (timedServer cfg).Run s log) :
    Trace.Each Recorded log ∧ (s.halted = none → Timelines s log) := by
  induction h with
  | start hi =>
    obtain ⟨clock, rfl⟩ := hi
    exact ⟨Trace.Each.nil _, fun _ r c hr => by cases hr⟩
  | next l hrun hs ih =>
    obtain ⟨obs, hstep, rfl⟩ := Machine.log_step.mp hs
    obtain ⟨tr, hserver⟩ := hrun.of_log
    obtain ⟨k, -, howned, htimed⟩ := server_simulates_timed hserver
    obtain ⟨heach, htimes⟩ := ih
    obtain ⟨hrunning, hhandling | ⟨hhalted, -, hrecords⟩⟩ := server_handling howned htimed hstep
    · exact ⟨hhandling.each (htimes hrunning) heach, fun _ => hhandling.timelines (htimes hrunning)⟩
    · exact ⟨each_unrecorded heach hrecords, fun hgoes => absurd hgoes hhalted⟩

/-- Of the clock it is only asked that it does not go back between the calls for the
request itself, so that the readings of the other threads may stand anywhere. -/
theorem component_times_fit {before after : List (Nat × TimerEntry)} {x : PerRequestStats}
    (h : (timedServer cfg).Run s (before ++ (r, .record x) :: after))
    (hclock : Ordered (callsOf r before)) :
    replay (callsOf r before) = some x ∧ (∀ t ∈ components, 0 ≤ perRequestGetTime x t) ∧
      (components.map fun t => perRequestGetTime x t).sum ≤ perRequestGetTime x .totalTime +
        ((components.map fun t => (intervals t (callsOf r before)).length).sum : Nat) := by
  obtain ⟨heach, -⟩ := timedServer_recorded h
  obtain ⟨hreplay, hfinished⟩ : replay (callsOf r before) = some x ∧ Finished (callsOf r before) :=
    heach before (r, .record x) after rfl
  have htotal : ∀ t, perRequestGetTime x t = micros (intervals t (callsOf r before)) :=
    replay_total hreplay
  refine ⟨hreplay, ?_, ?_⟩
  · intro t _
    rw [htotal]
    exact micros_nonneg (hclock.intervals t)
  · simp only [htotal]
    exact hfinished.components_le hclock

end

/-- A request that is answered, with 700 nanoseconds from each reading to the next. -/
theorem component_times_fit_answered : ∃ s before after r x,
    (timedServer smallConfig).Run s (before ++ (r, .record x) :: after) ∧
      Ordered (callsOf r before) ∧
      (components.map fun t => (intervals t (callsOf r before)).length) = [1, 1, 1, 1] ∧
      (components.map fun t => perRequestGetTime x t).sum ≤ perRequestGetTime x .totalTime + 4 := by
  have hexec : ((timedServer smallConfig).exec (initState smallConfig fun i => ⟨0, 700 * i⟩)
      (acceptLabels 4 ++ readLabels 4 2 (ascii "GET / HTTP/1.1\r\n\r\n") ++ respondLabels ++
        writeLabels 4 3 [.accepted 58])).any (fun x =>
      ((x.2.drop 11).head?.any fun entry => entry.1 = 1 ∧ entry.2.stats.isSome) ∧
        ((callsOf 1 (x.2.take 11)).map fun call => call.now.nanos).Pairwise (· ≤ ·) ∧
        (components.map fun t => (intervals t (callsOf 1 (x.2.take 11))).length) = [1, 1, 1, 1]) =
      true := by
    decide +kernel
  obtain ⟨⟨s, log⟩, hs, hlog⟩ := (Option.any_eq_true _ _).mp hexec
  obtain ⟨hentry, hordered, hcount⟩ := of_decide_eq_true hlog
  have hrun : (timedServer smallConfig).Run s log := .of_exec ⟨_, rfl⟩ hs
  obtain ⟨⟨r, entry⟩, hhead, hrecord⟩ := (Option.any_eq_true _ _).mp hentry
  obtain ⟨hr, hsome⟩ := of_decide_eq_true hrecord
  obtain ⟨after, hafter⟩ := List.head?_eq_some_iff.mp hhead
  cases entry with
  | clear | call _ => cases hsome
  | record x =>
    have hsplit : log = log.take 11 ++ (1, .record x) :: after := by
      rw [← hr, ← hafter, List.take_append_drop]
    rw [hsplit] at hrun
    have hclock : Ordered (callsOf 1 (log.take 11)) := List.pairwise_map.mp hordered
    refine ⟨s, _, after, 1, x, hrun, hclock, hcount, ?_⟩
    have hfit := (component_times_fit hrun hclock).2.2
    rw [hcount] at hfit
    exact hfit

end Jullop
