import Jullop.TimerLog

/-! The calls of `server_stats_record_request` in a run of the server: which
times it is given, and that the counters are what these calls make of them. -/

namespace Jullop

/-- The times that `client_close_connection` and `client_reset_connection` record,
for the socket context `p`. -/
def finalStats (s : State) (p : Nat) : Outcome Halt PerRequestStats := do
  let context ← s.socket p
  let r ← context.request
  let c ← s.request r
  let c ← c.recordEnd .totalTime (s.clock 0)
  return c.timeStats

/-- The calls of `server_stats_record_request` in one step. -/
def recorded (s : State) : Label → List PerRequestStats
  | .worker w act =>
    match s.workers w, act with
    | .batch (e :: _), .next =>
      if e.events.error then
        match s.socket e.ptr with
        | .ok context =>
          if context.errorHandler = some .clientHandleError then (finalStats s e.ptr).toList else []
        | _ => []
      else []
    | .batch (e :: _), .read rs =>
      if e.events.error || !e.events.epollin then []
      else
        match readResult s e rs with
        | .ok (.readError, s) | .ok (.clientDisconnect, s) => (finalStats s e.ptr).toList
        | _ => []
    | .output e _, .write ws =>
      if e.events.epollout then
        match writeResult s e ws with
        | .ok (.writeFinish, s) | .ok (.writeError, s) => (finalStats s e.ptr).toList
        | _ => []
      else []
    | _, _ => []
  | .actor _ _ => []

theorem records_of_ne_ok {x : Outcome Halt (List (Nat × TimerEntry))}
    (h : ∀ entries, x ≠ .ok entries) : records x.toList.flatten = [] := by
  cases x with
  | disabled | halt _ => rfl
  | ok entries => exact absurd rfl (h entries)

theorem closeLog_records (s : State) (p : Nat) :
    records (closeLog s p).toList.flatten = (finalStats s p).toList := by
  simp only [closeLog, finalStats]
  cases s.socket p with
  | disabled | halt _ => rfl
  | ok context =>
    cases hr : context.request with
    | disabled | halt _ => simp [hr, Outcome.toList, records]
    | ok r =>
      cases hc : s.request r with
      | disabled | halt _ => simp [hr, hc, Outcome.toList, records]
      | ok c =>
        cases hrec : c.recordEnd .totalTime (s.clock 0) with
        | disabled | halt _ => simp [hr, hc, hrec, Outcome.toList, records]
        | ok c' => simp [hr, hc, hrec, Outcome.toList, records, TimerEntry.stats]

theorem records_prepend {entries : List (Nat × TimerEntry)}
    {x : Outcome Halt (List (Nat × TimerEntry))} (hentries : records entries = []) :
    records (x >>= fun last => pure (entries ++ last)).toList.flatten =
      records x.toList.flatten := by
  cases x with
  | disabled | halt _ => rfl
  | ok last =>
    simp only [records] at hentries ⊢
    simp [Outcome.toList, hentries]

theorem resetLog_records (s : State) (p : Nat) :
    records (resetLog s p).toList.flatten = (finalStats s p).toList := by
  rw [← closeLog_records]
  cases hl : closeLog s p with
  | disabled | halt _ =>
    exact records_of_ne_ok fun entries => by simp [resetLog, Outcome.bind_eq_ok, hl]
  | ok entries =>
    have hclose := hl
    simp only [closeLog, Outcome.bind_eq_ok] at hclose
    obtain ⟨context, hs, r, hr, -⟩ := hclose
    simp [resetLog, hs, hr, hl, Outcome.toList, records, TimerEntry.stats]

theorem readLog_records (s : State) (e : Event) (rs : List ReadResult) :
    records (readLog s e rs).toList.flatten =
      match readResult s e rs with
      | .ok (.readError, t) | .ok (.clientDisconnect, t) => (finalStats t e.ptr).toList
      | _ => [] := by
  cases hresult : readResult s e rs with
  | disabled | halt _ =>
    exact records_of_ne_ok fun entries => by simp [readLog, Outcome.bind_eq_ok, hresult]
  | ok result =>
    obtain ⟨state, t⟩ := result
    have hread := hresult
    simp only [readResult, Outcome.bind_eq_ok] at hread
    obtain ⟨context, hs, r, hr, -⟩ := hread
    simp only [readLog, hs, hr, hresult, Outcome.ok_bind]
    cases state with
    | readFinish | readBusy => rfl
    | readError | clientDisconnect => exact (records_prepend rfl).trans (closeLog_records t e.ptr)

theorem writeLog_records (s : State) (e : Event) (ws : List WriteResult) :
    records (writeLog s e ws).toList.flatten =
      match writeResult s e ws with
      | .ok (.writeFinish, t) | .ok (.writeError, t) => (finalStats t e.ptr).toList
      | _ => [] := by
  cases hresult : writeResult s e ws with
  | disabled | halt _ =>
    exact records_of_ne_ok fun entries => by simp [writeLog, Outcome.bind_eq_ok, hresult]
  | ok result =>
    obtain ⟨state, t⟩ := result
    have hwrite := hresult
    simp only [writeResult, Outcome.bind_eq_ok, Outcome.pure_eq, Outcome.ok.injEq, Prod.exists,
      Prod.mk.injEq] at hwrite
    obtain ⟨context, hs, r, hr, c, hc, st, bytes, c', hw, rfl, rfl⟩ := hwrite
    have hc' : ((s.tick 2).setRequest r c').request r = .ok c' :=
      State.request_eq (Function.update_self _ _ _)
    simp only [writeLog, hs, hr, hresult, hc', Outcome.ok_bind]
    cases st with
    | writeBusy => rfl
    | writeError => exact (records_prepend rfl).trans (closeLog_records _ e.ptr)
    | writeFinish =>
      dsimp only
      split
      · exact (records_prepend rfl).trans (resetLog_records _ e.ptr)
      · exact (records_prepend rfl).trans (closeLog_records _ e.ptr)

/-- The recordings among the calls of a step are those that its counters show. -/
theorem timerLog_records (s : State) (l : Label) : records (timerLog s l) = recorded s l := by
  cases l with
  | actor a act =>
    simp only [timerLog, stepLog, recorded]
    split
    · rename_i r hpc
      exact processLog_records s r
    · rfl
  | worker w act =>
    simp only [timerLog, recorded]
    split
    · rename_i e rest hpc
      simp only [stepLog, hpc]
      split
      · cases hs : s.socket e.ptr with
        | disabled | halt _ => rfl
        | ok context =>
          simp only [Outcome.ok_bind]
          split
          · exact closeLog_records s e.ptr
          · rfl
      · rfl
    · rename_i e rest rs hpc
      simp only [stepLog, hpc]
      split
      · rfl
      · exact readLog_records s e rs
    · rename_i e rest ws hpc
      simp only [stepLog, hpc]
      split
      · exact writeLog_records s e ws
      · rfl
    · rename_i hnext hread hwrite
      simp only [stepLog]
      split
      · rename_i hpc
        exact (hnext _ _ hpc rfl).elim
      · rename_i hpc
        exact (hread _ _ _ hpc rfl).elim
      · rename_i hpc
        exact (hwrite _ _ _ hpc rfl).elim
      · rfl
      · rfl
      · rfl

/-- The counters of `t` are those of `s` after these calls. -/
structure Adds (s t : State) (xs : List PerRequestStats) : Prop where
  total : t.total = s.total + xs.length
  micros : ∀ type, t.stats.avgMicros type =
    s.stats.avgMicros type + (xs.map fun x => perRequestGetTime x type).sum

section

variable {cfg : Config} {s t : State} {log : List (Nat × TimerEntry)}

theorem Adds.nil (htotal : t.total = s.total) (hmicros : t.stats.avgMicros = s.stats.avgMicros) :
    Adds s t [] := by
  refine ⟨by simpa using htotal, ?_⟩
  intro type
  simp [hmicros]

theorem Adds.one {x : PerRequestStats} (htotal : t.total = s.total + 1)
    (hmicros : ∀ type, t.stats.avgMicros type = s.stats.avgMicros type + perRequestGetTime x type) :
    Adds s t [x] := by
  refine ⟨htotal, ?_⟩
  intro type
  simp [hmicros]

theorem Adds.trans {u : State} {xs ys : List PerRequestStats} (h : Adds s u xs)
    (h' : Adds u t ys) : Adds s t (xs ++ ys) := by
  refine ⟨?_, ?_⟩
  · rw [h'.total, h.total, List.length_append, Nat.cast_add, add_assoc]
  · intro type
    rw [h'.micros, h.micros, List.map_append, List.sum_append, add_assoc]

theorem Handling.adds (h : Handling s t log) : Adds s t (records log) := by
  induction h with
  | quiet _ hstats | read _ _ _ _ hstats | push _ _ _ _ hstats | process _ _ _ _ hstats
  | write _ _ _ _ hstats => exact .nil (by rw [State.total, hstats]; rfl) (by rw [hstats])
  | accept _ _ hstats => exact .nil (by rw [State.total, hstats]; rfl) (by rw [hstats]; rfl)
  | close _ _ _ _ hstats | reset _ _ _ _ _ hstats =>
    refine .one (by rw [State.total, hstats]; rfl) ?_
    intro type
    rw [hstats]
    rfl
  | seq _ _ ih ih' =>
    rw [records_append]
    exact ih.trans ih'

/-- What is recorded has no time that still runs. -/
theorem Handling.clear {x : PerRequestStats} (h : Handling s t log) (hx : x ∈ records log) :
    x.isTimeSet = 0 := by
  induction h with
  | quiet | accept | read | push | process | write => cases hx
  | close _ hb hend | reset _ hb hend =>
    obtain rfl := List.mem_singleton.mp hx
    exact RequestContext.final_bits hb hend
  | seq _ _ ih ih' =>
    rw [records_append, List.mem_append] at hx
    exact hx.elim ih ih'

theorem server_adds {k : Nat → Connection} {l : Label} {obs : List Obs} (h : Owned cfg s k)
    (htimed : AllTimed k) (hstep : (server cfg).step s l = some (t, obs)) :
    Adds s t (records (timerLog s l)) := by
  obtain ⟨-, hhandling | ⟨-, hstats, hrecords⟩⟩ := server_handling h htimed hstep
  · exact hhandling.adds
  · rw [hrecords]
    exact .nil (by rw [State.total, hstats, State.total]) (by rw [hstats])

/-- The counters are what the recordings of the run make of them. -/
theorem timedServer_adds (h : (timedServer cfg).Run s log) :
    s.total = (records log).length ∧ ∀ type, s.stats.avgMicros type =
      ((records log).map fun x => perRequestGetTime x type).sum := by
  induction h with
  | start hi =>
    obtain ⟨clock, rfl⟩ := hi
    exact ⟨rfl, fun _ => rfl⟩
  | @next s t tr notes l hrun hnotes ih =>
    obtain ⟨obs, hstep, rfl⟩ := Machine.log_step.mp hnotes
    obtain ⟨trace, hserver⟩ := hrun.of_log
    obtain ⟨k, -, howned, htimed⟩ := server_simulates_timed hserver
    have hadds := server_adds howned htimed hstep
    obtain ⟨htotal, hmicros⟩ := ih
    rw [records_append]
    refine ⟨?_, ?_⟩
    · rw [hadds.total, htotal, List.length_append, Nat.cast_add]
    · intro type
      rw [hadds.micros, hmicros, List.map_append, List.sum_append]

theorem perRequestIsTimeSet_of_clear {x : PerRequestStats} (hx : x.isTimeSet = 0) (type : TimeType) :
    perRequestIsTimeSet x type = false := by
  rw [perRequestIsTimeSet, hx]
  cases type <;> rfl

/-- No start and no end of a time fails, and what is recorded of a request has
ended; the calls of `recorded` are those that the counters show. -/
theorem timers_never_abort {tr : List Obs} (h : (server cfg).Run s tr) :
    s.halted ≠ some .timeCheck ∧ ∀ l t obs, (server cfg).step s l = some (t, obs) →
      t.halted ≠ some .timeCheck ∧ (t.halted = none → Adds s t (recorded s l)) ∧
        ∀ x ∈ recorded s l, ∀ type, perRequestIsTimeSet x type = false := by
  obtain ⟨k, -, howned, htimed⟩ := server_simulates_timed h
  refine ⟨howned.halted.2.2, ?_⟩
  intro l t obs hstep
  obtain ⟨k', -, howned'⟩ := server_simulates (h.next l hstep)
  rw [← timerLog_records]
  refine ⟨howned'.halted.2.2, fun _ => server_adds howned htimed hstep, ?_⟩
  intro x hx type
  obtain ⟨-, hhandling | ⟨-, -, hrecords⟩⟩ := server_handling howned htimed hstep
  · exact perRequestIsTimeSet_of_clear (hhandling.clear hx) type
  · rw [hrecords] at hx
    cases hx

end

/-- The disconnection of a client that has sent nothing is recorded. -/
theorem timers_never_abort_disconnect : ∃ s tr l x, (server smallConfig).Run s tr ∧
    recorded s l = [x] ∧ ∀ type, perRequestIsTimeSet x type = false := by
  have hexec : ((server smallConfig).exec (initState smallConfig fun _ => ⟨0, 0⟩)
      (acceptLabels 4 ++ [.worker 0 (.wait [readable 4 2])])).any (fun x =>
        (recorded x.1 (.worker 0 (.read [.endOfStream]))).length = 1 ∧
        ((server smallConfig).step x.1 (.worker 0 (.read [.endOfStream]))).isSome) = true := by
    decide +kernel
  obtain ⟨⟨s, tr⟩, hs, hsome⟩ := (Option.any_eq_true _ _).mp hexec
  obtain ⟨hlength, hstep⟩ := of_decide_eq_true hsome
  obtain ⟨x, hx⟩ := List.length_eq_one_iff.mp hlength
  obtain ⟨⟨t, obs⟩, ht⟩ := Option.isSome_iff_exists.mp hstep
  have hrun := server_run_exec hs
  refine ⟨s, tr, _, x, hrun, hx, ?_⟩
  exact ((timers_never_abort hrun).2 _ t obs ht).2.2 x (by simp [hx])

end Jullop
