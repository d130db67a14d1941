import Jullop.Refinement

/-! The responses of a connection: every request that was parsed is answered in
its turn, and the bytes written are those of the responses, in order. -/

namespace Jullop

namespace Obs

@[simp] def parsedOn (r : Nat) : Obs → Option RequestContent
  | .parsed r' q => if r' = r then some q else none
  | _ => none

@[simp] def answeredOn (r : Nat) : Obs → Option (RequestContent × List UInt8)
  | .handled r' q _ _ response => if r' = r then some (q, response) else none
  | _ => none

@[simp] def writtenOn (r : Nat) : Obs → List UInt8
  | .wrote file bytes => if file = some (.connection r) then bytes else []
  | _ => []

def On (r : Nat) : Obs → Prop
  | .parsed r' _ | .handled r' _ _ _ _ => r' = r
  | .wrote file _ => file = some (.connection r)

end Obs

namespace Trace

/-- The requests parsed on the connection `r`, the requests that `handle_request`
ran on with its response to each, and the bytes that `write(2)` accepted. -/
def parsed (r : Nat) (tr : List Obs) : List RequestContent := tr.filterMap (Obs.parsedOn r)

def answered (r : Nat) (tr : List Obs) : List (RequestContent × List UInt8) :=
  tr.filterMap (Obs.answeredOn r)

def written (r : Nat) (tr : List Obs) : List UInt8 := tr.flatMap (Obs.writtenOn r)

def requests (r : Nat) (tr : List Obs) : List RequestContent := (answered r tr).map Prod.fst

def responses (r : Nat) (tr : List Obs) : List (List UInt8) := (answered r tr).map Prod.snd

/-- A request is parsed when all the earlier ones are answered and their responses
written; `handle_request` runs on the last request parsed, with an empty buffer. -/
def InTurn (before : List Obs) : Obs → Prop
  | .parsed r _ => requests r before = parsed r before ∧
      written r before = (responses r before).flatten
  | .handled r q fromOffset intoOffset _ => fromOffset = 0 ∧ intoOffset = 0 ∧
      parsed r before = requests r before ++ [q]
  | .wrote _ _ => True

variable {r r' : Nat} {tr : List Obs} {o : Obs}

@[simp] theorem parsed_snoc :
    parsed r (tr ++ [o]) = parsed r tr ++ (o.parsedOn r).toList := by
  cases h : o.parsedOn r <;>
    simp only [parsed, List.filterMap_append, List.filterMap_cons, List.filterMap_nil, h,
      Option.toList]

@[simp] theorem requests_snoc :
    requests r (tr ++ [o]) = requests r tr ++ ((o.answeredOn r).map Prod.fst).toList := by
  cases h : o.answeredOn r <;>
    simp only [requests, answered, List.filterMap_append, List.filterMap_cons, List.filterMap_nil, h,
      List.map_append, List.map_cons, List.map_nil, Option.map_none, Option.map_some,
      Option.toList]

@[simp] theorem responses_snoc :
    responses r (tr ++ [o]) = responses r tr ++ ((o.answeredOn r).map Prod.snd).toList := by
  cases h : o.answeredOn r <;>
    simp only [responses, answered, List.filterMap_append, List.filterMap_cons, List.filterMap_nil, h,
      List.map_append, List.map_cons, List.map_nil, Option.map_none, Option.map_some,
      Option.toList]

@[simp] theorem written_snoc : written r (tr ++ [o]) = written r tr ++ o.writtenOn r := by
  simp [written]

theorem frame (ho : o.On r) (h : r' ≠ r) :
    parsed r' (tr ++ [o]) = parsed r' tr ∧ requests r' (tr ++ [o]) = requests r' tr ∧
      responses r' (tr ++ [o]) = responses r' tr ∧ written r' (tr ++ [o]) = written r' tr := by
  cases o with
  | parsed s q =>
    cases ho
    simp [h.symm]
  | handled s q i j response =>
    cases ho
    simp [h.symm]
  | wrote file bytes =>
    cases ho
    simp [h.symm]

end Trace

open Trace

structure Settled (r : Nat) (tr : List Obs) : Prop where
  requests : requests r tr = parsed r tr
  written : written r tr = (responses r tr).flatten

def Connection.Progress (r : Nat) (tr : List Obs) : Connection → Prop
  | .unborn => Settled r tr
  | .live .input c => Settled r tr ∧
      c.outputBuffer.writeFromOffset = 0 ∧ c.outputBuffer.writeIntoOffset = 0
  | .live (.handled _) c | .live .output c => requests r tr = parsed r tr ∧
      ∃ earlier, responses r tr = earlier ++ [c.outputBuffer.content] ∧
        written r tr = earlier.flatten ++
          c.outputBuffer.content.take c.outputBuffer.writeFromOffset
  | .live _ c => parsed r tr = requests r tr ++ [c.content] ∧
      written r tr = (responses r tr).flatten ∧
      c.outputBuffer.writeFromOffset = 0 ∧ c.outputBuffer.writeIntoOffset = 0
  | .closed => requests r tr <+: parsed r tr ∧ written r tr <+: (responses r tr).flatten

namespace Connection

variable {r : Nat} {tr obs : List Obs} {x y : Connection} {c c' : RequestContext}

/-- A connection comes to `y` by a step that shows `obs`, which is at most one
observation. -/
inductive Proceeds (r : Nat) (tr : List Obs) (y : Connection) : List Obs → Prop
  | silent : Progress r tr y → Proceeds r tr y []
  | one {o : Obs} : Progress r (tr ++ [o]) y → o.On r → InTurn tr o → Proceeds r tr y [o]

theorem Progress.closed (h : Settled r tr) : Progress r tr .closed :=
  ⟨h.requests ▸ List.prefix_rfl, h.written ▸ List.prefix_rfl⟩

theorem Progress.closed_output (h : Progress r tr (.live .output c)) : Progress r tr .closed := by
  obtain ⟨hrequests, earlier, hresponses, hwritten⟩ := h
  refine ⟨hrequests ▸ List.prefix_rfl, ?_⟩
  rw [hwritten, hresponses, List.flatten_append, List.flatten_singleton,
    List.prefix_append_right_inj]
  exact List.take_prefix _ _

theorem Progress.handle {clock : Nat → Timespec} {a a' : Nat}
    (h : Progress r tr (.live (.held a) c)) (hc : c.process clock = .ok c') :
    Progress r (tr ++ [.handled r c.content c.outputBuffer.writeFromOffset
      c.outputBuffer.writeIntoOffset c'.outputBuffer.content]) (.live (.handled a') c') := by
  obtain ⟨hparsed, hwritten, hfrom, hinto⟩ := h
  have hfrom' : c'.outputBuffer.writeFromOffset = 0 := by
    rw [(RequestContext.process_keeps hc).2, hfrom]
  refine ⟨?_, responses r tr, ?_, ?_⟩
  · simp [hparsed]
  · simp
  · simp [hwritten, hfrom']

theorem Progress.write {ws : List WriteResult} {state : WriteState} {bytes : List UInt8}
    {clock : Nat → Timespec} (h : Progress r tr (.live .output c))
    (hc : c.write ws clock = .ok (state, bytes, c')) :
    Progress r (tr ++ [.wrote (some (.connection r)) bytes]) (.live .output c') ∧
      (state = .writeFinish → Settled r (tr ++ [.wrote (some (.connection r)) bytes])) := by
  obtain ⟨hrequests, earlier, hresponses, hwritten⟩ := h
  obtain ⟨buffer, stats, hbuffer, rfl⟩ := RequestContext.write_eq_ok hc
  obtain ⟨hcontent, hbytes, hfinish⟩ := outputBufferWriteTo_content hbuffer
  refine ⟨⟨by simp [hrequests], earlier, by simp [hresponses, hcontent], ?_⟩, ?_⟩
  · simp [hwritten, hcontent, hbytes]
  · intro hstate
    have hall := hfinish hstate
    rw [hbytes] at hall
    exact ⟨by simp [hrequests], by simp [hwritten, hresponses, hall]⟩

theorem Progress.step {act : ConnectionAct} (h : Progress r tr x)
    (hs : x.step r act = .ok (y, obs)) : Proceeds r tr y obs := by
  cases step_cases hs with
  | accept hc =>
    obtain ⟨stats, rfl⟩ := RequestContext.accept_eq_ok hc
    exact .silent ⟨h, rfl, rfl⟩
  | parse hc =>
    have hkeeps := (RequestContext.read_keeps hc).2.2
    obtain ⟨hsettled, hfrom, hinto⟩ := h
    refine .one ⟨?_, ?_, by rw [hkeeps, hfrom], by rw [hkeeps, hinto]⟩ rfl
      ⟨hsettled.requests, hsettled.written⟩
    · simp [hsettled.requests]
    · simp [hsettled.written]
  | read hc =>
    have hkeeps := (RequestContext.read_keeps hc).2.2
    exact .silent (by simpa only [Progress, hkeeps] using h)
  | readFail => exact .silent (.closed h.1)
  | delete | pop | register => exact .silent h
  | push hc =>
    obtain ⟨stats, rfl⟩ := RequestContext.recordStart_eq_ok hc
    exact .silent h
  | handle hc => exact .one (h.handle hc) rfl ⟨h.2.2.1, h.2.2.2, h.1⟩
  | write hc => exact .one (h.write hc).1 rfl trivial
  | writeClose hc => exact .one (h.write hc).1.closed_output rfl trivial
  | reset hc hend hstart =>
    obtain ⟨stats, rfl⟩ := RequestContext.recordEnd_eq_ok hend
    obtain ⟨stats', rfl⟩ := RequestContext.recordStart_eq_ok hstart
    exact .one ⟨(h.write hc).2 rfl, rfl, rfl⟩ rfl trivial
  | writeFail => exact .silent h.closed_output

theorem Progress.frame {o : Obs} {r' : Nat} (ho : o.On r) (hr : r' ≠ r)
    (h : Progress r' tr x) : Progress r' (tr ++ [o]) x := by
  obtain ⟨hparsed, hrequests, hresponses, hwritten⟩ := @Trace.frame r r' tr o ho hr
  have hsettled : Settled r' tr → Settled r' (tr ++ [o]) := by
    intro h
    exact ⟨by rw [hrequests, hparsed, h.requests], by rw [hwritten, hresponses, h.written]⟩
  fun_cases Progress r' tr x with
  | case1 => exact hsettled h
  | case2 c => exact ⟨hsettled h.1, h.2⟩
  | _ => simpa only [Progress, hparsed, hrequests, hresponses, hwritten] using h

end Connection

theorem Connection.Progress.summary {r : Nat} {tr : List Obs} {x : Connection}
    (h : x.Progress r tr) :
    requests r tr <+: parsed r tr ∧ written r tr <+: (responses r tr).flatten := by
  cases x with
  | unborn => exact Progress.closed h
  | closed => exact h
  | live st c =>
    cases st with
    | input => exact Progress.closed h.1
    | parsed | deleted | queued _ | held _ =>
      exact ⟨h.1 ▸ List.prefix_append _ _, h.2.1 ▸ List.prefix_rfl⟩
    | handled _ | output => exact Progress.closed_output h

theorem connections_progress {k : Nat → Connection} {tr : List Obs} (h : connections.Run k tr) :
    (∀ r, (k r).Progress r tr) ∧ Each InTurn tr := by
  refine h.invariant (fun k tr => (∀ r, (k r).Progress r tr) ∧ Each InTurn tr) ?_ ?_
  · intro k hk
    refine ⟨?_, Each.nil _⟩
    intro r
    rw [hk r]
    exact ⟨rfl, rfl⟩
  · rintro k tr ⟨r, act⟩ t obs ⟨hk, heach⟩ hs
    simp only [connections] at hs
    split at hs
    case h_2 => cases hs
    case h_1 y o hy =>
      cases hs
      have hr := (hk r).step hy
      cases hr with
      | silent hp =>
        refine ⟨?_, by simpa using heach⟩
        intro r'
        by_cases hr' : r' = r
        · subst hr'
          simpa using hp
        · simpa [Function.update_of_ne hr'] using hk r'
      | one hp hon hturn =>
        refine ⟨?_, heach.snoc hturn⟩
        intro r'
        by_cases hr' : r' = r
        · subst hr'
          simpa using hp
        · simpa [Function.update_of_ne hr'] using (hk r').frame hon hr'

theorem responses_in_turn {cfg : Config} {s : State} {tr : List Obs}
    (h : (server cfg).Run s tr) :
    (∀ r, requests r tr <+: parsed r tr ∧ written r tr <+: (responses r tr).flatten) ∧
      Each InTurn tr := by
  obtain ⟨k, hk, -⟩ := server_simulates h
  obtain ⟨hprogress, heach⟩ := connections_progress hk
  exact ⟨fun r => (hprogress r).summary, heach⟩

/-- A request is answered, and the first nine bytes of its response are written. -/
theorem responses_in_turn_get : ∃ s tr, (server smallConfig).Run s tr ∧
    (requests 1 tr).length = 1 ∧ written 1 tr = ascii "HTTP/1.1 " ∧
    written 1 tr <+: (responses 1 tr).flatten ∧ Each InTurn tr := by
  have hexec : ((server smallConfig).exec (initState smallConfig fun _ => ⟨0, 0⟩)
      (acceptLabels 4 ++ readLabels 4 2 (ascii "GET / HTTP/1.1\r\n\r\n") ++ respondLabels ++
        writeLabels 4 3 [.accepted 9, .wouldBlock])).any (fun x =>
      (requests 1 x.2).length = 1 ∧ written 1 x.2 = ascii "HTTP/1.1 ") = true := by
    decide +kernel
  obtain ⟨⟨s, tr⟩, hs, htr⟩ := (Option.any_eq_true _ _).mp hexec
  obtain ⟨hrequests, hwritten⟩ := of_decide_eq_true htr
  have hrun := server_run_exec hs
  obtain ⟨hbytes, heach⟩ := responses_in_turn hrun
  exact ⟨s, tr, hrun, hrequests, hwritten, (hbytes 1).2, heach⟩

end Jullop
