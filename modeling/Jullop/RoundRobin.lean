import Jullop.Refinement

/-! Which actor gets which request. A worker takes the number of a request from the
counter that all workers share, and the rest of its division by the number of actors
says whose queue the request goes to. The only worker of a server deals its requests
round. -/

namespace Jullop

def Obs.parsedId : Obs → Option Nat
  | .parsed r _ => some r
  | _ => none

/-- The connections that a request was parsed on, one for each request. -/
def parsedIds (tr : List Obs) : List Nat := tr.filterMap Obs.parsedId

/-- A request in the hands of `client_handle_read`, behind its parser. -/
def WorkerPc.point : WorkerPc → Option (Dispatch × Nat)
  | .dispatching point r _ _ => some (point, r)
  | _ => none

/-- What an actor takes from the queue of a worker. -/
def takenBy (s : State) : Label → List (Nat × Nat × Nat)
  | .actor a .next =>
    match s.actors a with
    | .popping w (_ + 1) _ => (LockQueue.queuePop (s.queues a w)).1.toList.map fun r => (a, w, r)
    | _ => []
  | _ => []

/-- The server with what its actors take from the queues. -/
def dealing (cfg : Config) : Machine State Label (Obs ⊕ Nat × Nat × Nat) :=
  (server cfg).record takenBy

def takenFrom (a w : Nat) (notes : List (Nat × Nat × Nat)) : List Nat :=
  notes.filterMap fun note => if note.1 = a ∧ note.2.1 = w then some note.2.2 else none

/-- The requests with their numbers, as `size_t` counts them. -/
def numbered (ids : List Nat) : List (Nat × Nat) := ids.zipIdx.map fun (r, i) => (i % 2 ^ 64, r)

/-- Those of them that go to the actor `a`. -/
def dealtTo (cfg : Config) (a : Nat) (requests : List (Nat × Nat)) : List Nat :=
  (requests.filter fun request => request.1 % cfg.actorCount = a).map Prod.snd

/-- The request in the hands of a worker, with the number that it has or will get when no
other worker takes one. -/
def inHand (count : Nat) : Option (Dispatch × Nat) → List (Nat × Nat)
  | some (.store number, r) | some (.push number, r) => [(number, r)]
  | some (_, r) => [(count, r)]
  | none => []

/-- The number of the request after that. -/
def nextNumber (count : Nat) : Option (Dispatch × Nat) → Nat
  | some (.delete, _) | some (.load, _) => (count + 1) % 2 ^ 64
  | some (.store number, _) => (number + 1) % 2 ^ 64
  | _ => count

/-- What one worker does with the counter, a request and the queues. -/
inductive Deal (count : Nat) :
    Option (Dispatch × Nat) → Nat → Option (Dispatch × Nat) → List Nat → List (Nat × Nat) → Prop
  | keep {point : Option (Dispatch × Nat)} : Deal count point count point [] []
  | parse {r : Nat} : Deal count none count (some (.delete, r)) [r] []
  | delete {r : Nat} : Deal count (some (.delete, r)) count (some (.load, r)) [] []
  | load {r : Nat} : Deal count (some (.load, r)) count (some (.store count, r)) [] []
  | store {number r : Nat} :
      Deal count (some (.store number, r)) ((number + 1) % 2 ^ 64) (some (.push number, r)) [] []
  | push {number r : Nat} : Deal count (some (.push number, r)) count none [] [(number, r)]

/-- What a step has to do with the numbers and the queues. -/
inductive Dealing (cfg : Config) (s : State) (l : Label) (t : State) (obs : List Obs) : Prop
  | worker {w : Nat} {pushed : List (Nat × Nat)} (hw : w < cfg.workerCount) (hl : takenBy s l = [])
      (hdeal : Deal s.count (s.workers w).point t.count (t.workers w).point (parsedIds obs) pushed)
      (hqueue : ∀ a, t.waiting a w = s.waiting a w ++ dealtTo cfg a pushed)
  | actor (hworkers : t.workers = s.workers) (hcount : t.count = s.count)
      (hobs : parsedIds obs = [])
      (hqueue : ∀ a w, s.waiting a w = takenFrom a w (takenBy s l) ++ t.waiting a w)

section

variable {cfg : Config} {s t : State} {k : Nat → Connection} {l : Label} {obs : List Obs}
  {w a r : Nat}

theorem parsedIds_append (tr obs : List Obs) :
    parsedIds (tr ++ obs) = parsedIds tr ++ parsedIds obs :=
  List.filterMap_append

theorem numbered_append (ids : List Nat) (r : Nat) :
    numbered (ids ++ [r]) = numbered ids ++ [(ids.length % 2 ^ 64, r)] := by
  simp [numbered, List.zipIdx_append]

theorem dealtTo_append (a : Nat) (requests more : List (Nat × Nat)) :
    dealtTo cfg a (requests ++ more) = dealtTo cfg a requests ++ dealtTo cfg a more := by
  simp [dealtTo]

theorem takenFrom_append (a w : Nat) (notes more : List (Nat × Nat × Nat)) :
    takenFrom a w (notes ++ more) = takenFrom a w notes ++ takenFrom a w more :=
  List.filterMap_append

/-- The only worker numbers its requests one after another. -/
theorem Deal.numbers {count count' : Nat} {point point' : Option (Dispatch × Nat)}
    {ids : List Nat} {pushed dealt : List (Nat × Nat)} {parsed : List Nat}
    (h : Deal count point count' point' parsed pushed)
    (hnumbers : numbered ids = dealt ++ inHand count point)
    (hnext : nextNumber count point = ids.length % 2 ^ 64) :
    numbered (ids ++ parsed) = (dealt ++ pushed) ++ inHand count' point' ∧
      nextNumber count' point' = (ids ++ parsed).length % 2 ^ 64 := by
  cases h with
  | keep =>
    rw [List.append_nil, List.append_nil]
    exact ⟨hnumbers, hnext⟩
  | parse =>
    have hcount : count = ids.length % 2 ^ 64 := hnext
    have hnil : numbered ids = dealt := by rwa [inHand, List.append_nil] at hnumbers
    rw [numbered_append, hnil, List.append_nil, ← hcount, List.length_append]
    refine ⟨rfl, ?_⟩
    rw [nextNumber, hcount, List.length_singleton, Nat.mod_add_mod]
  | delete | load | store =>
    rw [List.append_nil, List.append_nil]
    exact ⟨hnumbers, hnext⟩
  | push =>
    rw [List.append_nil, inHand, List.append_nil]
    exact ⟨hnumbers, hnext⟩

theorem waiting_setQueue {a' w' : Nat} {q : LockQueue.Queue Nat} :
    (s.setQueue a w q).waiting a' w' =
      if a' = a ∧ w' = w then LockQueue.contents q else s.waiting a' w' := by
  by_cases ha : a' = a
  · subst ha
    by_cases hw : w' = w
    · subst hw
      simp [State.waiting, State.setQueue]
    · simp [State.waiting, State.setQueue, hw]
  · simp [State.waiting, State.setQueue, ha]

theorem waiting_setQueue_same {a' w' : Nat} {q : LockQueue.Queue Nat}
    (h : LockQueue.contents q = s.waiting a w) :
    (s.setQueue a w q).waiting a' w' = s.waiting a' w' := by
  rw [waiting_setQueue]
  split
  · rename_i hand
    rw [h, hand.1, hand.2]
  · rfl

/-- A step of a worker that leaves the queues as they are. -/
theorem Deal.dealing {pc : WorkerPc} (hw : w < cfg.workerCount) (hl : takenBy s l = [])
    (hdeal : Deal s.count (s.workers w).point t.count pc.point (parsedIds obs) [])
    (hworker : t.workers w = pc) (hqueues : t.queues = s.queues) : Dealing cfg s l t obs := by
  subst hworker
  refine .worker hw hl hdeal fun a => ?_
  rw [State.waiting, hqueues]
  exact (List.append_nil _).symm

/-- The worker is still without a request. -/
theorem Dealing.idle {pc : WorkerPc} (hw : w < cfg.workerCount) (hl : takenBy s l = [])
    (hpoint : (s.workers w).point = none) (hpoint' : pc.point = none)
    (hworker : t.workers w = pc) (hqueues : t.queues = s.queues) (hcount : t.count = s.count)
    (hobs : parsedIds obs = []) : Dealing cfg s l t obs := by
  refine Deal.dealing hw hl ?_ hworker hqueues
  rw [hpoint, hpoint', hcount, hobs]
  exact .keep

/-- An actor that takes nothing. -/
theorem Dealing.still (hl : takenBy s l = []) (hworkers : t.workers = s.workers)
    (hcount : t.count = s.count) (hobs : parsedIds obs = [])
    (hqueue : ∀ a w, t.waiting a w = s.waiting a w) : Dealing cfg s l t obs := by
  refine .actor hworkers hcount hobs fun a w => ?_
  rw [hl, hqueue]
  rfl

theorem Walk.points {act : WorkerAct} {pc pc' : WorkerPc} (h : Walk cfg w pc act pc') :
    pc.point = none ∧ pc'.point = none := by
  cases h <;> exact ⟨rfl, rfl⟩

theorem ActorWalk.taken {act : ActorAct} {pc pc' : ActorPc} (hpc : s.actors a = pc)
    (h : ActorWalk cfg s a pc act pc') : takenBy s (.actor a act) = [] := by
  cases h <;> simp only [takenBy, hpc]

theorem push_deals {count : Nat} {q : LockQueue.Queue Nat}
    (hq : LockQueue.Represents q (s.waiting (count % cfg.actorCount) w ++ [r])) (a : Nat) :
    (s.setQueue (count % cfg.actorCount) w q).waiting a w =
      s.waiting a w ++ dealtTo cfg a [(count, r)] := by
  rw [waiting_setQueue]
  by_cases ha : a = count % cfg.actorCount
  · subst ha
    rw [if_pos ⟨rfl, rfl⟩, hq.contents_eq]
    simp [dealtTo]
  · rw [if_neg fun hand => ha hand.1]
    simp [dealtTo, Ne.symm ha]

theorem pop_deals {a' w' : Nat} {q : LockQueue.Queue Nat} {items : List Nat}
    (hitems : s.waiting a w = r :: items) (hq : LockQueue.Represents q items) :
    s.waiting a' w' = takenFrom a' w' [(a, w, r)] ++ (s.setQueue a w q).waiting a' w' := by
  rw [waiting_setQueue, hq.contents_eq]
  by_cases hand : a' = a ∧ w' = w
  · obtain ⟨rfl, rfl⟩ := hand
    rw [if_pos ⟨rfl, rfl⟩, hitems]
    simp [takenFrom]
  · have hother : ¬ (a = a' ∧ w = w') := fun h => hand ⟨h.1.symm, h.2.symm⟩
    rw [if_neg hand]
    simp [takenFrom, hother]

theorem Steps.deals (hstep : Steps cfg s k l t obs) (h : Owned cfg s k) :
    Dealing cfg s l t obs := by
  cases hstep with
  | wait hw hpc => exact .idle hw rfl (by rw [hpc]; rfl) rfl (Function.update_self _ _ _) rfl rfl rfl
  | walk hw hwalk =>
    exact .idle hw rfl hwalk.points.1 hwalk.points.2 (Function.update_self _ _ _) rfl rfl rfl
  | fail hw hpc | read hw hpc | readClose hw hpc | write hw hpc | writeClose hw hpc
  | reset hw hpc =>
    exact .idle hw rfl (by rw [hpc]; rfl) rfl (Function.update_self _ _ _) rfl rfl rfl
  | @accept w _ _ _ _ _ _ hw hpc =>
    have hpoint : (s.workers w).point = none := by rw [hpc]; rfl
    exact .idle hw rfl hpoint hpoint rfl rfl rfl rfl
  | parse hw hpc =>
    refine Deal.dealing hw rfl ?_ (Function.update_self _ _ _) rfl
    rw [hpc]
    exact .parse
  | delete hw hpc =>
    refine Deal.dealing hw rfl ?_ (Function.update_self _ _ _) rfl
    rw [hpc]
    exact .delete
  | load hw hpc =>
    refine Deal.dealing hw rfl ?_ (Function.update_self _ _ _) rfl
    rw [hpc]
    exact .load
  | store hw hpc =>
    refine Deal.dealing hw rfl ?_ (Function.update_self _ _ _) rfl
    rw [hpc]
    exact .store
  | @push w r count e rest c c' q hw hpc _ hworker _ _ hpush =>
    have hrep := h.queued.represents (count % cfg.actorCount) w
    obtain ⟨hrep', -⟩ := LockQueue.queuePush_of_success hrep hpush
    refine @Dealing.worker _ _ _ _ _ w [(count, r)] hw rfl ?_ fun a => ?_
    · have hoff : ((s.pushRequest (count % cfg.actorCount) e.ptr r c' q).setWorker w
          (.output e rest)).workers w = .output e rest := Function.update_self _ _ _
      rw [hpc, hoff]
      exact .push
    · subst hworker
      exact push_deals hrep' a
  | actorWalk ha hwalk => exact .still (hwalk.taken rfl) rfl rfl rfl fun _ _ => rfl
  | eventRead ha hpc =>
    exact .still (by simp only [takenBy, hpc]) rfl rfl rfl fun _ _ => waiting_setQueue_same rfl
  | @popNull a _ _ _ ha hpc hpop =>
    have hnone : takenBy s (.actor a .next) = [] := by
      simp only [takenBy, hpc, hpop]
      rfl
    exact .still hnone rfl rfl rfl fun _ _ => rfl
  | pop ha hpc hpop hitems hq =>
    refine .actor rfl rfl rfl fun a' w' => ?_
    simp only [takenBy, hpc, hpop]
    exact pop_deals hitems hq
  | process ha hpc | register ha hpc =>
    exact .still (by simp only [takenBy, hpc]) rfl rfl rfl fun _ _ => rfl

/-- An actor with which the process ends has taken nothing. -/
theorem Ends.taken {h : Halt} (hends : Ends cfg s l h) : takenBy s l = [] := by
  cases hends with
  | queue | event | listener | accept | wait => rfl
  | response ha hpc => simp only [takenBy, hpc]

theorem server_step_deals (h : Owned cfg s k) (htimed : AllTimed k)
    (hstep : (server cfg).step s l = some (t, obs)) : Dealing cfg s l t obs := by
  obtain ⟨-, hsteps | ⟨e, hends, rfl, rfl⟩⟩ := server_step_cases h htimed hstep
  · exact hsteps.deals h
  · exact .still hends.taken rfl rfl rfl fun _ _ => rfl

/-- How the requests of the only worker have been dealt. -/
structure Dealt (cfg : Config) (s : State) (ids : List Nat) (notes : List (Nat × Nat × Nat))
    (dealt : List (Nat × Nat)) : Prop where
  numbers : numbered ids = dealt ++ inHand s.count (s.workers 0).point
  next : nextNumber s.count (s.workers 0).point = ids.length % 2 ^ 64
  queues : ∀ a, dealtTo cfg a dealt = takenFrom a 0 notes ++ s.waiting a 0

theorem Dealt.step {ids : List Nat} {notes : List (Nat × Nat × Nat)} {dealt : List (Nat × Nat)}
    (honly : cfg.workerCount = 1) (h : Dealt cfg s ids notes dealt)
    (hstep : Dealing cfg s l t obs) :
    ∃ dealt', Dealt cfg t (ids ++ parsedIds obs) (notes ++ takenBy s l) dealt' := by
  cases hstep with
  | @worker w pushed hw hl hdeal hqueue =>
    obtain rfl : w = 0 := by omega
    obtain ⟨hnumbers, hnext⟩ := hdeal.numbers h.numbers h.next
    refine ⟨dealt ++ pushed, hnumbers, hnext, fun a => ?_⟩
    rw [dealtTo_append, h.queues, hl, List.append_nil, hqueue, List.append_assoc]
  | actor hworkers hcount hobs hqueue =>
    refine ⟨dealt, ?_, ?_, fun a => ?_⟩
    · rw [hobs, List.append_nil, hworkers, hcount]
      exact h.numbers
    · rw [hobs, List.append_nil, hworkers, hcount]
      exact h.next
    · rw [h.queues, takenFrom_append, List.append_assoc, ← hqueue]

theorem dealing_dealt {tr : List (Obs ⊕ Nat × Nat × Nat)} (honly : cfg.workerCount = 1)
    (h : (dealing cfg).Run s tr) :
    (∃ obs, (server cfg).Run s obs) ∧
      ∃ dealt, Dealt cfg s (parsedIds (Machine.shown tr)) (Machine.noted tr) dealt := by
  induction h with
  | start hi =>
    obtain ⟨clock, rfl⟩ := hi
    refine ⟨⟨[], .start ⟨clock, rfl⟩⟩, [], rfl, rfl, fun a => ?_⟩
    exact (LockQueue.queueInit_represents 1024).contents_eq.symm
  | next l _ hrecord ih =>
    obtain ⟨⟨tr, hrun⟩, dealt, hdealt⟩ := ih
    obtain ⟨obs, hstep, rfl⟩ := Machine.record_step.mp hrecord
    obtain ⟨k, -, hs, htimed⟩ := server_simulates_timed hrun
    rw [Machine.shown_append, Machine.noted_append, parsedIds_append]
    exact ⟨⟨_, hrun.next l hstep⟩, hdealt.step honly (server_step_deals hs htimed hstep)⟩

/-- In every run of a server with one worker the requests go round the actors: each actor
takes those whose number, modulo `2 ^ 64`, leaves its own number, in the order in which
they were parsed. What it has not taken is in its queue, but for the one request that the
worker may have in its hands. -/
theorem worker_deals_round {tr : List (Obs ⊕ Nat × Nat × Nat)} (honly : cfg.workerCount = 1)
    (h : (dealing cfg).Run s tr) (a : Nat) :
    takenFrom a 0 (Machine.noted tr) ++ s.waiting a 0 ++
        dealtTo cfg a (inHand s.count (s.workers 0).point) =
      dealtTo cfg a (numbered (parsedIds (Machine.shown tr))) := by
  obtain ⟨-, dealt, hdealt⟩ := dealing_dealt honly h
  rw [hdealt.numbers, dealtTo_append, hdealt.queues]

/-- Of the requests of three connections the first and the third go to one actor, which
has taken the first, and the second to the other. -/
theorem worker_deals_round_three : ∃ s tr, (dealing twoActorsConfig).Run s tr ∧
    parsedIds (Machine.shown tr) = [1, 3, 5] ∧ takenFrom 0 0 (Machine.noted tr) = [1] ∧
    s.waiting 0 0 = [5] ∧ s.waiting 1 0 = [3] ∧
    (takenFrom 0 0 (Machine.noted tr) ++ s.waiting 0 0 ++
        dealtTo twoActorsConfig 0 (inHand s.count (s.workers 0).point) =
      dealtTo twoActorsConfig 0 (numbered (parsedIds (Machine.shown tr)))) ∧
    (takenFrom 1 0 (Machine.noted tr) ++ s.waiting 1 0 ++
        dealtTo twoActorsConfig 1 (inHand s.count (s.workers 0).point) =
      dealtTo twoActorsConfig 1 (numbered (parsedIds (Machine.shown tr)))) := by
  let again : List Label := [.worker 0 .next, .worker 0 .next]
  have hexec : ((dealing twoActorsConfig).exec (initState twoActorsConfig fun _ => ⟨0, 0⟩)
      (acceptLabels 4 ++ acceptLabels 5 ++ acceptLabels 6 ++
        (readLabels 4 2 (ascii "GET / HTTP/1.1\r\n\r\n") ++ again) ++
        (readLabels 5 4 (ascii "GET / HTTP/1.1\r\n\r\n") ++ again) ++
        readLabels 6 6 (ascii "GET / HTTP/1.1\r\n\r\n") ++ respondLabels)).any (fun x =>
      parsedIds (Machine.shown x.2) = [1, 3, 5] ∧ takenFrom 0 0 (Machine.noted x.2) = [1] ∧
        x.1.waiting 0 0 = [5] ∧ x.1.waiting 1 0 = [3]) = true := by
    decide +kernel
  obtain ⟨⟨s, tr⟩, hs, htr⟩ := (Option.any_eq_true _ _).mp hexec
  obtain ⟨hparsed, htaken, hfirst, hsecond⟩ := of_decide_eq_true htr
  have hrun : (dealing twoActorsConfig).Run s tr := .of_exec ⟨_, rfl⟩ hs
  exact ⟨s, tr, hrun, hparsed, htaken, hfirst, hsecond, worker_deals_round rfl hrun 0,
    worker_deals_round rfl hrun 1⟩

end

end Jullop
