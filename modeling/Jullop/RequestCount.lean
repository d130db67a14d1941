import Jullop.Refinement

/-! What `total_requests_processed` counts: the requests whose handling has ended,
and the connections that are closed without one. -/

namespace Jullop

namespace State

/-- A request of the connection `r` is in service: the connection is not
registered, or it is for output, or its worker has parsed the request and not yet
taken it out of the epoll set. -/
def serving (s : State) (r : Nat) : Bool :=
  match s.requests r with
  | none => false
  | some c =>
    match s.epoll c.epollInfo c.fd with
    | none => true
    | some reg => reg.events.epollout || (s.workers c.epollInfo).hand = some (.parsed, r)

def servingCount (s : State) : Nat := (List.range s.next).countP s.serving

/-- The connections that a step from `s` to `t` closes while they wait for a
request. -/
def closedIdle (s t : State) : List Nat :=
  (List.range s.next).filter fun r => (s.requests r).isSome && !s.serving r && (t.requests r).isNone

end State

/-- The server, with a note on each connection that is closed without a request. -/
def countedServer (cfg : Config) : Machine State Label (Obs ⊕ Nat) :=
  (server cfg).annotate State.closedIdle

def Obs.isParsed : Obs → Bool
  | .parsed _ _ => true
  | _ => false

namespace Trace

def parsedCount (tr : List (Obs ⊕ Nat)) : Nat := tr.countP (Sum.elim Obs.isParsed fun _ => false)

def idleCloseCount (tr : List (Obs ⊕ Nat)) : Nat := tr.countP Sum.isRight

theorem parsedCount_step (tr : List (Obs ⊕ Nat)) (obs : List Obs) (closed : List Nat) :
    parsedCount (tr ++ (obs.map .inl ++ closed.map .inr)) =
      parsedCount tr + obs.countP Obs.isParsed := by
  have hright : (closed.map (Sum.inr : Nat → Obs ⊕ Nat)).countP
      (Sum.elim Obs.isParsed fun _ => false) = 0 := by
    simp
  rw [parsedCount, List.countP_append, List.countP_append, List.countP_map, hright, Nat.add_zero]
  rfl

theorem idleCloseCount_step (tr : List (Obs ⊕ Nat)) (obs : List Obs) (closed : List Nat) :
    idleCloseCount (tr ++ (obs.map .inl ++ closed.map .inr)) =
      idleCloseCount tr + closed.length := by
  have hleft : (obs.map (Sum.inl : Obs → Obs ⊕ Nat)).countP Sum.isRight = 0 := by
    simp [List.countP_eq_zero]
  have hright : (closed.map (Sum.inr : Nat → Obs ⊕ Nat)).countP Sum.isRight = closed.length := by
    simp [List.countP_map, Function.comp_def]
  rw [idleCloseCount, List.countP_append, List.countP_append, hleft, hright, Nat.zero_add]
  rfl

end Trace

namespace Connection

def serving : Connection → Bool
  | .live .input _ => false
  | .live _ _ => true
  | _ => false

def closedIdle (x y : Connection) : Bool := x.context.isSome && !x.serving && y.context.isNone

variable {r : Nat} {x y : Connection} {obs : List Obs}

/-- What a step adds to the count and takes from the requests in service is what
it parses, or a connection that is closed without a request. -/
def Balanced (x y : Connection) (obs : List Obs) : Prop :=
  finished x y + y.serving.toNat =
    x.serving.toNat + obs.countP Obs.isParsed + (closedIdle x y).toNat

theorem step_balanced {act : ConnectionAct} (hs : x.step r act = .ok (y, obs)) :
    Balanced x y obs := by
  cases step_cases hs <;> rfl

end Connection

/-- The number of places where a predicate holds changes by the one place where
two of them differ. -/
theorem countP_range_update {p q : Nat → Bool} {r n : Nat} (hr : r < n)
    (h : ∀ i, i ≠ r → q i = p i) :
    (List.range n).countP q + (p r).toNat = (List.range n).countP p + (q r).toNat := by
  induction n with
  | zero => omega
  | succ n ih =>
    have hsnoc : ∀ f : Nat → Bool,
        (List.range (n + 1)).countP f = (List.range n).countP f + (f n).toNat := by
      intro f
      rw [List.range_succ, List.countP_append, List.countP_singleton]
      cases f n <;> rfl
    rw [hsnoc q, hsnoc p]
    by_cases hn : r = n
    · subst hn
      have hsame : (List.range r).countP q = (List.range r).countP p := by
        refine List.countP_congr fun i hi => ?_
        rw [h i (by have := List.mem_range.mp hi; omega)]
      omega
    · have hlast := h n (Ne.symm hn)
      have hrest := ih (by omega)
      rw [hlast]
      omega

section

variable {cfg : Config} {s t : State} {k : Nat → Connection} {r : Nat}

theorem Owned.serving_eq (h : Owned cfg s k) (r : Nat) : s.serving r = (k r).serving := by
  have hreq := h.wired.requests r
  cases hk : k r with
  | unborn | closed =>
    simp [State.serving, hreq, hk, Connection.context, Connection.serving]
  | live st c =>
    rw [hk, Connection.context] at hreq
    have hlink := h.wired.registered r st c hk
    cases st with
    | input =>
      obtain ⟨p, hreg, -⟩ := hlink
      have hhand : (s.workers c.epollInfo).hand ≠ some (.parsed, r) :=
        h.handed.not_worker hk rfl c.epollInfo
      simp [State.serving, hreq, hreg, hhand, Connection.serving, Events.inputMask]
    | parsed =>
      obtain ⟨p, hreg, -⟩ := hlink
      have hhand := (h.handed.workers c.epollInfo .parsed r).mpr
        ⟨by rw [hk, Connection.place], rfl⟩
      simp [State.serving, hreq, hreg, hhand, Connection.serving]
    | output =>
      obtain ⟨p, hreg, -⟩ := hlink
      simp [State.serving, hreq, hreg, Connection.serving, Events.outputMask]
    | deleted | queued _ | held _ | handled _ =>
      have hnone : s.epoll c.epollInfo c.fd = none := hlink
      simp [State.serving, hreq, hnone, Connection.serving]

/-- Behind the last connection none is in service. -/
theorem Owned.servingCount_eq (h : Owned cfg s k) {n : Nat} (hn : s.next ≤ n) :
    s.servingCount = (List.range n).countP fun r => (k r).serving := by
  obtain ⟨d, rfl⟩ := Nat.exists_eq_add_of_le hn
  have hbehind : ((List.range d).map (s.next + ·)).countP (fun r => (k r).serving) = 0 := by
    rw [List.countP_eq_zero]
    intro r hr
    obtain ⟨i, -, rfl⟩ := List.mem_map.mp hr
    simp [h.wired.unborn (s.next + i) (by omega), Connection.serving]
  rw [State.servingCount, List.range_add, List.countP_append, hbehind, Nat.add_zero]
  exact List.countP_congr fun r _ => by rw [h.serving_eq]

variable {x : Connection}

theorem Owned.servingCount_update (hs : Owned cfg s k) (ht : Owned cfg t (Function.update k r x)) :
    t.servingCount + (k r).serving.toNat = s.servingCount + x.serving.toNat := by
  have hcount := countP_range_update (p := fun i => (k i).serving)
    (q := fun i => (Function.update k r x i).serving) (r := r)
    (n := s.next + t.next + (r + 1)) (by omega) (fun i hi => by rw [Function.update_of_ne hi])
  rw [hs.servingCount_eq (n := s.next + t.next + (r + 1)) (by omega),
    ht.servingCount_eq (n := s.next + t.next + (r + 1)) (by omega)]
  simpa using hcount

theorem Owned.closedIdle_length (hs : Owned cfg s k) (ht : Owned cfg t (Function.update k r x)) :
    (s.closedIdle t).length = ((k r).closedIdle x).toNat := by
  have hidle : s.closedIdle t =
      (List.range s.next).filter fun i => (k i).closedIdle (Function.update k r x i) := by
    refine List.filter_congr fun i _ => ?_
    rw [hs.serving_eq, hs.wired.requests, ht.wired.requests, Connection.closedIdle]
  have hother : ∀ i, i ≠ r → (k i).closedIdle (Function.update k r x i) = false := by
    intro i hi
    rw [Function.update_of_ne hi, Connection.closedIdle]
    cases (k i).context <;> simp
  rw [hidle, ← List.countP_eq_length_filter]
  by_cases hr : r < s.next
  · have hcount := countP_range_update (p := fun _ => false)
      (q := fun i => (k i).closedIdle (Function.update k r x i)) hr hother
    simpa using hcount
  · have hzero : (k r).closedIdle x = false := by
      rw [hs.wired.unborn r (by omega)]
      rfl
    rw [hzero, Bool.toNat_false, List.countP_eq_zero]
    intro i hi
    rw [hother i (by have := List.mem_range.mp hi; omega)]
    nofun

/-- One step of the server, from the step of the connection that it is. -/
theorem server_step_balance {l : Label} {obs : List Obs} (hs : Owned cfg s k)
    (htimed : AllTimed k) (hstep : (server cfg).step s l = some (t, obs)) :
    t.total + t.servingCount = s.total + s.servingCount + obs.countP Obs.isParsed +
      (s.closedIdle t).length := by
  rcases server_step hs htimed hstep with ⟨hobs, ht, htotal⟩ | ⟨r, act, x, hx, ht, htotal⟩
  · dsimp only at hobs ht htotal
    have ht' : Owned cfg t (Function.update k 0 (k 0)) := by rwa [Function.update_eq_self]
    have hserving := hs.servingCount_update ht'
    have hclosed := hs.closedIdle_length ht'
    have hidle : (k 0).closedIdle (k 0) = false := by
      rw [Connection.closedIdle]
      cases (k 0).context <;> simp
    rw [hidle] at hclosed
    simp only [hobs, List.countP_nil, hclosed, htotal, Bool.toNat_false]
    omega
  · dsimp only at hx ht htotal
    have hbalanced : Connection.Balanced (k r) x obs := Connection.step_balanced hx
    have hserving := hs.servingCount_update ht
    have hclosed := hs.closedIdle_length ht
    rw [Connection.Balanced] at hbalanced
    rw [htotal, hclosed]
    omega

theorem total_balance {tr : List (Obs ⊕ Nat)} (h : (countedServer cfg).Run s tr) :
    s.total + s.servingCount = Trace.parsedCount tr + Trace.idleCloseCount tr := by
  induction h with
  | start hi =>
    obtain ⟨clock, rfl⟩ := hi
    have hnone : (initState cfg clock).servingCount = 0 := by
      rw [State.servingCount, List.countP_eq_zero]
      intro r _
      simp [State.serving, initState]
    rw [hnone]
    rfl
  | next l hrun hs ih =>
    obtain ⟨k, -, howned, htimed⟩ := server_simulates_timed hrun.of_annotate
    obtain ⟨obs, hstep, rfl⟩ := Machine.annotate_step.mp hs
    have hbalance := server_step_balance howned htimed hstep
    rw [Trace.parsedCount_step, Trace.idleCloseCount_step]
    omega

/-- The counter is the number of requests whose handling has ended as long as no
connection is closed while it waits for a request. -/
theorem total_counts_requests_iff {tr : List (Obs ⊕ Nat)} (h : (countedServer cfg).Run s tr) :
    s.stats.totalRequestsProcessed = Trace.parsedCount tr - s.servingCount ↔
      ∀ r, Sum.inr r ∉ tr := by
  have hbalance := total_balance h
  rw [State.total] at hbalance
  have hidle : Trace.idleCloseCount tr = 0 ↔ ∀ r, Sum.inr r ∉ tr := by
    rw [Trace.idleCloseCount, List.countP_eq_zero]
    constructor
    · intro hall r hr
      exact hall _ hr rfl
    · rintro hall (o | r) hr
      · nofun
      · exact absurd hr (hall r)
  rw [← hidle]
  omega

end

/-- One request is answered, and its connection closed behind the response. -/
theorem total_counts_requests_iff_answered : ∃ s tr, (countedServer smallConfig).Run s tr ∧
    s.stats.totalRequestsProcessed = 1 ∧
    s.stats.totalRequestsProcessed = Trace.parsedCount tr - s.servingCount := by
  have hexec : ((countedServer smallConfig).exec (initState smallConfig fun _ => ⟨0, 0⟩)
      (acceptLabels 4 ++ readLabels 4 2 (ascii "GET / HTTP/1.1\r\n\r\n") ++ respondLabels ++
        writeLabels 4 3 [.accepted 58])).any (fun x =>
      x.1.stats.totalRequestsProcessed = 1 ∧ x.2.all Sum.isLeft = true) = true := by
    decide +kernel
  obtain ⟨⟨s, tr⟩, hs, htr⟩ := (Option.any_eq_true _ _).mp hexec
  obtain ⟨htotal, hleft⟩ := of_decide_eq_true htr
  have hrun : (countedServer smallConfig).Run s tr := .of_exec ⟨_, rfl⟩ hs
  have hnone : ∀ r, Sum.inr r ∉ tr := by
    intro r hr
    cases List.all_eq_true.mp hleft _ hr
  exact ⟨s, tr, hrun, htotal, (total_counts_requests_iff hrun).mpr hnone⟩

/-- A client that disconnects without a request is counted. -/
theorem total_counts_disconnect : ¬ ∀ cfg s tr, (countedServer cfg).Run s tr →
    s.stats.totalRequestsProcessed = Trace.parsedCount tr - s.servingCount := by
  intro hall
  have hexec : ((countedServer smallConfig).exec (initState smallConfig fun _ => ⟨0, 0⟩)
      (acceptLabels 4 ++ [.worker 0 (.wait [readable 4 2]), .worker 0 (.read [.endOfStream])])).any
      (fun x => x.1.stats.totalRequestsProcessed = 1 ∧ Trace.parsedCount x.2 = 0 ∧
        x.1.servingCount = 0) = true := by
    decide +kernel
  obtain ⟨⟨s, tr⟩, hs, htr⟩ := (Option.any_eq_true _ _).mp hexec
  obtain ⟨htotal, hparsed, hserving⟩ := of_decide_eq_true htr
  have hrun : (countedServer smallConfig).Run s tr := .of_exec ⟨_, rfl⟩ hs
  have hclaim := hall smallConfig s tr hrun
  rw [htotal, hparsed, hserving] at hclaim
  exact absurd hclaim (by decide)

end Jullop
