import Jullop.Server

/-! The life of a connection as a server with nothing else to do would run it:
one request at a time, from its bytes to the last byte of its response. The
threads are gone; what is left of them is the stage that the connection is in. -/

namespace Jullop

/-- Who has the connection: the epoll set for input, the worker before and after
it has taken it out of there, the queue of an actor, the actor before and after
its response, or the epoll set for output. -/
inductive Stage
  | input
  | parsed
  | deleted
  | queued (actor : Nat)
  | held (actor : Nat)
  | handled (actor : Nat)
  | output
  deriving DecidableEq, Repr

inductive Connection
  | unborn
  | live (stage : Stage) (c : RequestContext)
  | closed

inductive ConnectionAct
  | accept (fd : Nat) (inputHeap outputHeap : Nat → UInt8) (epollInfo : Nat)
      (clock : Nat → Timespec)
  | read (rs : List ReadResult) (clock : Nat → Timespec)
  | delete
  | push (actor : Nat) (clock : Nat → Timespec)
  | pop
  | handle (clock : Nat → Timespec)
  | register
  | write (ws : List WriteResult) (clock : Nat → Timespec)
  | fail (clock : Nat → Timespec)

namespace Connection

def close (c : RequestContext) (now : Timespec) : Outcome Halt Connection := do
  let _ ← c.recordEnd .totalTime now
  return .closed

def reset (c : RequestContext) (now now' : Timespec) : Outcome Halt Connection := do
  let c ← c.recordEnd .totalTime now
  let c ← (contextFinalizeReset c).recordStart .totalTime now'
  return .live .input c

def afterRead (r : Nat) (state : ReadState) (c : RequestContext) (clock : Nat → Timespec) :
    Outcome Halt (Connection × List Obs) := do
  match state with
  | .readFinish => return (.live .parsed c, [.parsed r c.content])
  | .readBusy => return (.live .input c, [])
  | .readError | .clientDisconnect =>
    let x ← close c (clock 0)
    return (x, [])

def afterWrite (state : WriteState) (c : RequestContext) (clock : Nat → Timespec) :
    Outcome Halt Connection :=
  match state with
  | .writeBusy => .ok (.live .output c)
  | .writeError => close c (clock 0)
  | .writeFinish =>
    if contextKeepAlive c then reset c (clock 0) (clock 1) else close c (clock 0)

def step (r : Nat) : Connection → ConnectionAct → Outcome Halt (Connection × List Obs)
  | .unborn, .accept fd inputHeap outputHeap epollInfo clock => do
    let c ← RequestContext.accept fd inputHeap outputHeap epollInfo clock
    return (.live .input c, [])
  | .live .input c, .read rs clock => do
    let (state, c) ← c.read rs clock
    afterRead r state c fun i => clock (i + 2)
  | .live .parsed c, .delete => .ok (.live .deleted c, [])
  | .live .deleted c, .push a clock => do
    let c ← c.recordStart .queueTime (clock 0)
    return (.live (.queued a) c, [])
  | .live (.queued a) c, .pop => .ok (.live (.held a) c, [])
  | .live (.held a) c, .handle clock => do
    let c' ← c.process clock
    return (.live (.handled a) c',
      [.handled r c.content c.outputBuffer.writeFromOffset c.outputBuffer.writeIntoOffset
        c'.outputBuffer.content])
  | .live (.handled _) c, .register => .ok (.live .output c, [])
  | .live .output c, .write ws clock => do
    let (state, bytes, c) ← c.write ws clock
    let x ← afterWrite state c fun i => clock (i + 2)
    return (x, [.wrote (some (.connection r)) bytes])
  | .live .input c, .fail clock => do
    let x ← close c (clock 0)
    return (x, [])
  | .live .output c, .fail clock => do
    let x ← close c (clock 0)
    return (x, [])
  | _, _ => .disabled

/-- What `total_requests_processed` counts: that a connection is closed, or reset
behind a response. -/
def finished : Connection → Connection → Int
  | .live _ _, .closed => 1
  | .live .output _, .live .input _ => 1
  | _, _ => 0

theorem close_eq_ok {c : RequestContext} {now : Timespec} {y : Connection}
    (h : close c now = .ok y) : y = .closed := by
  simp only [close, Outcome.bind_eq_ok, Outcome.pure_eq, Outcome.ok.injEq] at h
  obtain ⟨_, -, rfl⟩ := h
  rfl

/-- What a step of a connection can be. -/
inductive Transition (r : Nat) : Connection → Connection → List Obs → Prop
  | accept {fd epollInfo : Nat} {inputHeap outputHeap : Nat → UInt8} {clock : Nat → Timespec}
      {c : RequestContext} : RequestContext.accept fd inputHeap outputHeap epollInfo clock = .ok c →
      Transition r .unborn (.live .input c) []
  | parse {c c' : RequestContext} {rs : List ReadResult} {clock : Nat → Timespec} :
      c.read rs clock = .ok (.readFinish, c') →
      Transition r (.live .input c) (.live .parsed c') [.parsed r c'.content]
  | read {c c' : RequestContext} {rs : List ReadResult} {clock : Nat → Timespec} :
      c.read rs clock = .ok (.readBusy, c') → Transition r (.live .input c) (.live .input c') []
  | readFail {c : RequestContext} : Transition r (.live .input c) .closed []
  | delete {c : RequestContext} : Transition r (.live .parsed c) (.live .deleted c) []
  | push {a : Nat} {c c' : RequestContext} {now : Timespec} :
      c.recordStart .queueTime now = .ok c' →
      Transition r (.live .deleted c) (.live (.queued a) c') []
  | pop {a : Nat} {c : RequestContext} : Transition r (.live (.queued a) c) (.live (.held a) c) []
  | handle {a : Nat} {c c' : RequestContext} {clock : Nat → Timespec} : c.process clock = .ok c' →
      Transition r (.live (.held a) c) (.live (.handled a) c')
        [.handled r c.content c.outputBuffer.writeFromOffset c.outputBuffer.writeIntoOffset
          c'.outputBuffer.content]
  | register {a : Nat} {c : RequestContext} :
      Transition r (.live (.handled a) c) (.live .output c) []
  | write {c c' : RequestContext} {ws : List WriteResult} {bytes : List UInt8}
      {clock : Nat → Timespec} : c.write ws clock = .ok (.writeBusy, bytes, c') →
      Transition r (.live .output c) (.live .output c') [.wrote (some (.connection r)) bytes]
  | writeClose {c c' : RequestContext} {ws : List WriteResult} {state : WriteState}
      {bytes : List UInt8} {clock : Nat → Timespec} : c.write ws clock = .ok (state, bytes, c') →
      Transition r (.live .output c) .closed [.wrote (some (.connection r)) bytes]
  | reset {c c' d d' : RequestContext} {ws : List WriteResult} {bytes : List UInt8}
      {clock : Nat → Timespec} {now now' : Timespec} :
      c.write ws clock = .ok (.writeFinish, bytes, c') → c'.recordEnd .totalTime now = .ok d →
      (contextFinalizeReset d).recordStart .totalTime now' = .ok d' →
      Transition r (.live .output c) (.live .input d') [.wrote (some (.connection r)) bytes]
  | writeFail {c : RequestContext} : Transition r (.live .output c) .closed []

theorem step_cases {r : Nat} {x y : Connection} {act : ConnectionAct} {obs : List Obs}
    (hs : x.step r act = .ok (y, obs)) : Transition r x y obs := by
  fun_cases Connection.step r x act with
  | case1 fd inputHeap outputHeap epollInfo clock =>
    simp only [Connection.step, Outcome.bind_eq_ok, Outcome.pure_eq, Outcome.ok.injEq,
      Prod.mk.injEq] at hs
    obtain ⟨c, hc, rfl, rfl⟩ := hs
    exact .accept hc
  | case2 c rs clock =>
    simp only [Connection.step, Outcome.bind_eq_ok, Prod.exists] at hs
    obtain ⟨state, c', hc, hs⟩ := hs
    cases state with
    | readFinish =>
      cases hs
      exact .parse hc
    | readBusy =>
      cases hs
      exact .read hc
    | readError | clientDisconnect =>
      simp only [afterRead, Outcome.bind_eq_ok, Outcome.pure_eq, Outcome.ok.injEq,
        Prod.mk.injEq] at hs
      obtain ⟨y, hy, rfl, rfl⟩ := hs
      rw [close_eq_ok hy]
      exact .readFail
  | case3 c =>
    cases hs
    exact .delete
  | case4 c a clock =>
    simp only [Connection.step, Outcome.bind_eq_ok, Outcome.pure_eq, Outcome.ok.injEq,
      Prod.mk.injEq] at hs
    obtain ⟨c', hc, rfl, rfl⟩ := hs
    exact .push hc
  | case5 a c =>
    cases hs
    exact .pop
  | case6 a c clock =>
    simp only [Connection.step, Outcome.bind_eq_ok, Outcome.pure_eq, Outcome.ok.injEq,
      Prod.mk.injEq] at hs
    obtain ⟨c', hc, rfl, rfl⟩ := hs
    exact .handle hc
  | case7 a c =>
    cases hs
    exact .register
  | case8 c ws clock =>
    simp only [Connection.step, Outcome.bind_eq_ok, Outcome.pure_eq, Outcome.ok.injEq,
      Prod.mk.injEq, Prod.exists] at hs
    obtain ⟨state, bytes, c', hc, y, hy, rfl, rfl⟩ := hs
    cases state with
    | writeBusy =>
      cases hy
      exact .write hc
    | writeError =>
      rw [close_eq_ok hy]
      exact .writeClose hc
    | writeFinish =>
      simp only [afterWrite] at hy
      split at hy
      · simp only [Connection.reset, Outcome.bind_eq_ok, Outcome.pure_eq, Outcome.ok.injEq] at hy
        obtain ⟨d, hd, d', hd', rfl⟩ := hy
        exact .reset hc hd hd'
      · rw [close_eq_ok hy]
        exact .writeClose hc
  | case9 c clock =>
    simp only [Connection.step, Outcome.bind_eq_ok, Outcome.pure_eq, Outcome.ok.injEq,
      Prod.mk.injEq] at hs
    obtain ⟨y, hy, rfl, rfl⟩ := hs
    rw [close_eq_ok hy]
    exact .readFail
  | case10 c clock =>
    simp only [Connection.step, Outcome.bind_eq_ok, Outcome.pure_eq, Outcome.ok.injEq,
      Prod.mk.injEq] at hs
    obtain ⟨y, hy, rfl, rfl⟩ := hs
    rw [close_eq_ok hy]
    exact .writeFail
  | case11 => simp [Connection.step] at hs

end Connection

/-- Any number of connections, each on its own. -/
def connections : Machine (Nat → Connection) (Nat × ConnectionAct) Obs where
  init k := ∀ r, k r = .unborn
  step k
    | (r, act) =>
      match (k r).step r act with
      | .ok (x, obs) => some (Function.update k r x, obs)
      | _ => none

/-- What each step of a connection keeps holds of every connection. -/
theorem connections_each {P : Connection → Prop} (start : P .unborn)
    (next : ∀ r x act y obs, P x → Connection.step r x act = .ok (y, obs) → P y)
    {k : Nat → Connection} {tr : List Obs} (h : connections.Run k tr) (r : Nat) : P (k r) := by
  refine h.invariant (fun k _ => ∀ r, P (k r)) ?_ ?_ r
  · intro k hk r
    rw [hk r]
    exact start
  · rintro k tr ⟨r, act⟩ k' obs hk hs r'
    simp only [connections] at hs
    split at hs
    case h_2 => cases hs
    case h_1 x o hx =>
      cases hs
      by_cases hr : r' = r
      · subst hr
        rw [Function.update_self]
        exact next r' (k r') act x obs (hk r') hx
      · rw [Function.update_of_ne hr]
        exact hk r'

end Jullop
