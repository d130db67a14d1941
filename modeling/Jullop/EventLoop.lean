import Jullop.Refinement

/-! The batches of `io_event_loop`: handlers release contexts while the events of the
batch still point to some, and what is still to come is never among the released. -/

namespace Jullop

/-- The event can be handled: its socket context and the request of that are not
released, and there is a handler for each of its bits. -/
structure State.Usable (s : State) (e : Event) (context : SocketContext) : Prop where
  socket : s.sockets e.ptr = some context
  request : ∀ r, context.data = .ptr r → s.requests r ≠ none
  errorHandler : e.events.error = true → context.errorHandler ≠ none
  inputHandler : e.events.epollin = true → context.inputHandler ≠ none
  outputHandler : e.events.epollout = true → context.outputHandler ≠ none

variable {cfg : Config} {s : State} {k : Nat → Connection} {w : Nat} {e : Event}

theorem Source.usable (h : Source cfg s k w e) (howned : Owned cfg s k) :
    ∃ context, s.Usable e context := by
  cases h with
  | listener _ _ hout hs =>
    refine ⟨_, hs, ?_, fun _ => nofun, fun _ => nofun, ?_⟩
    · intro r hdata
      cases hdata
    · intro hout'
      rw [hout] at hout'
      cases hout'
  | input hk _ _ hout _ hs =>
    refine ⟨_, hs, ?_, fun _ => nofun, fun _ => nofun, ?_⟩
    · intro r hdata
      cases hdata
      rw [(howned.wired.live hk).1]
      nofun
    · intro hout'
      rw [hout] at hout'
      cases hout'
  | output hk _ _ hin _ hs =>
    refine ⟨_, hs, ?_, fun _ => nofun, ?_, fun _ => nofun⟩
    · intro r hdata
      cases hdata
      rw [(howned.wired.live hk).1]
      nofun
    · intro hin'
      rw [hin] at hin'
      cases hin'

/-- Whatever the handlers and the actors have done since `epoll_wait` returned, the
events of the batch that are still to come can be handled; the event of a handler
that has run is one of them only when it is for output. -/
theorem event_loop_uses_live {tr : List Obs} (h : (server cfg).Run s tr) :
    s.halted ≠ some .invalidAccess ∧
    (∀ w, ∀ e ∈ (s.workers w).pending, ∃ context, s.Usable e context) ∧
    ∀ l t obs, (server cfg).step s l = some (t, obs) → t.halted ≠ some .invalidAccess := by
  obtain ⟨k, -, howned⟩ := server_simulates h
  refine ⟨howned.halted.2.1, ?_, ?_⟩
  · intro w e hm
    exact (howned.source hm).usable howned
  · intro l t obs hstep
    obtain ⟨k', -, howned'⟩ := server_simulates (h.next l hstep)
    exact howned'.halted.2.1

/-- The first event of a batch closes its connection, the listener's is still to
come. -/
theorem event_loop_uses_live_closed : ∃ s tr context, (server smallConfig).Run s tr ∧
    s.sockets 2 = none ∧ s.requests 1 = none ∧ readable 3 0 ∈ (s.workers 0).pending ∧
    s.Usable (readable 3 0) context := by
  have hexec : ((server smallConfig).exec (initState smallConfig fun _ => ⟨0, 0⟩)
      (acceptLabels 4 ++ [.worker 0 (.wait [readable 4 2, readable 3 0]),
        .worker 0 (.read [.endOfStream])])).any (fun x =>
      (x.1.sockets 2).isNone && (x.1.requests 1).isNone &&
        decide (readable 3 0 ∈ (x.1.workers 0).pending)) = true := by
    decide +kernel
  obtain ⟨⟨s, tr⟩, hs, hclosed⟩ := (Option.any_eq_true _ _).mp hexec
  simp only [Bool.and_eq_true, Option.isNone_iff_eq_none, decide_eq_true_eq] at hclosed
  obtain ⟨⟨hsocket, hrequest⟩, hpending⟩ := hclosed
  have hrun := server_run_exec hs
  obtain ⟨context, husable⟩ := (event_loop_uses_live hrun).2.1 0 _ hpending
  exact ⟨s, tr, context, hrun, hsocket, hrequest, hpending, husable⟩

end Jullop
