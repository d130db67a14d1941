import Jullop.Ownership

/-! The ways in which a connection changes hands, each as a change of the state of
the server that keeps `Owned`. -/

namespace Jullop

section

variable {cfg : Config} {s t : State} {k : Nat → Connection} {r w fd : Nat}
  {c c' : RequestContext} {st : Stage}

theorem WorkerPc.not_dispatching {pc : WorkerPc} (h : pc.hand = none) (point : Dispatch)
    (e : Event) (rest : List Event) : pc ≠ .dispatching point r e rest := by
  rintro rfl
  cases point <;> cases h

theorem WorkerPc.hand_parsed {pc : WorkerPc} (h : pc.hand = some (.parsed, r)) :
    ∃ e rest, pc = .dispatching .delete r e rest := by
  cases pc with
  | dispatching point r' e rest =>
    cases point with
    | delete =>
      cases h
      exact ⟨e, rest, rfl⟩
    | load | store _ | push _ => cases h
  | waiting | batch | output | accepting => cases h

theorem Registered.congr {st : Stage} (h : Registered s r c st) (hfd : c'.fd = c.fd)
    (hw : c'.epollInfo = c.epollInfo) (hepoll : t.epoll = s.epoll)
    (hsockets : t.sockets = s.sockets) : Registered t r c' st := by
  cases st <;> simpa only [Registered, hfd, hw, hepoll, hsockets] using h

theorem Owned.setRequest (h : Owned cfg s k) (hk : k r = .live st c) (hfd : c'.fd = c.fd)
    (hw : c'.epollInfo = c.epollInfo) :
    Owned cfg (s.setRequest r c') (Function.update k r (.live st c')) := by
  obtain ⟨hwired, hhanded, hqueued, hbatched, hok⟩ := h
  have he : Elsewhere s (s.setRequest r c') r c.epollInfo c.fd :=
    ⟨Nat.le_refl _, fun r' hr => Function.update_of_ne hr _ _, fun p x hp _ => hp,
      fun _ _ => rfl, fun _ _ _ => rfl⟩
  refine ⟨?_, ?_, ⟨hqueued.represents, hqueued.maxSize, hqueued.nodup⟩, ?_, hok⟩
  · refine hwired.stay hk he rfl hwired.sockets_lt (by simp [State.setRequest]) hfd hw ?_
    exact (hwired.registered r st c hk).congr hfd hw rfl rfl
  · refine hhanded.of_place (fun _ => rfl) (fun _ => rfl) (fun _ _ => rfl) ?_
    rw [hk, Connection.place, Connection.place, hw]
  · refine ⟨hbatched.nodup, hbatched.pending, hbatched.accepting, ?_⟩
    intro w' point r' e rest hpc
    obtain ⟨hsock, hdel⟩ := hbatched.dispatching w' point r' e rest hpc
    refine ⟨hsock, fun hp => ?_⟩
    obtain ⟨c0, hk0, hreg, hnot⟩ := hdel hp
    by_cases hr : r' = r
    · subst hr
      rw [hk] at hk0
      cases hk0
      exact ⟨c', Function.update_self _ _ _, by rw [hfd]; exact hreg, by rw [hfd]; exact hnot⟩
    · exact ⟨c0, by rw [Function.update_of_ne hr, hk0], hreg, hnot⟩

/-- The registration, the descriptor and the memory of a connection are given
up. -/
def State.drop (s : State) (p r w fd : Nat) : State :=
  { s.setEpoll w fd none with
    files := Function.update s.files fd none
    requests := Function.update s.requests r none
    sockets := Function.update s.sockets p none }

theorem Owned.sockets_ne {context : SocketContext} (h : Owned cfg s k) {p : Nat}
    (hs : s.sockets p = some context) : p < s.next := by
  by_contra hge
  rw [h.wired.sockets_lt p (by omega)] at hs
  cases hs

theorem Owned.drop {p : Nat} {context : SocketContext} (h : Owned cfg s k)
    (hk : k r = .live st c) (hst : st.registered = true) (hs : s.sockets p = some context)
    (hdata : context.data = .ptr r) (hhand : (s.workers c.epollInfo).hand = none)
    (hpending : ∀ e ∈ (s.workers c.epollInfo).pending, e.fd ≠ c.fd) :
    Owned cfg (s.drop p r c.epollInfo c.fd) (Function.update k r .closed) := by
  obtain ⟨hwired, hhanded, hqueued, hbatched, hok⟩ := h
  have he : Elsewhere s (s.drop p r c.epollInfo c.fd) r c.epollInfo c.fd := by
    refine ⟨Nat.le_refl _, fun r' hr => Function.update_of_ne hr _ _, ?_,
      fun fd' hfd => Function.update_of_ne hfd _ _, fun w' fd' hat => State.setEpoll_other _ _ hat⟩
    refine fun p' context' => State.sockets_other none ?_
    intro context' hs'
    rw [hs] at hs'
    cases hs'
    exact hdata
  refine ⟨?_, ?_, ⟨hqueued.represents, hqueued.maxSize, hqueued.nodup⟩, ?_, hok⟩
  · refine hwired.leave hk he ?_ (by simp [State.drop]) (by simp [State.drop]) ?_
    · intro p' hp'
      by_cases hpp : p' = p
      · subst hpp
        simp [State.drop]
      · exact (Function.update_of_ne hpp _ _).trans (hwired.sockets_lt p' hp')
    · exact State.setEpoll_same _ _ _ _
  · refine hhanded.of_registered (fun _ => rfl) rfl rfl ?_ ?_
    · exact fun st' w' hp => (Connection.place_live hk hp).1 ▸ hst
    · intro st' w' hp
      cases hp
  · refine hbatched.worker hhanded he (fun _ _ => rfl) ?_ (List.Sublist.refl _) hpending ?_ ?_
    · exact fun st' w' hp => (Connection.place_live hk hp).2
    · exact hbatched.accepting c.epollInfo
    · intro point r' e rest hpc
      exact absurd hpc (WorkerPc.not_dispatching hhand point e rest)

theorem Owned.rearm {p : Nat} (h : Owned cfg s k) (hk : k r = .live .output c)
    (hs : s.sockets p = some (writeContext r c.epollInfo))
    (hhand : (s.workers c.epollInfo).hand = none)
    (hpending : ∀ e ∈ (s.workers c.epollInfo).pending, e.fd ≠ c.fd) :
    Owned cfg ((s.setSocket p (readContext r c.epollInfo)).setEpoll c.epollInfo c.fd
      (some ⟨.inputMask, p⟩)) (Function.update k r (.live .input c)) := by
  have hp := h.sockets_ne hs
  obtain ⟨hwired, hhanded, hqueued, hbatched, hok⟩ := h
  have he : Elsewhere s ((s.setSocket p (readContext r c.epollInfo)).setEpoll c.epollInfo c.fd
      (some ⟨.inputMask, p⟩)) r c.epollInfo c.fd := by
    refine ⟨Nat.le_refl _, fun _ _ => rfl, ?_, fun _ _ => rfl,
      fun w' fd' hat => State.setEpoll_other _ _ hat⟩
    refine fun p' context' => State.sockets_other _ ?_
    intro context' hs'
    rw [hs] at hs'
    cases hs'
    rfl
  refine ⟨?_, ?_, ⟨hqueued.represents, hqueued.maxSize, hqueued.nodup⟩, ?_, hok⟩
  · refine hwired.stay hk he rfl ?_ ?_ rfl rfl ⟨p, ?_, ?_⟩
    · intro p' hp'
      have hpp : p' ≠ p := by
        have hle : s.next ≤ p' := hp'
        omega
      exact (Function.update_of_ne hpp _ _).trans (hwired.sockets_lt p' hp')
    · exact (hwired.live hk).1
    · exact State.setEpoll_same _ _ _ _
    · exact Function.update_self _ _ _
  · refine hhanded.of_registered (fun _ => rfl) rfl rfl ?_ ?_
    · exact fun st' w' hp => (Connection.place_live hk hp).1 ▸ rfl
    · intro st' w' hp
      cases hp
      rfl
  · refine hbatched.worker hhanded he (fun _ _ => rfl) ?_ (List.Sublist.refl _) hpending ?_ ?_
    · exact fun st' w' hp => (Connection.place_live hk hp).2
    · exact hbatched.accepting c.epollInfo
    · intro point r' e rest hpc
      exact absurd hpc (WorkerPc.not_dispatching hhand point e rest)

theorem Owned.take {e : Event} {rest : List Event} (h : Owned cfg s k)
    (hk : k r = .live .input c) (hreg : s.epoll c.epollInfo c.fd = some ⟨.inputMask, e.ptr⟩)
    (hs : s.sockets e.ptr = some (readContext r c.epollInfo))
    (hhand : (s.workers c.epollInfo).hand = none) (hout : e.events.epollout = false)
    (hsub : rest.Sublist (s.workers c.epollInfo).pending) (hpending : ∀ e' ∈ rest, e'.fd ≠ c.fd) :
    Owned cfg (s.setWorker c.epollInfo (.dispatching .delete r e rest))
      (Function.update k r (.live .parsed c)) := by
  obtain ⟨hwired, hhanded, hqueued, hbatched, hok⟩ := h
  have hrest : (WorkerPc.dispatching .delete r e rest).pending = rest := by
    simp [WorkerPc.pending, hout]
  have he : Elsewhere s (s.setWorker c.epollInfo (.dispatching .delete r e rest)) r c.epollInfo
      c.fd := ⟨Nat.le_refl _, fun _ _ => rfl, fun _ _ hp _ => hp, fun _ _ => rfl, fun _ _ _ => rfl⟩
  refine ⟨?_, ?_, ⟨hqueued.represents, hqueued.maxSize, hqueued.nodup⟩, ?_, hok⟩
  · refine hwired.stay hk he rfl hwired.sockets_lt ?_ rfl rfl ⟨e.ptr, hreg, hs⟩
    exact (hwired.live hk).1
  · refine hhanded.worker hk (fun w' hw => Function.update_of_ne hw _ _) ?_ ?_ rfl rfl rfl
      (fun _ _ _ _ => Iff.rfl) ?_ rfl
    · intro st' r' hhand'
      rw [hhand] at hhand'
      cases hhand'
    · simp [State.setWorker, WorkerPc.hand, Stage.atWorker]
    · intro a w'
      refine iff_of_false (hhanded.not_queued hk (by simp) a w') ?_
      rintro ⟨hst, -⟩
      cases hst
  · refine hbatched.worker hhanded he ?_ ?_ ?_ ?_ ?_ ?_
    · intro w' hw
      exact Function.update_of_ne hw _ _
    · exact fun st' w' hp => (Connection.place_live hk hp).2
    · simpa [State.setWorker, hrest] using hsub
    · simpa [State.setWorker, hrest] using hpending
    · intro e' rest' hpc
      simp [State.setWorker] at hpc
    · intro point r' e' rest' hpc
      simp only [State.setWorker, Function.update_self, WorkerPc.dispatching.injEq] at hpc ⊢
      obtain ⟨rfl, rfl, rfl, rfl⟩ := hpc
      refine ⟨hs, fun _ => ⟨c, Function.update_self _ _ _, hreg, ?_⟩⟩
      rw [hrest]
      simpa using hpending

theorem Owned.unregister {e : Event} {rest : List Event} (h : Owned cfg s k)
    (hpc : s.workers w = .dispatching .delete r e rest) :
    ∃ c, k r = .live .parsed c ∧ c.epollInfo = w ∧
      s.epoll w c.fd ≠ none ∧ s.sockets e.ptr = some (readContext r w) ∧
      Owned cfg ((s.setEpoll w c.fd none).setWorker w (.dispatching .load r e rest))
        (Function.update k r (.live .deleted c)) := by
  obtain ⟨hwired, hhanded, hqueued, hbatched, hok⟩ := h
  obtain ⟨hs, hdel⟩ := hbatched.dispatching w .delete r e rest hpc
  obtain ⟨c, hk, hreg, hnot⟩ := hdel rfl
  obtain ⟨hplace, -⟩ := (hhanded.workers w .parsed r).mp (by rw [hpc]; rfl)
  rw [hk, Connection.place] at hplace
  cases hplace
  have he : Elsewhere s ((s.setEpoll c.epollInfo c.fd none).setWorker c.epollInfo
      (.dispatching .load r e rest)) r c.epollInfo c.fd := by
    refine ⟨Nat.le_refl _, fun _ _ => rfl, fun _ _ hp _ => hp, fun _ _ => rfl, ?_⟩
    exact fun w' fd' hat => State.setEpoll_other _ _ hat
  refine ⟨c, hk, rfl, by simp [hreg], hs, ?_, ?_,
    ⟨hqueued.represents, hqueued.maxSize, hqueued.nodup⟩, ?_, hok⟩
  · refine hwired.stay hk he rfl hwired.sockets_lt ?_ rfl rfl ?_
    · exact (hwired.live hk).1
    · exact State.setEpoll_same _ _ _ _
  · refine hhanded.worker hk (fun w' hw => Function.update_of_ne hw _ _) ?_ ?_ rfl rfl rfl
      (fun _ _ _ _ => Iff.rfl) ?_ rfl
    · intro st' r' hhand'
      rw [hpc] at hhand'
      cases hhand'
      rfl
    · simp [State.setWorker, WorkerPc.hand, Stage.atWorker]
    · intro a w'
      refine iff_of_false (hhanded.not_queued hk (by simp) a w') ?_
      rintro ⟨hst, -⟩
      cases hst
  · have hsame : (WorkerPc.dispatching .load r e rest).pending =
        (WorkerPc.dispatching .delete r e rest).pending := rfl
    refine hbatched.worker hhanded he ?_ ?_ ?_ ?_ ?_ ?_
    · intro w' hw
      exact Function.update_of_ne hw _ _
    · exact fun st' w' hp => (Connection.place_live hk hp).2
    · simp [State.setWorker, hsame, hpc]
    · intro e' hm hfd
      simp only [State.setWorker, Function.update_self, hsame] at hm
      rw [hpc] at hnot
      exact hnot (hfd ▸ List.mem_map_of_mem hm)
    · intro e' rest' hpc'
      simp [State.setWorker] at hpc'
    · intro point r' e' rest' hpc'
      simp only [State.setWorker, Function.update_self, WorkerPc.dispatching.injEq] at hpc'
      obtain ⟨rfl, rfl, rfl, rfl⟩ := hpc'
      exact ⟨hs, by simp⟩

theorem Owned.in_hand {point : Dispatch} {e : Event} {rest : List Event} (h : Owned cfg s k)
    (hpc : s.workers w = .dispatching point r e rest) (hpoint : point ≠ .delete) :
    ∃ c, k r = .live .deleted c ∧ c.epollInfo = w ∧ s.sockets e.ptr = some (readContext r w) := by
  have hhand : (s.workers w).hand = some (.deleted, r) := by
    rw [hpc]
    cases point with
    | delete => exact absurd rfl hpoint
    | load | store _ | push _ => rfl
  obtain ⟨hplace, -⟩ := (h.handed.workers w .deleted r).mp hhand
  obtain ⟨c, hk, hw⟩ := Connection.place_eq_some.mp hplace
  exact ⟨c, hk, hw, (h.batched.dispatching _ _ _ _ _ hpc).1⟩

theorem Owned.redispatch {point point' : Dispatch} {e : Event} {rest : List Event}
    (h : Owned cfg s k) (hpc : s.workers w = .dispatching point r e rest)
    (hpoint : point ≠ .delete) (hpoint' : point' ≠ .delete) :
    Owned cfg (s.setWorker w (.dispatching point' r e rest)) k := by
  obtain ⟨c, hk, hw, hs⟩ := h.in_hand hpc hpoint
  have hhand : (WorkerPc.dispatching point' r e rest).hand = (s.workers w).hand := by
    rw [hpc]
    cases point <;> cases point' <;> simp_all [WorkerPc.hand]
  have hsame : (WorkerPc.dispatching point' r e rest).pending = (s.workers w).pending := by
    rw [hpc]
    rfl
  refine h.setWorker hhand ?_ ?_ nofun ?_
  · rw [hsame]
    exact h.batched.nodup w
  · rw [hsame]
    exact h.batched.pending w
  · intro point r' e' rest' heq
    cases heq
    exact ⟨hs, hpoint'⟩

/-- The worker puts the connection in its hand into the queue of an actor, and
releases the context that it was read with. -/
theorem Owned.enqueue {a : Nat} {point : Dispatch} {e : Event} {rest : List Event}
    {q : LockQueue.Queue Nat} (h : Owned cfg s k) (hk : k r = .live .deleted c)
    (hpc : s.workers c.epollInfo = .dispatching point r e rest)
    (hs : s.sockets e.ptr = some (readContext r c.epollInfo))
    (hq : LockQueue.Represents q (s.waiting a c.epollInfo ++ [r])) (hmax : q.maxSize = 1024) :
    Owned cfg ({ s.setQueue a c.epollInfo q with
        sockets := Function.update s.sockets e.ptr none }.setWorker c.epollInfo (.output e rest))
      (Function.update k r (.live (.queued a) c)) := by
  obtain ⟨hwired, hhanded, hqueued, hbatched, hok⟩ := h
  have hnew := hhanded.not_queued hk (fun _ => nofun)
  have hsub : (WorkerPc.output e rest).pending = (s.workers c.epollInfo).pending := by
    rw [hpc]
    rfl
  have hreg := hwired.registered r _ c hk
  have he : Elsewhere s ({ s.setQueue a c.epollInfo q with
      sockets := Function.update s.sockets e.ptr none }.setWorker c.epollInfo (.output e rest))
      r c.epollInfo c.fd := by
    refine ⟨Nat.le_refl _, fun _ _ => rfl, ?_, fun _ _ => rfl, fun _ _ _ => rfl⟩
    refine fun p' context' => State.sockets_other none ?_
    intro context' hs'
    rw [hs] at hs'
    cases hs'
    rfl
  have hnodup : (s.waiting a c.epollInfo ++ [r]).Nodup := by
    refine List.nodup_append.mpr ⟨hqueued.nodup a c.epollInfo, by simp, ?_⟩
    rintro r' hr' x hx rfl
    rw [List.mem_singleton.mp hx] at hr'
    exact hnew a c.epollInfo hr'
  have hqueued' := hqueued.setQueue (w := c.epollInfo) (a := a) hq hmax hnodup
  refine ⟨?_, ?_, ⟨hqueued'.represents, hqueued'.maxSize, hqueued'.nodup⟩, ?_, hok⟩
  · refine hwired.stay hk he rfl ?_ ?_ rfl rfl hreg
    · intro p' hp'
      by_cases hpp : p' = e.ptr
      · subst hpp
        exact Function.update_self _ _ _
      · exact (Function.update_of_ne hpp _ _).trans (hwired.sockets_lt p' hp')
    · exact (hwired.live hk).1
  · refine hhanded.worker hk (fun w' hw => Function.update_of_ne hw _ _) ?_ ?_ rfl rfl rfl ?_ ?_ rfl
    · intro st' r' hhand'
      rw [hpc] at hhand'
      cases point <;> cases hhand' <;> rfl
    · simp [State.setWorker, WorkerPc.hand, Stage.atWorker]
    · intro a' w' r' hr
      exact State.setQueue_mem_waiting hq (by simp [hr]) a' w'
    · intro a' w'
      refine Iff.trans (b := r ∈ (s.setQueue a c.epollInfo q).waiting a' w') Iff.rfl ?_
      rw [State.setQueue_waiting hq]
      split
      · rename_i hat
        simp [hat.1, hat.2]
      · rename_i hat
        refine iff_of_false (hnew a' w') ?_
        rintro ⟨hst, hw⟩
        cases hst
        exact hat ⟨rfl, hw.symm⟩
  · refine hbatched.worker hhanded he ?_ ?_ ?_ ?_ ?_ ?_
    · intro w' hw
      exact Function.update_of_ne hw _ _
    · exact fun st' w' hp => (Connection.place_live hk hp).2
    · simp [State.setWorker, hsub]
    · intro e' hm hfd
      simp only [State.setWorker, Function.update_self, hsub] at hm
      have hmatch := hbatched.pending _ e' hm
      rw [hfd, hreg] at hmatch
      cases hmatch
    · intro e' rest' hpc'
      simp [State.setWorker] at hpc'
    · intro point' r' e' rest' hpc'
      simp [State.setWorker] at hpc'

theorem Owned.dequeue {a owed : Nat} {rest items : List Nat} {q : LockQueue.Queue Nat}
    (h : Owned cfg s k) (hitems : s.waiting a w = r :: items)
    (hq : LockQueue.Represents q items) (hmax : q.maxSize = 1024)
    (hhand : (s.actors a).hand a = none) :
    ∃ c, k r = .live (.queued a) c ∧ c.epollInfo = w ∧
      Owned cfg ((s.setQueue a w q).setActor a (.popped w owed rest r))
        (Function.update k r (.live (.held a) c)) := by
  obtain ⟨hwired, hhanded, hqueued, hbatched, hok⟩ := h
  have hplace := (hhanded.queues a w r).mp (by simp [hitems])
  obtain ⟨c, hk, rfl⟩ := Connection.place_eq_some.mp hplace
  have hnodup := hqueued.nodup a c.epollInfo
  rw [hitems, List.nodup_cons] at hnodup
  have hqueued' := hqueued.setQueue (w := c.epollInfo) (a := a) hq hmax hnodup.2
  have hreg := hwired.registered r _ c hk
  have he : Elsewhere s ((s.setQueue a c.epollInfo q).setActor a
      (.popped c.epollInfo owed rest r)) r c.epollInfo c.fd :=
    ⟨Nat.le_refl _, fun _ _ => rfl, fun _ _ hp _ => hp, fun _ _ => rfl, fun _ _ _ => rfl⟩
  refine ⟨c, hk, rfl, ?_, ?_, ⟨hqueued'.represents, hqueued'.maxSize, hqueued'.nodup⟩, ?_, hok⟩
  · refine hwired.stay hk he rfl hwired.sockets_lt ?_ rfl rfl hreg
    exact (hwired.live hk).1
  · refine hhanded.actor hk (fun a' ha => Function.update_of_ne ha _ _) ?_ ?_ nofun ?_ rfl rfl rfl
      ?_ ?_ (fun _ => nofun)
    · intro st' r' hhand'
      rw [hhand] at hhand'
      cases hhand'
    · simp [State.setActor, ActorPc.hand, Stage.atActor]
    · intro a' hat
      cases hat
      rfl
    · intro a' w' r' hr
      exact State.setQueue_mem_waiting hq (by simp [hitems, hr]) a' w'
    · intro a' w' hmem
      have hmem' : r ∈ (s.setQueue a c.epollInfo q).waiting a' w' := hmem
      rw [State.setQueue_waiting hq] at hmem'
      split at hmem'
      · exact hnodup.1 hmem'
      · rename_i hat
        obtain ⟨hst, hw⟩ := Connection.place_live hk ((hhanded.queues a' w' r).mp hmem')
        cases hst
        exact hat ⟨rfl, hw⟩
  · refine hbatched.actor hhanded he rfl hreg ?_
    exact fun st' w' hp => (Connection.place_live hk hp).1 ▸ rfl

theorem Owned.acting {a : Nat} {st : Stage} (h : Owned cfg s k)
    (hhand : (s.actors a).hand a = some (st, r)) : ∃ c, k r = .live st c := by
  obtain ⟨⟨w, hplace⟩, -⟩ := (h.handed.actors a st r).mp hhand
  obtain ⟨c, hk, -⟩ := Connection.place_eq_some.mp hplace
  exact ⟨c, hk⟩

theorem Owned.respond {a owed : Nat} {rest : List Nat} (h : Owned cfg s k)
    (hk : k r = .live (.held a) c) (hhand : (s.actors a).hand a = some (.held a, r)) :
    Owned cfg (s.setActor a (.handled w owed rest r)) (Function.update k r (.live (.handled a) c)) := by
  obtain ⟨hwired, hhanded, hqueued, hbatched, hok⟩ := h
  have hreg := hwired.registered r _ c hk
  have he : Elsewhere s (s.setActor a (.handled w owed rest r)) r c.epollInfo c.fd :=
    ⟨Nat.le_refl _, fun _ _ => rfl, fun _ _ hp _ => hp, fun _ _ => rfl, fun _ _ _ => rfl⟩
  refine ⟨?_, ?_, ⟨hqueued.represents, hqueued.maxSize, hqueued.nodup⟩, ?_, hok⟩
  · refine hwired.stay hk he rfl hwired.sockets_lt ?_ rfl rfl hreg
    exact (hwired.live hk).1
  · refine hhanded.actor hk (fun a' ha => Function.update_of_ne ha _ _) ?_ ?_ ?_ ?_ rfl rfl rfl
      (fun _ _ _ _ => Iff.rfl) (hhanded.not_queued hk (fun _ => nofun)) (fun _ => nofun)
    · intro st' r' hhand'
      rw [hhand] at hhand'
      cases hhand'
      rfl
    · simp [State.setActor, ActorPc.hand, Stage.atActor]
    · intro a' hat
      cases hat
      rfl
    · intro a' hat
      cases hat
      rfl
  · refine hbatched.actor hhanded he rfl hreg ?_
    exact fun st' w' hp => (Connection.place_live hk hp).1 ▸ rfl

theorem Owned.register {a owed : Nat} {rest : List Nat} (h : Owned cfg s k)
    (hk : k r = .live (.handled a) c) (hhand : (s.actors a).hand a = some (.handled a, r)) :
    Owned cfg ((({ s with next := s.next + 1 }.setSocket s.next
        (writeContext r c.epollInfo)).setEpoll c.epollInfo c.fd
        (some ⟨.outputMask, s.next⟩)).setActor a (.popping w owed rest))
      (Function.update k r (.live .output c)) := by
  obtain ⟨hwired, hhanded, hqueued, hbatched, hok⟩ := h
  have hreg := hwired.registered r _ c hk
  have he : Elsewhere s ((({ s with next := s.next + 1 }.setSocket s.next
      (writeContext r c.epollInfo)).setEpoll c.epollInfo c.fd
      (some ⟨.outputMask, s.next⟩)).setActor a (.popping w owed rest)) r c.epollInfo c.fd := by
    refine ⟨Nat.le_succ _, fun _ _ => rfl, ?_, fun _ _ => rfl,
      fun w' fd' hat => State.setEpoll_other _ _ hat⟩
    refine fun p' context' => State.sockets_other _ ?_
    intro context' hs'
    rw [hwired.sockets_lt s.next (Nat.le_refl _)] at hs'
    cases hs'
  refine ⟨?_, ?_, ⟨hqueued.represents, hqueued.maxSize, hqueued.nodup⟩, ?_, hok⟩
  · refine hwired.stay hk he rfl ?_ ?_ rfl rfl ⟨s.next, ?_, ?_⟩
    · intro p' hp'
      have hlt : s.next + 1 ≤ p' := hp'
      have hpp : p' ≠ s.next := by omega
      exact (Function.update_of_ne hpp _ _).trans (hwired.sockets_lt p' (by omega))
    · exact (hwired.live hk).1
    · exact State.setEpoll_same _ _ _ _
    · exact Function.update_self _ _ _
  · refine hhanded.actor hk (fun a' ha => Function.update_of_ne ha _ _) ?_ ?_ ?_ nofun rfl rfl rfl
      (fun _ _ _ _ => Iff.rfl) (hhanded.not_queued hk (fun _ => nofun)) (fun _ => nofun)
    · intro st' r' hhand'
      rw [hhand] at hhand'
      cases hhand'
      rfl
    · simp [State.setActor, ActorPc.hand, Stage.atActor]
    · intro a' hat
      cases hat
      rfl
  · refine hbatched.actor hhanded he rfl hreg ?_
    exact fun st' w' hp => (Connection.place_live hk hp).1 ▸ rfl

theorem Owned.adopt (h : Owned cfg s k) (hfile : s.files c.fd = none)
    (hhand : (s.workers c.epollInfo).hand = none) :
    Owned cfg (((({ s with
        next := s.next + 2
        files := Function.update s.files c.fd (some (.connection s.next)) } : State).setRequest
          s.next c).setSocket (s.next + 1) (readContext s.next c.epollInfo)).setEpoll c.epollInfo
          c.fd (some ⟨.inputMask, s.next + 1⟩))
      (Function.update k s.next (.live .input c)) := by
  obtain ⟨hwired, hhanded, hqueued, hbatched, hok⟩ := h
  have hunborn := hwired.unborn s.next (Nat.le_refl _)
  have hnone := hwired.unopened hfile c.epollInfo
  have hother : ∀ r' st' c', r' ≠ s.next → k r' = .live st' c' → c'.fd ≠ c.fd := by
    intro r' st' c' _ hk' hfd
    rw [(hwired.files c.fd r').mpr ⟨st', c', hk', hfd⟩] at hfile
    cases hfile
  have hlisten : ∀ w' < cfg.workerCount, cfg.sockFd w' ≠ c.fd := by
    intro w' hw' hfd
    rw [← hfd, (hwired.listening w' hw').1] at hfile
    cases hfile
  have he : Elsewhere s (((({ s with
      next := s.next + 2
      files := Function.update s.files c.fd (some (.connection s.next)) } : State).setRequest
        s.next c).setSocket (s.next + 1) (readContext s.next c.epollInfo)).setEpoll c.epollInfo
        c.fd (some ⟨.inputMask, s.next + 1⟩)) s.next c.epollInfo c.fd := by
    refine ⟨Nat.le_add_right _ _, fun r' hr => Function.update_of_ne hr _ _, ?_,
      fun fd' hfd => Function.update_of_ne hfd _ _, fun w' fd' hat => State.setEpoll_other _ _ hat⟩
    refine fun p' context' => State.sockets_other _ ?_
    intro context' hs'
    rw [hwired.sockets_lt (s.next + 1) (Nat.le_succ _)] at hs'
    cases hs'
  refine ⟨?_, ?_, ⟨hqueued.represents, hqueued.maxSize, hqueued.nodup⟩, ?_, hok⟩
  · refine hwired.update he hother hlisten ?_ ?_ (Function.update_self _ _ _) ?_ ?_ ?_ ?_
    · exact Nat.lt_add_of_pos_right (by omega)
    · intro p' hp'
      have hlt : s.next + 2 ≤ p' := hp'
      have hpp : p' ≠ s.next + 1 := by omega
      exact (Function.update_of_ne hpp _ _).trans (hwired.sockets_lt p' (by omega))
    · intro r'
      refine Iff.trans (b := Function.update s.files c.fd (some (.connection s.next)) c.fd =
        some (.connection r')) Iff.rfl ?_
      simp [Connection.context, eq_comm]
    · intro st' c' hk'
      rw [hunborn] at hk'
      cases hk'
    · intro st' c' hx
      cases hx
      refine ⟨rfl, rfl, s.next + 1, ?_, Function.update_self _ _ _⟩
      exact State.setEpoll_same _ _ _ _
    · intro hx
      cases hx
  · refine hhanded.of_registered (fun _ => rfl) rfl rfl ?_ ?_
    · intro st' w' hp
      rw [hunborn] at hp
      cases hp
    · intro st' w' hp
      cases hp
      rfl
  · refine hbatched.worker hhanded he (fun _ _ => rfl) ?_ (List.Sublist.refl _) ?_ ?_ ?_
    · intro st' w' hp
      rw [hunborn] at hp
      cases hp
    · intro e hm hfd
      have hmatch := hbatched.pending _ e hm
      rw [hfd, hnone] at hmatch
      cases hmatch
    · exact hbatched.accepting c.epollInfo
    · intro point r' e rest hpc
      exact absurd hpc (WorkerPc.not_dispatching hhand point e rest)

end

end Jullop
