import Mathlib.Data.List.Nodup
import Jullop.Refinement

/-! A connection is in exactly one place until it is closed, and then in none. -/

namespace Jullop

/-- The places where a request context can be: registered in an epoll set under a
descriptor and a socket context, in the hands of a worker, in a slot of a queue
(counted from its oldest element), in the hands of an actor. -/
inductive Place
  | input (w fd p : Nat)
  | handler (w : Nat)
  | slot (a w i : Nat)
  | actor (a : Nat)
  | output (w fd p : Nat)

def State.inHandler (s : State) (w r : Nat) : Prop := (s.workers w).hand.map Prod.snd = some r

/-- The context `r` is at a place. What a handler is working on is not counted as
registered. -/
def State.At (s : State) (r : Nat) : Place → Prop
  | .input w fd p => s.epoll w fd = some ⟨.inputMask, p⟩ ∧ (∀ w', ¬ s.inHandler w' r) ∧
      ∃ context, s.sockets p = some context ∧ context.data = .ptr r ∧
        context.inputHandler = some .clientHandleRead ∧ context.outputHandler = none
  | .handler w => s.inHandler w r
  | .slot a w i => i < (s.queues a w).currentSize ∧ (s.queues a w).ringBuffer
      (((s.queues a w).dequeueOffset + i) % (s.queues a w).maxSize) = some r
  | .actor a => ((s.actors a).hand a).map Prod.snd = some r
  | .output w fd p => s.epoll w fd = some ⟨.outputMask, p⟩ ∧ (∀ w', ¬ s.inHandler w' r) ∧
      ∃ context, s.sockets p = some context ∧ context.data = .ptr r ∧
        context.inputHandler = none ∧ context.outputHandler = some .clientHandleWrite

/-- The places of a worker are those of its own connections. -/
def Place.Own (c : RequestContext) : Place → Prop
  | .input w fd _ | .output w fd _ => w = c.epollInfo ∧ fd = c.fd
  | .handler w | .slot _ w _ => w = c.epollInfo
  | .actor _ => True

def Stage.Fits (s : State) (r : Nat) (c : RequestContext) (st : Stage) : Place → Prop
  | .input w fd p => st = .input ∧ w = c.epollInfo ∧ fd = c.fd ∧
      s.epoll w fd = some ⟨.inputMask, p⟩
  | .handler w => st.atWorker = true ∧ w = c.epollInfo
  | .slot a w i => st = .queued a ∧ w = c.epollInfo ∧ (s.waiting a w)[i]? = some r
  | .actor a => st.atActor = some a
  | .output w fd p => st = .output ∧ w = c.epollInfo ∧ fd = c.fd ∧
      s.epoll w fd = some ⟨.outputMask, p⟩

section

variable {cfg : Config} {s : State} {k : Nat → Connection} {r : Nat}

theorem Owned.inHandler_iff (h : Owned cfg s k) (w r : Nat) :
    s.inHandler w r ↔ ∃ st c, k r = .live st c ∧ st.atWorker = true ∧ c.epollInfo = w := by
  rw [State.inHandler]
  constructor
  · intro hmap
    obtain ⟨⟨st, r'⟩, hhand, rfl⟩ := Option.map_eq_some_iff.mp hmap
    obtain ⟨hplace, hat⟩ := (h.handed.workers w st r').mp hhand
    obtain ⟨c, hk, hw⟩ := Connection.place_eq_some.mp hplace
    exact ⟨st, c, hk, hat, hw⟩
  · rintro ⟨st, c, hk, hat, rfl⟩
    rw [(h.handed.workers c.epollInfo st r).mpr ⟨by rw [hk, Connection.place], hat⟩]
    rfl

theorem Queued.slot_iff (h : Queued s) (a w i : Nat) :
    (i < (s.queues a w).currentSize ∧ (s.queues a w).ringBuffer
      (((s.queues a w).dequeueOffset + i) % (s.queues a w).maxSize) = some r) ↔
      (s.waiting a w)[i]? = some r := by
  have hrep := h.represents a w
  have hslots := congrArg (fun l => l[i]?) hrep.slots
  simp only [Ring.window, List.getElem?_map] at hslots
  by_cases hi : i < (s.queues a w).currentSize
  · rw [List.getElem?_range hi] at hslots
    simp only [Option.map_some] at hslots
    constructor
    · rintro ⟨-, hring⟩
      rw [hring] at hslots
      cases hget : (s.waiting a w)[i]? with
      | none => simp [hget] at hslots
      | some x =>
        simp only [hget, Option.map_some, Option.some.injEq] at hslots
        rw [hslots]
    · intro hget
      rw [hget] at hslots
      exact ⟨hi, Option.some.inj hslots⟩
  · refine iff_of_false (fun hslot => hi hslot.1) ?_
    rw [List.getElem?_eq_none (by rw [← hrep.size]; omega)]
    simp

theorem Owned.registered_iff {w fd p : Nat} {mask : Events} {context : SocketContext}
    (h : Owned cfg s k) (hreg : s.epoll w fd = some ⟨mask, p⟩) (hs : s.sockets p = some context)
    (hd : context.data = .ptr r) :
    ∃ st c, k r = .live st c ∧ w = c.epollInfo ∧ fd = c.fd ∧
      (((st = .input ∨ st = .parsed) ∧ mask = .inputMask) ∨
        (st = .output ∧ mask = .outputMask)) := by
  rcases h.wired.only w fd (by simp [hreg]) with ⟨hw, rfl⟩ | ⟨r', st, c, hk, rfl, rfl⟩
  · obtain ⟨-, hreg', hs'⟩ := h.wired.listening w hw
    rw [hreg] at hreg'
    cases hreg'
    rw [hs] at hs'
    cases hs'
    cases hd
  · have hlink := h.wired.registered r' st c hk
    cases st with
    | input | parsed =>
      obtain ⟨p', hreg', hs'⟩ := hlink
      rw [hreg] at hreg'
      cases hreg'
      rw [hs] at hs'
      cases hs'
      cases hd
      exact ⟨_, c, hk, rfl, rfl, .inl ⟨by simp, rfl⟩⟩
    | output =>
      obtain ⟨p', hreg', hs'⟩ := hlink
      rw [hreg] at hreg'
      cases hreg'
      rw [hs] at hs'
      cases hs'
      cases hd
      exact ⟨_, c, hk, rfl, rfl, .inr ⟨rfl, rfl⟩⟩
    | deleted | queued _ | held _ | handled _ =>
      rw [hlink] at hreg
      cases hreg

theorem Owned.at_iff (h : Owned cfg s k) (place : Place) :
    s.At r place ↔ ∃ st c, k r = .live st c ∧ st.Fits s r c place := by
  have hfree : ∀ {st c}, k r = .live st c → st.atWorker = false → ∀ w, ¬ s.inHandler w r := by
    intro st c hk hst w hhand
    obtain ⟨st', c', hk', hat, -⟩ := (h.inHandler_iff w r).mp hhand
    rw [hk] at hk'
    cases hk'
    rw [hst] at hat
    cases hat
  cases place with
  | input w fd p =>
    constructor
    · rintro ⟨hreg, hnot, context, hs, hd, -, -⟩
      obtain ⟨st, c, hk, hw, hfd, ⟨rfl | rfl, -⟩ | ⟨-, hmask⟩⟩ := h.registered_iff hreg hs hd
      · exact ⟨_, c, hk, rfl, hw, hfd, hreg⟩
      · exact absurd ((h.inHandler_iff w r).mpr ⟨_, c, hk, rfl, hw.symm⟩) (hnot w)
      · cases hmask
    · rintro ⟨st, c, hk, rfl, rfl, rfl, hreg⟩
      obtain ⟨p', hreg', hs⟩ := h.wired.registered r _ c hk
      rw [hreg] at hreg'
      cases hreg'
      exact ⟨hreg, hfree hk rfl, _, hs, rfl, rfl, rfl⟩
  | handler w =>
    refine Iff.trans (h.inHandler_iff w r) ?_
    constructor
    · rintro ⟨st, c, hk, hat, rfl⟩
      exact ⟨st, c, hk, hat, rfl⟩
    · rintro ⟨st, c, hk, hat, rfl⟩
      exact ⟨st, c, hk, hat, rfl⟩
  | slot a w i =>
    refine Iff.trans (h.queued.slot_iff a w i) ?_
    constructor
    · intro hget
      have hplace := (h.handed.queues a w r).mp (List.mem_of_getElem? hget)
      obtain ⟨c, hk, hw⟩ := Connection.place_eq_some.mp hplace
      exact ⟨_, c, hk, rfl, hw.symm, hget⟩
    · rintro ⟨st, c, hk, rfl, rfl, hget⟩
      exact hget
  | actor a =>
    constructor
    · intro hmap
      obtain ⟨⟨st, r'⟩, hhand, rfl⟩ := Option.map_eq_some_iff.mp hmap
      obtain ⟨⟨w, hplace⟩, hat⟩ := (h.handed.actors a st r').mp hhand
      obtain ⟨c, hk, -⟩ := Connection.place_eq_some.mp hplace
      exact ⟨st, c, hk, hat⟩
    · rintro ⟨st, c, hk, hat⟩
      have hhand := (h.handed.actors a st r).mpr
        ⟨⟨c.epollInfo, by rw [hk, Connection.place]⟩, hat⟩
      rw [State.At, hhand]
      rfl
  | output w fd p =>
    constructor
    · rintro ⟨hreg, hnot, context, hs, hd, -, -⟩
      obtain ⟨st, c, hk, hw, hfd, ⟨-, hmask⟩ | ⟨rfl, -⟩⟩ := h.registered_iff hreg hs hd
      · cases hmask
      · exact ⟨_, c, hk, rfl, hw, hfd, hreg⟩
    · rintro ⟨st, c, hk, rfl, rfl, rfl, hreg⟩
      obtain ⟨p', hreg', hs⟩ := h.wired.registered r _ c hk
      rw [hreg] at hreg'
      cases hreg'
      exact ⟨hreg, hfree hk rfl, _, hs, rfl, rfl, rfl⟩

theorem Owned.fits_exists {st : Stage} {c : RequestContext} (h : Owned cfg s k)
    (hk : k r = .live st c) : ∃ place, st.Fits s r c place := by
  have hlink := h.wired.registered r st c hk
  cases st with
  | input =>
    obtain ⟨p, hreg, -⟩ := hlink
    exact ⟨.input c.epollInfo c.fd p, rfl, rfl, rfl, hreg⟩
  | output =>
    obtain ⟨p, hreg, -⟩ := hlink
    exact ⟨.output c.epollInfo c.fd p, rfl, rfl, rfl, hreg⟩
  | parsed | deleted => exact ⟨.handler c.epollInfo, rfl, rfl⟩
  | held a | handled a => exact ⟨.actor a, rfl⟩
  | queued a =>
    have hmem := (h.handed.queues a c.epollInfo r).mpr (by rw [hk, Connection.place])
    obtain ⟨i, hi⟩ := List.mem_iff_getElem?.mp hmem
    exact ⟨.slot a c.epollInfo i, rfl, rfl, hi⟩

theorem Owned.fits_unique {st : Stage} {c : RequestContext} {place place' : Place}
    (h : Owned cfg s k) (hfits : st.Fits s r c place) (hfits' : st.Fits s r c place') :
    place = place' := by
  cases st with
  | input | output =>
    cases place <;> simp [Stage.Fits, Stage.atWorker, Stage.atActor] at hfits
    cases place' <;> simp [Stage.Fits, Stage.atWorker, Stage.atActor] at hfits'
    obtain ⟨rfl, rfl, hreg⟩ := hfits
    obtain ⟨rfl, rfl, hreg'⟩ := hfits'
    rw [hreg] at hreg'
    cases hreg'
    rfl
  | parsed | deleted =>
    cases place <;> simp [Stage.Fits, Stage.atWorker, Stage.atActor] at hfits
    cases place' <;> simp [Stage.Fits, Stage.atWorker, Stage.atActor] at hfits'
    rw [hfits, hfits']
  | held _ | handled _ =>
    cases place <;> simp [Stage.Fits, Stage.atWorker, Stage.atActor] at hfits
    cases place' <;> simp [Stage.Fits, Stage.atWorker, Stage.atActor] at hfits'
    rw [← hfits, ← hfits']
  | queued a =>
    cases place <;> simp [Stage.Fits, Stage.atWorker, Stage.atActor] at hfits
    cases place' <;> simp [Stage.Fits, Stage.atWorker, Stage.atActor] at hfits'
    obtain ⟨rfl, rfl, hget⟩ := hfits
    obtain ⟨rfl, rfl, hget'⟩ := hfits'
    rename_i i j
    obtain ⟨hi, hget⟩ := List.getElem?_eq_some_iff.mp hget
    obtain ⟨hj, hget'⟩ := List.getElem?_eq_some_iff.mp hget'
    have hij := (List.Nodup.getElem_inj_iff (h.queued.nodup _ _)).mp (hget.trans hget'.symm)
    rw [hij]

theorem Stage.Fits.own {st : Stage} {c : RequestContext} {place : Place}
    (h : st.Fits s r c place) : place.Own c := by
  cases place with
  | input w fd p | output w fd p => exact ⟨h.2.1, h.2.2.1⟩
  | handler w => exact h.2
  | slot a w i => exact h.2.1
  | actor a => trivial

theorem connection_single_owner {tr : List Obs} (h : (server cfg).Run s tr) :
    (∀ r c, s.requests r = some c → ∃ place, s.At r place ∧ place.Own c ∧
      ∀ place', s.At r place' → place' = place) ∧
    (∀ r, s.requests r = none → ∀ place, ¬ s.At r place) ∧
    s.halted ≠ some .epollCheck ∧ s.halted ≠ some .invalidAccess := by
  obtain ⟨k, -, howned⟩ := server_simulates h
  refine ⟨?_, ?_, howned.halted.1, howned.halted.2.1⟩
  · intro r c hr
    rw [howned.wired.requests] at hr
    cases hk : k r with
    | unborn | closed => simp [hk, Connection.context] at hr
    | live st c' =>
      rw [hk, Connection.context] at hr
      cases hr
      obtain ⟨place, hfits⟩ := howned.fits_exists hk
      refine ⟨place, (howned.at_iff place).mpr ⟨st, c, hk, hfits⟩, hfits.own, ?_⟩
      intro place' hat
      obtain ⟨st', c', hk', hfits'⟩ := (howned.at_iff place').mp hat
      rw [hk] at hk'
      cases hk'
      exact howned.fits_unique hfits' hfits
  · intro r hr place hat
    obtain ⟨st, c, hk, -⟩ := (howned.at_iff place).mp hat
    rw [howned.wired.requests, hk] at hr
    cases hr

end

/-- After one accepted connection the context 1 is registered for input. -/
theorem connection_single_owner_accepted : ∃ s tr, (server smallConfig).Run s tr ∧
    s.requests 1 ≠ none ∧
    (∀ r c, s.requests r = some c → ∃ place, s.At r place ∧ place.Own c ∧
      ∀ place', s.At r place' → place' = place) := by
  have hexec : ((server smallConfig).exec (initState smallConfig fun _ => ⟨0, 0⟩)
      (acceptLabels 4)).any (fun x => (x.1.requests 1).isSome) = true := by
    decide +kernel
  obtain ⟨⟨s, tr⟩, hs, hsome⟩ := (Option.any_eq_true _ _).mp hexec
  have hrun := server_run_exec hs
  exact ⟨s, tr, hrun, Option.isSome_iff_ne_none.mp hsome, (connection_single_owner hrun).1⟩

end Jullop
