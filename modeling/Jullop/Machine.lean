import Mathlib.Data.List.Induction

/-! Labelled machines with a trace of observations. A label resolves every
choice of the environment and of the scheduler, so a step is a partial function
and a run is any sequence of labels. -/

namespace Jullop

structure Machine (State Label Obs : Type*) where
  init : State → Prop
  step : State → Label → Option (State × List Obs)

namespace Machine

variable {State Label Obs Abs Act : Type*}

/-- The states a machine can reach, each with the observations made on the way. -/
inductive Run (m : Machine State Label Obs) : State → List Obs → Prop
  | start {s : State} : m.init s → Run m s []
  | next {s t : State} {tr obs : List Obs} (l : Label) :
      Run m s tr → m.step s l = some (t, obs) → Run m t (tr ++ obs)

theorem Run.invariant {m : Machine State Label Obs} (Inv : State → List Obs → Prop)
    (start : ∀ s, m.init s → Inv s [])
    (next : ∀ s tr l t obs, Inv s tr → m.step s l = some (t, obs) → Inv t (tr ++ obs))
    {s : State} {tr : List Obs} (h : m.Run s tr) : Inv s tr := by
  induction h with
  | start hi => exact start _ hi
  | next l _ hs ih => exact next _ _ l _ _ ih hs

/-- Forward simulation: each step is matched by one abstract step with the same
observations, or is silent and matched by none. -/
theorem Run.simulate {m : Machine State Label Obs} {a : Machine Abs Act Obs}
    (R : State → Abs → Prop)
    (start : ∀ s, m.init s → ∃ x, a.init x ∧ R s x)
    (next : ∀ s x l t obs, R s x → m.step s l = some (t, obs) →
      (obs = [] ∧ R t x) ∨ ∃ k y, a.step x k = some (y, obs) ∧ R t y)
    {s : State} {tr : List Obs} (h : m.Run s tr) : ∃ x, a.Run x tr ∧ R s x := by
  induction h with
  | start hi =>
    obtain ⟨x, hx, hr⟩ := start _ hi
    exact ⟨x, .start hx, hr⟩
  | next l _ hs ih =>
    obtain ⟨x, hx, hr⟩ := ih
    rcases next _ x l _ _ hr hs with ⟨rfl, hr'⟩ | ⟨k, y, hk, hr'⟩
    · exact ⟨x, by simpa using hx, hr'⟩
    · exact ⟨y, .next k hx hk, hr'⟩

def exec (m : Machine State Label Obs) (s : State) : List Label → Option (State × List Obs)
  | [] => some (s, [])
  | l :: ls => do
    let (t, obs) ← m.step s l
    let (u, more) ← exec m t ls
    return (u, obs ++ more)

/-- What every step keeps, the steps of a sequence of labels keep. -/
theorem exec_invariant {m : Machine State Label Obs} (Inv : State → List Obs → Prop)
    (next : ∀ s tr l t obs, Inv s tr → m.step s l = some (t, obs) → Inv t (tr ++ obs))
    {s t : State} {tr obs : List Obs} {ls : List Label} (h : Inv s tr)
    (he : m.exec s ls = some (t, obs)) : Inv t (tr ++ obs) := by
  induction ls generalizing s tr obs with
  | nil =>
    simp only [Machine.exec, Option.some.injEq, Prod.mk.injEq] at he
    rcases he with ⟨rfl, rfl⟩
    simpa using h
  | cons l ls ih =>
    simp only [Machine.exec, Option.bind_eq_bind, Option.bind_eq_some_iff, Option.pure_def,
      Option.some.injEq, Prod.mk.injEq, Prod.exists] at he
    obtain ⟨u, o, hs, v, more, he, rfl, rfl⟩ := he
    simpa only [List.append_assoc] using ih (next _ _ l _ _ h hs) he

theorem exec_append {m : Machine State Label Obs} {s u : State} {ls ls' : List Label}
    {tr : List Obs} :
    m.exec s (ls ++ ls') = some (u, tr) ↔
      ∃ t obs obs', m.exec s ls = some (t, obs) ∧ m.exec t ls' = some (u, obs') ∧
        tr = obs ++ obs' := by
  induction ls generalizing s tr with
  | nil =>
    constructor
    · intro he
      exact ⟨s, [], tr, rfl, he, rfl⟩
    · rintro ⟨t, obs, obs', he, he', rfl⟩
      cases he
      exact he'
  | cons l ls ih =>
    simp only [List.cons_append, Machine.exec, Option.bind_eq_bind, Option.bind_eq_some_iff,
      Option.pure_def, Option.some.injEq, Prod.mk.injEq, Prod.exists]
    constructor
    · rintro ⟨v, o, hs, u', more, hrest, rfl, rfl⟩
      obtain ⟨t, obs, obs', he, he', rfl⟩ := ih.mp hrest
      exact ⟨t, o ++ obs, obs', ⟨v, o, hs, t, obs, he, rfl, rfl⟩, he', by simp⟩
    · rintro ⟨t, _, obs', ⟨v, o, hs, _, obs, he, rfl, rfl⟩, he', rfl⟩
      exact ⟨v, o, hs, u, obs ++ obs', ih.mpr ⟨_, obs, obs', he, he', rfl⟩, rfl, by simp⟩

theorem Run.exec {m : Machine State Label Obs} {s t : State} {tr obs : List Obs}
    {ls : List Label} (h : m.Run s tr) (he : m.exec s ls = some (t, obs)) :
    m.Run t (tr ++ obs) :=
  exec_invariant m.Run (fun _ _ l _ _ hrun hs => hrun.next l hs) h he

theorem Run.of_exec {m : Machine State Label Obs} {s t : State} {obs : List Obs}
    {ls : List Label} (hi : m.init s) (he : m.exec s ls = some (t, obs)) : m.Run t obs := by
  have hstart : m.Run s [] := .start hi
  simpa using hstart.exec he

/-- A goal towards which some step always leads can be reached from every state of a
run. -/
theorem Run.exec_of_progress {m : Machine State Label Obs} {Goal : State → List Obs → Prop}
    (work : State → List Obs → Nat)
    (progress : ∀ s tr, m.Run s tr → ¬ Goal s tr →
      ∃ l t obs, m.step s l = some (t, obs) ∧ work t (tr ++ obs) < work s tr)
    {s : State} {tr : List Obs} (h : m.Run s tr) :
    ∃ ls t obs, m.exec s ls = some (t, obs) ∧ Goal t (tr ++ obs) := by
  by_cases hgoal : Goal s tr
  · exact ⟨[], s, [], rfl, by simpa using hgoal⟩
  · obtain ⟨l, t, obs, hs, hless⟩ := progress s tr h hgoal
    obtain ⟨ls, u, more, he, hmore⟩ := (h.next l hs).exec_of_progress work progress
    refine ⟨l :: ls, u, obs ++ more, ?_, by simpa using hmore⟩
    simp [Machine.exec, hs, he]
termination_by work s tr

/-- Steps that each take some of the work away are no more than the work. -/
theorem Run.exec_length_le {m : Machine State Label Obs} (work : State → Nat)
    {inner : Label → Prop} (less : ∀ s tr l t obs, m.Run s tr → inner l →
      m.step s l = some (t, obs) → work t < work s)
    {s t : State} {tr obs : List Obs} {ls : List Label} (h : m.Run s tr) (hls : ∀ l ∈ ls, inner l)
    (he : m.exec s ls = some (t, obs)) : ls.length + work t ≤ work s := by
  induction ls generalizing s tr obs with
  | nil =>
    cases he
    simp
  | cons l ls ih =>
    simp only [Machine.exec, Option.bind_eq_bind, Option.bind_eq_some_iff, Option.pure_def,
      Option.some.injEq, Prod.mk.injEq, Prod.exists] at he
    obtain ⟨u, o, hs, v, more, he, rfl, rfl⟩ := he
    have hless := less _ _ l _ _ h (hls l (List.mem_cons_self ..)) hs
    have hmore := ih (h.next l hs) (fun l' hl' => hls l' (List.mem_cons_of_mem l hl')) he
    rw [List.length_cons]
    omega

/-- When no step shows more than one observation, each is shown by a step from a
state that was reached with the observations before it. -/
theorem Run.observed {m : Machine State Label Obs}
    (hone : ∀ s l t obs, m.step s l = some (t, obs) → obs.length ≤ 1)
    {s : State} {tr before after : List Obs} {o : Obs} (h : m.Run s tr)
    (he : tr = before ++ o :: after) :
    ∃ s' l t, m.Run s' before ∧ m.step s' l = some (t, [o]) := by
  induction h generalizing after with
  | start _ => simp at he
  | next l hrun hs ih =>
    rename_i u t tr obs
    have hlen := hone _ _ _ _ hs
    cases obs with
    | nil => exact ih (by simpa using he)
    | cons o' obs =>
      obtain rfl : obs = [] := by simpa using hlen
      cases after using List.reverseRecOn with
      | nil =>
        obtain ⟨rfl, he'⟩ := List.append_inj' he rfl
        cases he'
        exact ⟨_, l, _, hrun, hs⟩
      | append_singleton after last =>
        rw [← List.cons_append, ← List.append_assoc] at he
        exact ih (List.append_inj' he rfl).1

theorem Run.of_append {m : Machine State Label Obs}
    (hone : ∀ s l t obs, m.step s l = some (t, obs) → obs.length ≤ 1)
    {s : State} {tr before after : List Obs} (h : m.Run s tr) (he : tr = before ++ after) :
    ∃ s', m.Run s' before := by
  cases after with
  | nil =>
    rw [he, List.append_nil] at h
    exact ⟨s, h⟩
  | cons o after =>
    obtain ⟨s', -, -, hrun, -⟩ := h.observed hone he
    exact ⟨s', hrun⟩

/-- A part of a run in which every state satisfies `P`. -/
inductive Stays (m : Machine State Label Obs) (P : State → Prop) : State → State → Prop
  | refl {s : State} : P s → Stays m P s s
  | next {s t u : State} {obs : List Obs} (l : Label) :
      Stays m P s t → m.step t l = some (u, obs) → P u → Stays m P s u

theorem Stays.last {m : Machine State Label Obs} {P : State → Prop} {s t : State}
    (h : m.Stays P s t) : P t := by
  cases h with
  | refl hs => exact hs
  | next _ _ _ ht => exact ht

theorem Run.stays {m : Machine State Label Obs} {P : State → Prop} {s t : State} {tr : List Obs}
    (h : m.Run s tr) (hs : m.Stays P s t) : ∃ tr', m.Run t tr' := by
  induction hs with
  | refl _ => exact ⟨tr, h⟩
  | next l _ hstep _ ih =>
    obtain ⟨tr', hrun⟩ := ih
    exact ⟨_, hrun.next l hstep⟩

/-- The same machine with notes on each step, read off the states before and after
it. -/
def annotate {Note : Type*} (m : Machine State Label Obs) (note : State → State → List Note) :
    Machine State Label (Obs ⊕ Note) where
  init := m.init
  step s l := (m.step s l).map fun (t, obs) => (t, obs.map .inl ++ (note s t).map .inr)

theorem annotate_step {Note : Type*} {m : Machine State Label Obs}
    {note : State → State → List Note} {s t : State} {l : Label} {tr : List (Obs ⊕ Note)} :
    (m.annotate note).step s l = some (t, tr) ↔
      ∃ obs, m.step s l = some (t, obs) ∧ tr = obs.map .inl ++ (note s t).map .inr := by
  simp only [annotate, Option.map_eq_some_iff, Prod.exists, Prod.mk.injEq]
  constructor
  · rintro ⟨t, obs, hs, rfl, rfl⟩
    exact ⟨obs, hs, rfl⟩
  · rintro ⟨obs, hs, rfl⟩
    exact ⟨t, obs, hs, rfl, rfl⟩

theorem Run.of_annotate {Note : Type*} {m : Machine State Label Obs}
    {note : State → State → List Note} {s : State} {tr : List (Obs ⊕ Note)}
    (h : (m.annotate note).Run s tr) : m.Run s (tr.filterMap Sum.getLeft?) := by
  induction h with
  | start hi => exact .start hi
  | next l _ hs ih =>
    obtain ⟨obs, hstep, rfl⟩ := annotate_step.mp hs
    have hleft : (obs.map (Sum.inl : Obs → Obs ⊕ Note)).filterMap Sum.getLeft? = obs := by
      rw [List.filterMap_map]
      exact List.filterMap_some
    have hright : ∀ notes : List Note,
        (notes.map (Sum.inr : Note → Obs ⊕ Note)).filterMap Sum.getLeft? = [] := by
      simp
    rw [List.filterMap_append, List.filterMap_append, hleft, hright, List.append_nil]
    exact ih.next l hstep

/-- The same machine with a log in the place of its observations. -/
def log {Note : Type*} (m : Machine State Label Obs) (note : State → Label → List Note) :
    Machine State Label Note where
  init := m.init
  step s l := (m.step s l).map fun (t, _) => (t, note s l)

theorem log_step {Note : Type*} {m : Machine State Label Obs} {note : State → Label → List Note}
    {s t : State} {l : Label} {notes : List Note} :
    (m.log note).step s l = some (t, notes) ↔
      ∃ obs, m.step s l = some (t, obs) ∧ notes = note s l := by
  simp only [log, Option.map_eq_some_iff, Prod.exists, Prod.mk.injEq]
  constructor
  · rintro ⟨t, obs, hs, rfl, rfl⟩
    exact ⟨obs, hs, rfl⟩
  · rintro ⟨obs, hs, rfl⟩
    exact ⟨t, obs, hs, rfl, rfl⟩

theorem Run.of_log {Note : Type*} {m : Machine State Label Obs}
    {note : State → Label → List Note} {s : State} {notes : List Note}
    (h : (m.log note).Run s notes) : ∃ tr, m.Run s tr := by
  induction h with
  | start hi => exact ⟨[], .start hi⟩
  | next l _ hs ih =>
    obtain ⟨tr, hrun⟩ := ih
    obtain ⟨obs, hstep, -⟩ := log_step.mp hs
    exact ⟨tr ++ obs, hrun.next l hstep⟩

/-- The same machine with notes beside its observations. -/
def record {Note : Type*} (m : Machine State Label Obs) (note : State → Label → List Note) :
    Machine State Label (Obs ⊕ Note) where
  init := m.init
  step s l := (m.step s l).map fun (t, obs) => (t, obs.map .inl ++ (note s l).map .inr)

theorem record_step {Note : Type*} {m : Machine State Label Obs}
    {note : State → Label → List Note} {s t : State} {l : Label} {tr : List (Obs ⊕ Note)} :
    (m.record note).step s l = some (t, tr) ↔
      ∃ obs, m.step s l = some (t, obs) ∧ tr = obs.map .inl ++ (note s l).map .inr := by
  simp only [record, Option.map_eq_some_iff, Prod.exists, Prod.mk.injEq]
  constructor
  · rintro ⟨t, obs, hs, rfl, rfl⟩
    exact ⟨obs, hs, rfl⟩
  · rintro ⟨obs, hs, rfl⟩
    exact ⟨t, obs, hs, rfl, rfl⟩

def shown {Note : Type*} (tr : List (Obs ⊕ Note)) : List Obs := tr.filterMap Sum.getLeft?

def noted {Note : Type*} (tr : List (Obs ⊕ Note)) : List Note := tr.filterMap Sum.getRight?

theorem shown_append {Note : Type*} (tr : List (Obs ⊕ Note)) (obs : List Obs) (notes : List Note) :
    shown (tr ++ (obs.map .inl ++ notes.map .inr)) = shown tr ++ obs := by
  simp [shown, List.filterMap_append, List.filterMap_map, Function.comp_def]

theorem noted_append {Note : Type*} (tr : List (Obs ⊕ Note)) (obs : List Obs) (notes : List Note) :
    noted (tr ++ (obs.map .inl ++ notes.map .inr)) = noted tr ++ notes := by
  simp [noted, List.filterMap_append, List.filterMap_map, Function.comp_def]

/-- A run can be made with notes. -/
theorem Run.record {Note : Type*} {m : Machine State Label Obs} {s : State} {tr : List Obs}
    (h : m.Run s tr) (note : State → Label → List Note) :
    ∃ tr', (m.record note).Run s tr' ∧ shown tr' = tr := by
  induction h with
  | start hi => exact ⟨[], .start hi, rfl⟩
  | next l _ hs ih =>
    rename_i s t tr obs hrun
    obtain ⟨tr', hrecorded, rfl⟩ := ih
    exact ⟨_, hrecorded.next l (record_step.mpr ⟨obs, hs, rfl⟩), shown_append tr' obs (note s l)⟩

end Machine

/-- What one atomic step of a thread comes to: the environment does not allow it,
the process ends, or it goes on. -/
inductive Outcome (Halt α : Type)
  | disabled
  | halt (h : Halt)
  | ok (a : α)

namespace Outcome

variable {Halt α β : Type}

protected def bind : Outcome Halt α → (α → Outcome Halt β) → Outcome Halt β
  | disabled, _ => disabled
  | halt h, _ => halt h
  | ok a, f => f a

instance : Monad (Outcome Halt) where
  pure := ok
  bind := Outcome.bind

/-- A test that ends the process when it fails. -/
def check (h : Halt) : Option α → Outcome Halt α
  | none => halt h
  | some a => ok a

def enabled : Option α → Outcome Halt α
  | none => disabled
  | some a => ok a

@[simp] theorem pure_eq (a : α) : (pure a : Outcome Halt α) = ok a := rfl

@[simp] theorem ok_bind (a : α) (f : α → Outcome Halt β) : (ok a >>= f) = f a := rfl

@[simp] theorem halt_bind (h : Halt) (f : α → Outcome Halt β) : (halt h >>= f) = halt h := rfl

@[simp] theorem disabled_bind (f : α → Outcome Halt β) :
    ((disabled : Outcome Halt α) >>= f) = disabled := rfl

@[simp] theorem check_some (h : Halt) (a : α) : check h (some a) = ok a := rfl

@[simp] theorem check_none (h : Halt) : (check h none : Outcome Halt α) = halt h := rfl

theorem bind_eq_ok {x : Outcome Halt α} {f : α → Outcome Halt β} {b : β} :
    (x >>= f) = ok b ↔ ∃ a, x = ok a ∧ f a = ok b := by
  cases x <;> simp

theorem bind_eq_halt {x : Outcome Halt α} {f : α → Outcome Halt β} {h : Halt} :
    (x >>= f) = halt h ↔ x = halt h ∨ ∃ a, x = ok a ∧ f a = halt h := by
  cases x <;> simp

theorem check_eq_ok {h : Halt} {x : Option α} {a : α} : check h x = ok a ↔ x = some a := by
  cases x <;> simp

theorem check_eq_halt {h h' : Halt} {x : Option α} :
    check h x = halt h' ↔ x = none ∧ h = h' := by
  cases x <;> simp

theorem enabled_eq_ok {x : Option α} {a : α} :
    (enabled x : Outcome Halt α) = ok a ↔ x = some a := by
  cases x <;> simp [enabled]

theorem enabled_ne_halt {x : Option α} {h : Halt} :
    (enabled x : Outcome Halt α) ≠ halt h := by
  cases x <;> simp [enabled]

/-- If the process ends it ends with `P`, and if the step goes on it ends with
`Q`. -/
def Ensures (x : Outcome Halt α) (P : Halt → Prop) (Q : α → Prop) : Prop :=
  match x with
  | disabled => True
  | halt h => P h
  | ok a => Q a

theorem Ensures.mono {P P' : Halt → Prop} {Q : α → Prop} {x : Outcome Halt α}
    (h : x.Ensures P Q) (hP : ∀ h, P h → P' h) : x.Ensures P' Q := by
  cases x with
  | disabled => trivial
  | halt e => exact hP e h
  | ok _ => exact h

theorem Ensures.seq {P : Halt → Prop} {Q : α → Prop} {R : β → Prop} {x : Outcome Halt α}
    {f : α → Outcome Halt β} (hx : x.Ensures P Q) (hf : ∀ a, Q a → (f a).Ensures P R) :
    (x >>= f).Ensures P R := by
  cases x with
  | disabled => trivial
  | halt _ => exact hx
  | ok a => exact hf a hx

theorem Ensures.bind {P : Halt → Prop} {Q : β → Prop} {x : Outcome Halt α}
    {f : α → Outcome Halt β} (hx : ∀ h, x = halt h → P h)
    (hf : ∀ a, x = ok a → (f a).Ensures P Q) : (x >>= f).Ensures P Q := by
  cases x with
  | disabled => trivial
  | halt h => exact hx h rfl
  | ok a => exact hf a rfl

end Outcome

namespace Trace

variable {Obs : Type*}

/-- Every observation satisfies `P` together with the trace before it. -/
def Each (P : List Obs → Obs → Prop) (tr : List Obs) : Prop :=
  ∀ before o after, tr = before ++ o :: after → P before o

theorem Each.nil (P : List Obs → Obs → Prop) : Each P [] := by
  intro before o after h
  simp at h

theorem Each.snoc {P : List Obs → Obs → Prop} {tr : List Obs} {o : Obs} (h : Each P tr)
    (ho : P tr o) : Each P (tr ++ [o]) := by
  intro before o' after he
  cases after using List.reverseRecOn with
  | nil =>
    obtain ⟨rfl, he'⟩ := List.append_inj' he rfl
    cases he'
    exact ho
  | append_singleton after last =>
    rw [← List.cons_append, ← List.append_assoc] at he
    exact h _ _ _ (List.append_inj' he rfl).1

/-- The observations after the last one that satisfies `p`. -/
def since (p : Obs → Bool) (tr : List Obs) : List Obs :=
  tr.foldl (fun last o => if p o then [] else last ++ [o]) []

theorem since_snoc (p : Obs → Bool) (tr : List Obs) (o : Obs) :
    since p (tr ++ [o]) = if p o then [] else since p tr ++ [o] := by
  rw [since, List.foldl_append]
  rfl

theorem flatMap_since_snoc {β : Type*} (f : Obs → List β) (p : Obs → Bool) (tr : List Obs) (o : Obs) :
    (since p (tr ++ [o])).flatMap f = if p o then [] else (since p tr).flatMap f ++ f o := by
  rw [since_snoc]
  split
  · rfl
  · rw [List.flatMap_append, List.flatMap_singleton]

end Trace

end Jullop
