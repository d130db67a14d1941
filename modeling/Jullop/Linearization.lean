import Jullop.Machine

/-! Linearizable objects. Threads call an object and are answered. A history of calls
and answers is linearizable if the calls can be made one at a time, each at some moment
between its start and its answer. -/

namespace Jullop

namespace Linearization

variable {σ Call Answer : Type*}

inductive Event (Call Answer : Type*)
  | call (thread : Nat) (c : Call)
  | ret (thread : Nat) (a : Answer)

/-- A call that has been made on the object, with its answer. -/
structure Entry (Call Answer : Type*) where
  thread : Nat
  call : Call
  answer : Answer

@[simp] def Event.startedBy (t : Nat) : Event Call Answer → Option Call
  | .call t' c => if t' = t then some c else none
  | .ret _ _ => none

@[simp] def Event.answerTo (t : Nat) : Event Call Answer → Option Answer
  | .call _ _ => none
  | .ret t' a => if t' = t then some a else none

def started (t : Nat) (tr : List (Event Call Answer)) : List Call :=
  tr.filterMap (Event.startedBy t)

def answered (t : Nat) (tr : List (Event Call Answer)) : List Answer :=
  tr.filterMap (Event.answerTo t)

/-- The entries of one thread. -/
def made (t : Nat) (order : List (Entry Call Answer)) : List (Entry Call Answer) :=
  order.filter fun entry => entry.thread = t

/-- The calls of `order`, one after another, lead from `q` to `q'` with their answers. -/
inductive Legal (perform : σ → Call → Option (σ × Answer)) (q : σ) :
    List (Entry Call Answer) → σ → Prop
  | nil : Legal perform q [] q
  | snoc {order : List (Entry Call Answer)} {q' q'' : σ} {t : Nat} {c : Call} {a : Answer} :
      Legal perform q order q' → perform q' c = some (q'', a) →
      Legal perform q (order ++ [⟨t, c, a⟩]) q''

/-- Up to the moment at which `tr` was the history, the calls of `order` can have been
made: every call that was answered, and only calls that were started. -/
def Explains (order : List (Entry Call Answer)) (tr : List (Event Call Answer)) : Prop :=
  ∀ t, answered t tr <+: (made t order).map Entry.answer ∧
    (made t order).map Entry.call <+: started t tr

/-- One order explains the history at each moment, by the part of it made so far. So a
call that was answered before another was started comes before it. -/
def Linearizable (perform : σ → Call → Option (σ × Answer)) (q : σ)
    (tr : List (Event Call Answer)) : Prop :=
  ∃ order q', Legal perform q order q' ∧
    ∀ before, before <+: tr → ∃ sofar, sofar <+: order ∧ Explains sofar before

inductive Phase (Call Answer : Type*)
  | idle
  | called (c : Call)
  | done (a : Answer)

inductive Move (Call : Type*)
  | call (c : Call)
  | commit
  | ret

/-- The object that makes each call at once, at some moment of it. -/
def object (q : σ) (perform : σ → Call → Option (σ × Answer)) :
    Machine (σ × (Nat → Phase Call Answer)) (Nat × Move Call) (Event Call Answer) where
  init s := s = (q, fun _ => .idle)
  step s l :=
    match l.2, s.2 l.1 with
    | .call c, .idle => some ((s.1, Function.update s.2 l.1 (.called c)), [.call l.1 c])
    | .commit, .called c =>
      (perform s.1 c).map fun y => ((y.1, Function.update s.2 l.1 (.done y.2)), [])
    | .ret, .done a => some ((s.1, Function.update s.2 l.1 .idle), [.ret l.1 a])
    | _, _ => none

/-- What a step of the object can be. -/
inductive Step (perform : σ → Call → Option (σ × Answer)) (t : Nat)
    (s : σ × (Nat → Phase Call Answer)) :
    σ × (Nat → Phase Call Answer) → List (Event Call Answer) → Prop
  | call {c : Call} (h : s.2 t = .idle) :
      Step perform t s (s.1, Function.update s.2 t (.called c)) [.call t c]
  | commit {c : Call} {q : σ} {a : Answer} (h : s.2 t = .called c)
      (hq : perform s.1 c = some (q, a)) :
      Step perform t s (q, Function.update s.2 t (.done a)) []
  | ret {a : Answer} (h : s.2 t = .done a) :
      Step perform t s (s.1, Function.update s.2 t .idle) [.ret t a]

@[simp] def Phase.pending : Phase Call Answer → List Call
  | .called c => [c]
  | _ => []

@[simp] def Phase.unreturned : Phase Call Answer → List Answer
  | .done a => [a]
  | _ => []

/-- The calls made so far are those that were answered, and for each thread at most the
one that it is in. -/
def Tally (order : List (Entry Call Answer)) (phases : Nat → Phase Call Answer)
    (tr : List (Event Call Answer)) : Prop :=
  ∀ t, started t tr = (made t order).map Entry.call ++ (phases t).pending ∧
    (made t order).map Entry.answer = answered t tr ++ (phases t).unreturned

section

variable {perform : σ → Call → Option (σ × Answer)} {q : σ}
  {s s' : σ × (Nat → Phase Call Answer)} {tr obs : List (Event Call Answer)}
  {order : List (Entry Call Answer)} {phases : Nat → Phase Call Answer}

@[simp] theorem started_snoc (t : Nat) (tr : List (Event Call Answer)) (o : Event Call Answer) :
    started t (tr ++ [o]) = started t tr ++ (o.startedBy t).toList := by
  rw [started, started, List.filterMap_append]
  cases h : o.startedBy t with
  | none | some => simp only [List.filterMap_cons, h, List.filterMap_nil, Option.toList]

@[simp] theorem answered_snoc (t : Nat) (tr : List (Event Call Answer)) (o : Event Call Answer) :
    answered t (tr ++ [o]) = answered t tr ++ (o.answerTo t).toList := by
  rw [answered, answered, List.filterMap_append]
  cases h : o.answerTo t with
  | none | some => simp only [List.filterMap_cons, h, List.filterMap_nil, Option.toList]

@[simp] theorem made_snoc (t : Nat) (order : List (Entry Call Answer)) (entry : Entry Call Answer) :
    made t (order ++ [entry]) = made t order ++ if entry.thread = t then [entry] else [] := by
  rw [made, made, List.filter_append]
  by_cases h : entry.thread = t
  · simp [h]
  · simp [h]

theorem object_step {l : Nat × Move Call} (h : (object q perform).step s l = some (s', obs)) :
    Step perform l.1 s s' obs := by
  obtain ⟨t, move⟩ := l
  simp only [object] at h
  split at h
  · rename_i hphase
    cases h
    exact .call hphase
  · rename_i hphase
    simp only [Option.map_eq_some_iff, Prod.mk.injEq, Prod.exists] at h
    obtain ⟨q', a, hq, rfl, rfl⟩ := h
    exact .commit hphase hq
  · rename_i hphase
    cases h
    exact .ret hphase
  · cases h

theorem Tally.explains (h : Tally order phases tr) : Explains order tr := by
  intro t
  obtain ⟨hstarted, hanswered⟩ := h t
  exact ⟨hanswered ▸ List.prefix_append _ _, hstarted ▸ List.prefix_append _ _⟩

/-- A step of one thread, which the tally of the others does not see. -/
theorem Tally.update {t : Nat} {phase : Phase Call Answer} {order' : List (Entry Call Answer)}
    {tr' : List (Event Call Answer)} (h : Tally order phases tr)
    (hself : started t tr' = (made t order').map Entry.call ++ phase.pending ∧
      (made t order').map Entry.answer = answered t tr' ++ phase.unreturned)
    (hother : ∀ t', t' ≠ t → started t' tr' = started t' tr ∧ answered t' tr' = answered t' tr ∧
      made t' order' = made t' order) : Tally order' (Function.update phases t phase) tr' := by
  intro t'
  by_cases ht : t' = t
  · subst ht
    rw [Function.update_self]
    exact hself
  · obtain ⟨hstarted, hanswered, hmade⟩ := hother t' ht
    rw [Function.update_of_ne ht, hstarted, hanswered, hmade]
    exact h t'

theorem Tally.step {t : Nat} (h : Tally order s.2 tr) (hstep : Step perform t s s' obs) :
    (s'.1 = s.1 ∧ (∃ o, obs = [o]) ∧ Tally order s'.2 (tr ++ obs)) ∨
      ∃ c a, perform s.1 c = some (s'.1, a) ∧ obs = [] ∧ Tally (order ++ [⟨t, c, a⟩]) s'.2 tr := by
  obtain ⟨hstarted, hanswered⟩ := h t
  cases hstep with
  | call hphase =>
    rw [hphase] at hstarted hanswered
    refine .inl ⟨rfl, ⟨_, rfl⟩, h.update ?_ fun t' ht => ?_⟩
    · exact ⟨by simp [hstarted], by simp [hanswered]⟩
    · simp [Ne.symm ht]
  | @commit c q' a hphase hq =>
    rw [hphase] at hstarted hanswered
    refine .inr ⟨c, a, hq, rfl, h.update ?_ fun t' ht => ?_⟩
    · exact ⟨by simp [hstarted], by simp [hanswered]⟩
    · simp [Ne.symm ht]
  | ret hphase =>
    rw [hphase] at hstarted hanswered
    refine .inl ⟨rfl, ⟨_, rfl⟩, h.update ?_ fun t' ht => ?_⟩
    · exact ⟨by simp [hstarted], by simp [hanswered]⟩
    · simp [Ne.symm ht]

theorem object_linearizable (h : (object q perform).Run s tr) : Linearizable perform q tr := by
  suffices hinv : ∃ order, Legal perform q order s.1 ∧ Tally order s.2 tr ∧
      ∀ before, before <+: tr → ∃ sofar, sofar <+: order ∧ Explains sofar before by
    obtain ⟨order, hlegal, -, hall⟩ := hinv
    exact ⟨order, s.1, hlegal, hall⟩
  induction h with
  | start hi =>
    cases hi
    refine ⟨[], .nil, fun _ => ⟨rfl, rfl⟩, fun before hbefore => ⟨[], List.prefix_rfl, ?_⟩⟩
    rw [List.prefix_nil.mp hbefore]
    exact fun _ => ⟨List.prefix_rfl, List.prefix_rfl⟩
  | @next s s' tr obs l _ hs ih =>
    obtain ⟨order, hlegal, htally, hall⟩ := ih
    have hstep := object_step hs
    rcases htally.step hstep with ⟨hsame, ⟨o, rfl⟩, htally'⟩ | ⟨c, a, hq, rfl, htally'⟩
    · refine ⟨order, hsame ▸ hlegal, htally', fun before hbefore => ?_⟩
      rcases List.prefix_concat_iff.mp hbefore with rfl | hprefix
      · exact ⟨order, List.prefix_rfl, htally'.explains⟩
      · exact hall before hprefix
    · refine ⟨order ++ [⟨l.1, c, a⟩], .snoc hlegal hq, ?_, fun before hbefore => ?_⟩
      · rw [List.append_nil]
        exact htally'
      · rw [List.append_nil] at hbefore
        obtain ⟨sofar, hprefix, hexplains⟩ := hall before hbefore
        exact ⟨sofar, hprefix.trans (List.prefix_append _ _), hexplains⟩

end

end Linearization

end Jullop
