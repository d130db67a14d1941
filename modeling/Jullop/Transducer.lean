import Mathlib.Data.List.Basic

/-! Decoders that read a stream one symbol at a time, hand out symbols of their
own on the way, and either come to the end of what they decode, refuse a symbol
or wait for more. A symbol that is refused is not read. -/

namespace Jullop

namespace Transducer

inductive Reply (σ β : Type)
  | next (s : σ) (out : List β)
  | last (s : σ)
  | refuse

def Reply.out {σ β : Type} : Reply σ β → List β
  | .next _ out => out
  | _ => []

@[simp] theorem Reply.out_next {σ β : Type} (s : σ) (out : List β) : (next s out).out = out := rfl

@[simp] theorem Reply.out_last {σ β : Type} (s : σ) : (last s : Reply σ β).out = [] := rfl

@[simp] theorem Reply.out_refuse {σ β : Type} : (refuse : Reply σ β).out = [] := rfl

/-- Where the decoder comes to the end, the symbols behind it are left over. -/
inductive Verdict (α : Type)
  | more
  | done (rest : List α)
  | refused
  deriving DecidableEq, Repr

structure Result (σ α β : Type) where
  verdict : Verdict α
  state : σ
  out : List β
  deriving DecidableEq, Repr

variable {σ α β : Type}

def Verdict.extend (more : List α) : Verdict α → Verdict α
  | .more => .more
  | .done rest => .done (rest ++ more)
  | .refused => .refused

namespace Result

/-- The result when symbols had been handed out before. -/
def after (out : List β) (r : Result σ α β) : Result σ α β := { r with out := out ++ r.out }

def extend (r : Result σ α β) (more : List α) : Result σ α β :=
  { r with verdict := r.verdict.extend more }

@[simp] theorem after_verdict (out : List β) (r : Result σ α β) :
    (r.after out).verdict = r.verdict := rfl

@[simp] theorem after_nil (r : Result σ α β) : r.after [] = r := rfl

theorem after_after (out out' : List β) (r : Result σ α β) :
    (r.after out').after out = r.after (out ++ out') := by
  simp [after]

theorem after_extend (out : List β) (r : Result σ α β) (more : List α) :
    (r.extend more).after out = (r.after out).extend more := rfl

end Result

section

variable (turn : σ → α → Reply σ β)

def run (s : σ) : List α → Result σ α β
  | [] => ⟨.more, s, []⟩
  | c :: cs =>
    match turn s c with
    | .next t out => (run t cs).after out
    | .last t => ⟨.done cs, t, []⟩
    | .refuse => ⟨.refused, s, []⟩

/-- The fragments of a stream handed to `call` one after the other, until one of
the calls asks for no more. -/
def feed (call : σ → List α → Option (Result σ α β)) (s : σ) :
    List (List α) → Option (Result σ α β)
  | [] => some ⟨.more, s, []⟩
  | x :: xs => do
    let r ← call s x
    match r.verdict with
    | .more => return (← feed call r.state xs).after r.out
    | _ => return r.extend xs.flatten

variable {turn} {s t : σ} {c : α} {out : List β} {xs : List α}

theorem run_next (h : turn s c = .next t out) : run turn s (c :: xs) = (run turn t xs).after out := by
  simp only [run, h]

theorem run_last (h : turn s c = .last t) : run turn s (c :: xs) = ⟨.done xs, t, []⟩ := by
  simp only [run, h]

theorem run_refuse (h : turn s c = .refuse) : run turn s (c :: xs) = ⟨.refused, s, []⟩ := by
  simp only [run, h]

theorem run_singleton_out (s : σ) (c : α) : (run turn s [c]).out = (turn s c).out := by
  cases hc : turn s c with
  | next t out => rw [run_next hc]; exact List.append_nil out
  | last t => rw [run_last hc]; rfl
  | refuse => rw [run_refuse hc]; rfl

/-- Two states that do the same with the next symbol come to the same. -/
theorem run_congr (h : turn s c = turn t c) (hne : turn t c ≠ .refuse) :
    run turn s (c :: xs) = run turn t (c :: xs) := by
  cases hc : turn t c with
  | next u out => rw [run_next hc, run_next (h.trans hc)]
  | last u => rw [run_last hc, run_last (h.trans hc)]
  | refuse => exact absurd hc hne

theorem run_append_more (h : (run turn s xs).verdict = .more) (ys : List α) :
    run turn s (xs ++ ys) = (run turn (run turn s xs).state ys).after (run turn s xs).out := by
  induction xs generalizing s with
  | nil => rfl
  | cons c xs ih =>
    rw [List.cons_append]
    cases hc : turn s c with
    | next t out =>
      rw [run_next hc] at h
      rw [run_next hc, run_next hc, ih h, Result.after_after]
      rfl
    | last t => simp [run_last hc] at h
    | refuse => simp [run_refuse hc] at h

theorem run_append_of_ne (h : (run turn s xs).verdict ≠ .more) (ys : List α) :
    run turn s (xs ++ ys) = (run turn s xs).extend ys := by
  induction xs generalizing s with
  | nil => exact absurd rfl h
  | cons c xs ih =>
    rw [List.cons_append]
    cases hc : turn s c with
    | next t out =>
      rw [run_next hc] at h
      rw [run_next hc, run_next hc, ih h, Result.after_extend]
    | last t =>
      rw [run_last hc, run_last hc]
      rfl
    | refuse =>
      rw [run_refuse hc, run_refuse hc]
      rfl

/-- However a stream is cut into fragments, what a decoder makes of them is what
it makes of the stream. -/
theorem feed_eq_run {Inv : σ → Prop} {call : σ → List α → Option (Result σ α β)}
    {xss : List (List α)} (hcall : ∀ s, ∀ x ∈ xss, Inv s → call s x = some (run turn s x))
    (hinv : ∀ s x, Inv s → Inv (run turn s x).state) (hs : Inv s) :
    feed call s xss = some (run turn s xss.flatten) := by
  induction xss generalizing s with
  | nil => rfl
  | cons x xss ih =>
    have hx := hcall s x (by simp) hs
    have hrest := ih (fun s y hy => hcall s y (by simp [hy])) (hinv s x hs)
    rw [List.flatten_cons]
    cases hv : (run turn s x).verdict with
    | more => simp [feed, hx, hv, hrest, run_append_more hv]
    | done rest => simp [feed, hx, hv, run_append_of_ne]
    | refused => simp [feed, hx, hv, run_append_of_ne]

end

/-! What a decoder accepts, told by a language for each of its states. -/

/-- `L s xs out` says that from the state `s` the symbols `xs` complete what is
decoded and hand out `out`. Reading a symbol takes each language to its
derivative. -/
structure Derives (turn : σ → α → Reply σ β) (Inv : σ → Prop)
    (L : σ → List α → List β → Prop) : Prop where
  nil {s : σ} {o : List β} : Inv s → ¬ L s [] o
  next {s t : σ} {c : α} {out : List β} : Inv s → turn s c = .next t out →
    Inv t ∧ ∀ xs o, L s (c :: xs) o ↔ ∃ o', o = out ++ o' ∧ L t xs o'
  last {s t : σ} {c : α} : Inv s → turn s c = .last t →
    Inv t ∧ ∀ xs o, L s (c :: xs) o ↔ xs = [] ∧ o = []
  refuse {s : σ} {c : α} : Inv s → turn s c = .refuse → ∀ xs o, ¬ L s (c :: xs) o

namespace Derives

variable {turn : σ → α → Reply σ β} {Inv : σ → Prop} {L : σ → List α → List β → Prop}
  {s : σ}

theorem inv_state (h : Derives turn Inv L) (hs : Inv s) (xs : List α) :
    Inv (run turn s xs).state := by
  induction xs generalizing s with
  | nil => exact hs
  | cons c xs ih =>
    cases hc : turn s c with
    | next t out =>
      rw [run_next hc]
      exact ih (h.next hs hc).1
    | last t =>
      rw [run_last hc]
      exact (h.last hs hc).1
    | refuse =>
      rw [run_refuse hc]
      exact hs

/-- The decoder ends on the words of the language and on no others. -/
theorem done_iff (h : Derives turn Inv L) (hs : Inv s) (xs rest : List α) (o : List β) :
    (∃ t, run turn s xs = ⟨.done rest, t, o⟩) ↔ ∃ ys, xs = ys ++ rest ∧ L s ys o := by
  induction xs generalizing s o with
  | nil =>
    constructor
    · rintro ⟨t, ht⟩
      cases ht
    · rintro ⟨ys, hys, hl⟩
      obtain ⟨rfl, rfl⟩ := List.append_eq_nil_iff.mp hys.symm
      exact absurd hl (h.nil hs)
  | cons c xs ih =>
    have hhead : ∀ {ys : List α}, c :: xs = ys ++ rest → L s ys o →
        ∃ zs, ys = c :: zs ∧ xs = zs ++ rest := by
      intro ys hys hl
      rcases ys with _ | ⟨d, zs⟩
      · exact absurd hl (h.nil hs)
      · obtain ⟨rfl, hxs⟩ := List.cons.inj hys
        exact ⟨zs, rfl, hxs⟩
    cases hc : turn s c with
    | next t out =>
      obtain ⟨ht, hl⟩ := h.next hs hc
      rw [run_next hc]
      constructor
      · rintro ⟨u, hu⟩
        have hrun : run turn t xs = ⟨.done rest, u, (run turn t xs).out⟩ := by
          simp only [Result.after, Result.mk.injEq] at hu
          obtain ⟨hv, hst, -⟩ := hu
          rw [← hv, ← hst]
        obtain ⟨ys, hys, hlys⟩ := (ih ht _).mp ⟨u, hrun⟩
        refine ⟨c :: ys, by rw [hys, List.cons_append], (hl ys o).mpr ⟨_, ?_, hlys⟩⟩
        exact (congrArg Result.out hu).symm
      · rintro ⟨ys, hys, hlys⟩
        obtain ⟨zs, rfl, hxs⟩ := hhead hys hlys
        obtain ⟨o', rfl, hlzs⟩ := (hl zs o).mp hlys
        obtain ⟨u, hu⟩ := (ih ht _).mpr ⟨zs, hxs, hlzs⟩
        exact ⟨u, by rw [hu]; rfl⟩
    | last t =>
      obtain ⟨-, hl⟩ := h.last hs hc
      rw [run_last hc]
      constructor
      · rintro ⟨u, hu⟩
        simp only [Result.mk.injEq, Verdict.done.injEq] at hu
        obtain ⟨rfl, -, rfl⟩ := hu
        exact ⟨[c], rfl, (hl [] []).mpr ⟨rfl, rfl⟩⟩
      · rintro ⟨ys, hys, hlys⟩
        obtain ⟨zs, rfl, hxs⟩ := hhead hys hlys
        obtain ⟨rfl, rfl⟩ := (hl zs o).mp hlys
        exact ⟨t, by rw [hxs, List.nil_append]⟩
    | refuse =>
      rw [run_refuse hc]
      constructor
      · rintro ⟨u, hu⟩
        cases hu
      · rintro ⟨ys, hys, hlys⟩
        obtain ⟨zs, rfl, -⟩ := hhead hys hlys
        exact absurd hlys (h.refuse hs hc zs o)

/-- Where every state can still come to an end, the decoder waits for more on
exactly the proper prefixes of what it accepts. -/
theorem more_iff (h : Derives turn Inv L) (hlive : ∀ s, Inv s → ∃ ys o, L s ys o) (hs : Inv s)
    (xs : List α) :
    (run turn s xs).verdict = .more ↔ ∃ ys o, ys ≠ [] ∧ L s (xs ++ ys) o := by
  induction xs generalizing s with
  | nil =>
    obtain ⟨ys, o, hl⟩ := hlive s hs
    have hne : ys ≠ [] := by
      rintro rfl
      exact h.nil hs hl
    exact iff_of_true rfl ⟨ys, o, hne, hl⟩
  | cons c xs ih =>
    cases hc : turn s c with
    | next t out =>
      obtain ⟨ht, hl⟩ := h.next hs hc
      rw [run_next hc, Result.after_verdict, ih ht]
      constructor
      · rintro ⟨ys, o, hne, hlys⟩
        exact ⟨ys, out ++ o, hne, (hl _ _).mpr ⟨o, rfl, hlys⟩⟩
      · rintro ⟨ys, o, hne, hlys⟩
        obtain ⟨o', -, hlys'⟩ := (hl _ _).mp hlys
        exact ⟨ys, o', hne, hlys'⟩
    | last t =>
      obtain ⟨-, hl⟩ := h.last hs hc
      rw [run_last hc]
      refine iff_of_false (by simp) ?_
      rintro ⟨ys, o, hne, hlys⟩
      exact hne (List.append_eq_nil_iff.mp ((hl _ _).mp hlys).1).2
    | refuse =>
      rw [run_refuse hc]
      refine iff_of_false (by simp) ?_
      rintro ⟨ys, o, -, hlys⟩
      exact h.refuse hs hc _ _ hlys

end Derives

end Transducer

end Jullop
