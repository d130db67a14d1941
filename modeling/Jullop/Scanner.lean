import Mathlib.Algebra.Group.Nat.Defs
import Mathlib.Data.List.Basic

/-! Scanners: parsers that read symbols from the front of what has arrived so
far, fill in an output record on the way, and end with a value or with one of
two verdicts, that the input is malformed or that it ends too early. The output
record keeps what was filled in even when the scanner stops. -/

namespace Jullop

inductive Stop
  | incomplete
  | malformed
  deriving DecidableEq, Repr

structure Cursor (α σ : Type) where
  pos : Nat
  rest : List α
  out : σ

def Scanner (α σ β : Type) := Cursor α σ → Except Stop β × Cursor α σ

variable {α σ β γ : Type}

def Cursor.extend (s : Cursor α σ) (more : List α) : Cursor α σ :=
  { s with rest := s.rest ++ more }

def Cursor.skip (s : Cursor α σ) (n : Nat) : Cursor α σ :=
  { s with pos := s.pos + n, rest := s.rest.drop n }

namespace Scanner

protected def pure (a : β) : Scanner α σ β := fun s => (.ok a, s)

protected def bind (p : Scanner α σ β) (f : β → Scanner α σ γ) : Scanner α σ γ := fun s =>
  match p s with
  | (.ok a, s') => f a s'
  | (.error e, s') => (.error e, s')

instance : Monad (Scanner α σ) where
  pure := Scanner.pure
  bind := Scanner.bind

def stop (e : Stop) : Scanner α σ β := fun s => (.error e, s)

def current : Scanner α σ α := fun s =>
  match s.rest with
  | [] => (.error .incomplete, s)
  | c :: _ => (.ok c, s)

def advance : Scanner α σ Unit := fun s =>
  match s.rest with
  | [] => (.error .incomplete, s)
  | _ :: _ => (.ok (), s.skip 1)

def position : Scanner α σ Nat := fun s => (.ok s.pos, s)

def output : Scanner α σ σ := fun s => (.ok s.out, s)

def setOutput (f : σ → σ) : Scanner α σ Unit := fun s => (.ok (), { s with out := f s.out })

def require (n : Nat) : Scanner α σ Unit := fun s =>
  if s.rest.length < n then (.error .incomplete, s) else (.ok (), s)

inductive Move
  | go
  | halt
  | bad
  deriving DecidableEq

def span (f : α → Move) : List α → Except Stop Nat
  | [] => .error .incomplete
  | c :: cs =>
    match f c with
    | .go => (span f cs).map (· + 1)
    | .halt => .ok 0
    | .bad => .error .malformed

/-- A loop over the symbols up to the first that makes it halt, which stays
under the cursor. The value is the number of symbols passed over. -/
def scan (f : α → Move) : Scanner α σ Nat := fun s =>
  match span f s.rest with
  | .ok n => (.ok n, s.skip n)
  | .error e => (.error e, s)

theorem scan_ok {f : α → Move} {s : Cursor α σ} {n : Nat} (h : span f s.rest = .ok n) :
    scan f s = (.ok n, s.skip n) := by
  simp only [scan, h]

theorem scan_error {f : α → Move} {s : Cursor α σ} {e : Stop} (h : span f s.rest = .error e) :
    scan f s = (.error e, s) := by
  simp only [scan, h]

theorem bind_ok {p : Scanner α σ β} {f : β → Scanner α σ γ} {s s' : Cursor α σ} {a : β}
    (h : p s = (.ok a, s')) : (p >>= f) s = f a s' := by
  change Scanner.bind p f s = _
  simp only [Scanner.bind, h]

theorem bind_error {p : Scanner α σ β} {f : β → Scanner α σ γ} {s s' : Cursor α σ} {e : Stop}
    (h : p s = (.error e, s')) : (p >>= f) s = (.error e, s') := by
  change Scanner.bind p f s = _
  simp only [Scanner.bind, h]

theorem bind_cases (p : Scanner α σ β) (f : β → Scanner α σ γ) (s : Cursor α σ) :
    (∃ a s', p s = (.ok a, s') ∧ (p >>= f) s = f a s') ∨
      ∃ e s', p s = (.error e, s') ∧ (p >>= f) s = (.error e, s') := by
  rcases hp : p s with ⟨_ | _, s'⟩
  · exact .inr ⟨_, s', rfl, bind_error hp⟩
  · exact .inl ⟨_, s', rfl, bind_ok hp⟩

theorem span_append {f : α → Move} {xs : List α} (h : span f xs ≠ .error .incomplete)
    (ys : List α) : span f (xs ++ ys) = span f xs := by
  induction xs with
  | nil => exact absurd rfl h
  | cons c cs ih =>
    simp only [List.cons_append, span] at h ⊢
    cases hc : f c with
    | go =>
      have hcs : span f cs ≠ .error .incomplete := by
        intro he
        simp [hc, he, Except.map] at h
      simp only [ih hcs]
    | halt => rfl
    | bad => rfl

theorem span_eq_ok {f : α → Move} {xs : List α} {n : Nat} (h : span f xs = .ok n) :
    ∃ pre c post, xs = pre ++ c :: post ∧ pre.length = n ∧ (∀ x ∈ pre, f x = .go) ∧
      f c = .halt := by
  induction xs generalizing n with
  | nil => cases h
  | cons c cs ih =>
    simp only [span] at h
    cases hc : f c with
    | go =>
      simp only [hc] at h
      cases hs : span f cs with
      | error e => simp [hs, Except.map] at h
      | ok m =>
        simp only [hs, Except.map, Except.ok.injEq] at h
        obtain ⟨pre, d, post, rfl, hlen, hgo, hd⟩ := ih hs
        refine ⟨c :: pre, d, post, rfl, by simp [hlen, h], ?_, hd⟩
        simpa [hc] using hgo
    | halt =>
      simp only [hc, Except.ok.injEq] at h
      exact ⟨[], c, cs, rfl, h, by simp, hc⟩
    | bad => simp [hc] at h

theorem span_go_append {f : α → Move} {pre : List α} (h : ∀ x ∈ pre, f x = .go)
    (xs : List α) : span f (pre ++ xs) = (span f xs).map (pre.length + ·) := by
  induction pre with
  | nil => cases hs : span f xs <;> simp [hs, Except.map]
  | cons c cs ih =>
    rw [List.cons_append, span, h c (by simp), ih fun x hx => h x (by simp [hx])]
    cases hs : span f xs with
    | error e => rfl
    | ok n =>
      simp only [Except.map, List.length_cons, Except.ok.injEq]
      omega

theorem span_incomplete_iff {f : α → Move} {xs : List α} :
    span f xs = .error .incomplete ↔ ∀ x ∈ xs, f x = .go := by
  constructor
  · intro h
    induction xs with
    | nil => simp
    | cons c cs ih =>
      simp only [span] at h
      cases hc : f c with
      | go =>
        simp only [hc] at h
        cases hs : span f cs with
        | error e =>
          simp only [hs, Except.map, Except.error.injEq] at h
          subst h
          simpa [hc] using ih hs
        | ok m => simp [hs, Except.map] at h
      | halt => simp [hc] at h
      | bad => simp [hc] at h
  · intro h
    have he := span_go_append h []
    rw [List.append_nil] at he
    rw [he]
    rfl

theorem bind_apply (p : Scanner α σ β) (f : β → Scanner α σ γ) (s : Cursor α σ) :
    (p >>= f) s = match p s with
      | (.ok a, s') => f a s'
      | (.error e, s') => (.error e, s') := rfl

theorem fst_bind_error {p : Scanner α σ β} {f : β → Scanner α σ γ} {s : Cursor α σ} {e : Stop}
    (h : (p s).1 = .error e) : ((p >>= f) s).1 = .error e := by
  have hs : p s = (.error e, (p s).2) := Prod.ext h rfl
  rw [bind_error hs]

@[simp] theorem pure_apply (a : β) (s : Cursor α σ) : (Pure.pure a : Scanner α σ β) s = (.ok a, s) := rfl
@[simp] theorem stop_apply (e : Stop) (s : Cursor α σ) : (stop e : Scanner α σ β) s = (.error e, s) := rfl
@[simp] theorem position_apply (s : Cursor α σ) : position s = (.ok s.pos, s) := rfl
@[simp] theorem output_apply (s : Cursor α σ) : output s = (.ok s.out, s) := rfl
@[simp] theorem setOutput_apply (f : σ → σ) (s : Cursor α σ) :
    setOutput f s = (.ok (), { s with out := f s.out }) := rfl
@[simp] theorem current_nil (pos : Nat) (out : σ) :
    (current : Scanner α σ α) ⟨pos, [], out⟩ = (.error .incomplete, ⟨pos, [], out⟩) := rfl
@[simp] theorem current_cons (pos : Nat) (c : α) (cs : List α) (out : σ) :
    current ⟨pos, c :: cs, out⟩ = (.ok c, ⟨pos, c :: cs, out⟩) := rfl
@[simp] theorem advance_cons (pos : Nat) (c : α) (cs : List α) (out : σ) :
    advance ⟨pos, c :: cs, out⟩ = (.ok (), ⟨pos + 1, cs, out⟩) := rfl

theorem span_cases (f : α → Move) (xs : List α) :
    (∀ x ∈ xs, f x = .go) ∨
      (∃ pre c post, xs = pre ++ c :: post ∧ (∀ x ∈ pre, f x = .go) ∧ f c = .halt) ∨
      span f xs = .error .malformed := by
  cases hs : span f xs with
  | error e =>
    cases e with
    | incomplete => exact .inl (span_incomplete_iff.mp hs)
    | malformed => exact .inr (.inr rfl)
  | ok n =>
    obtain ⟨pre, c, post, hxs, _, hgo, hc⟩ := span_eq_ok hs
    exact .inr (.inl ⟨pre, c, post, hxs, hgo, hc⟩)

theorem scan_waits {f : α → Move} {xs : List α} (h : ∀ x ∈ xs, f x = .go) (pos : Nat) (out : σ) :
    scan f ⟨pos, xs, out⟩ = (.error .incomplete, ⟨pos, xs, out⟩) :=
  scan_error (span_incomplete_iff.mpr h)

theorem scan_halts {f : α → Move} {pre : List α} {c : α} (h : ∀ x ∈ pre, f x = .go)
    (hc : f c = .halt) (post : List α) (pos : Nat) (out : σ) :
    scan f ⟨pos, pre ++ c :: post, out⟩ =
      (.ok pre.length, ⟨pos + pre.length, c :: post, out⟩) := by
  have hspan : span f (pre ++ c :: post) = .ok pre.length := by
    rw [span_go_append h]
    simp [span, hc, Except.map]
  rw [scan_ok hspan]
  simp [Cursor.skip]

/-! Verdicts that more input cannot change. -/

/-- Unless the scanner asks for more input, more input changes nothing. -/
def Stable (p : Scanner α σ β) : Prop :=
  ∀ s more, (p s).1 ≠ .error .incomplete →
    p (s.extend more) = ((p s).1, (p s).2.extend more)

theorem Stable.pure (a : β) : Stable (Pure.pure a : Scanner α σ β) := fun _ _ _ => rfl

theorem Stable.stop (e : Stop) : Stable (stop e : Scanner α σ β) := fun _ _ _ => rfl

theorem Stable.position : Stable (position : Scanner α σ Nat) := fun _ _ _ => rfl

theorem Stable.output : Stable (output : Scanner α σ σ) := fun _ _ _ => rfl

theorem Stable.setOutput (f : σ → σ) : Stable (setOutput f : Scanner α σ Unit) :=
  fun _ _ _ => rfl

theorem Stable.current : Stable (current : Scanner α σ α) := by
  rintro ⟨pos, _ | ⟨c, cs⟩, out⟩ more h
  · exact absurd rfl h
  · rfl

theorem Stable.advance : Stable (advance : Scanner α σ Unit) := by
  rintro ⟨pos, _ | ⟨c, cs⟩, out⟩ more h
  · exact absurd rfl h
  · rfl

theorem Stable.require (n : Nat) : Stable (require n : Scanner α σ Unit) := by
  intro s more h
  by_cases hn : s.rest.length < n
  · simp [Scanner.require, hn] at h
  · have hn' : ¬ (s.extend more).rest.length < n := by
      simp only [Cursor.extend, List.length_append]
      omega
    simp [Scanner.require, hn, hn']

theorem Stable.scan (f : α → Move) : Stable (scan f : Scanner α σ Nat) := by
  intro s more h
  have hne : span f s.rest ≠ .error .incomplete := by
    intro he
    exact h (by rw [scan_error he])
  have happ := span_append hne more
  cases hs : span f s.rest with
  | error e => rw [scan_error hs, scan_error (happ.trans hs)]
  | ok n =>
    obtain ⟨pre, c, post, hrest, rfl, _⟩ := span_eq_ok hs
    have hle : pre.length ≤ s.rest.length := by
      rw [hrest, List.length_append]
      omega
    rw [scan_ok hs, scan_ok (happ.trans hs)]
    simp [Cursor.extend, Cursor.skip, List.drop_append_of_le_length hle]

theorem Stable.bind {p : Scanner α σ β} {f : β → Scanner α σ γ} (hp : Stable p)
    (hf : ∀ a, Stable (f a)) : Stable (p >>= f) := by
  intro s more h
  rcases bind_cases p f s with ⟨a, s', hs, hb⟩ | ⟨e, s', hs, hb⟩
  · rw [hb] at h ⊢
    have hext := hp s more (by simp [hs])
    rw [hs] at hext
    rw [bind_ok hext]
    exact hf a s' more h
  · rw [hb] at h ⊢
    have hext := hp s more (by simpa [hs] using h)
    rw [hs] at hext
    exact bind_error hext

theorem Stable.ite {c : Prop} [Decidable c] {p q : Scanner α σ β} (hp : Stable p)
    (hq : Stable q) : Stable (if c then p else q) := by
  split
  · exact hp
  · exact hq

theorem Stable.ok {p : Scanner α σ β} (hp : Stable p) {s s' : Cursor α σ} {a : β}
    (h : p s = (.ok a, s')) (more : List α) : p (s.extend more) = (.ok a, s'.extend more) := by
  have hext := hp s more (by simp [h])
  rwa [h] at hext

/-! Parts of the output that a scanner leaves alone. -/

/-- The part `f` of the output stays as it is. -/
def Keeps {τ : Type} (f : σ → τ) (p : Scanner α σ β) : Prop := ∀ s, f (p s).2.out = f s.out

section Keeps

variable {τ : Type} {f : σ → τ}

theorem Keeps.pure (a : β) : Keeps f (Pure.pure a : Scanner α σ β) := fun _ => rfl

theorem Keeps.stop (e : Stop) : Keeps f (stop e : Scanner α σ β) := fun _ => rfl

theorem Keeps.position : Keeps f (position : Scanner α σ Nat) := fun _ => rfl

theorem Keeps.output : Keeps f (output : Scanner α σ σ) := fun _ => rfl

theorem Keeps.setOutput {g : σ → σ} (h : ∀ s, f (g s) = f s) :
    Keeps f (setOutput g : Scanner α σ Unit) := fun s => h s.out

theorem Keeps.current : Keeps f (current : Scanner α σ α) := by
  rintro ⟨pos, _ | ⟨c, cs⟩, out⟩ <;> rfl

theorem Keeps.advance : Keeps f (advance : Scanner α σ Unit) := by
  rintro ⟨pos, _ | ⟨c, cs⟩, out⟩ <;> rfl

theorem Keeps.require (n : Nat) : Keeps f (require n : Scanner α σ Unit) := by
  intro s
  simp only [Scanner.require]
  split <;> rfl

theorem Keeps.scan (m : α → Move) : Keeps f (scan m : Scanner α σ Nat) := by
  intro s
  cases hs : span m s.rest with
  | error e => rw [scan_error hs]
  | ok n =>
    rw [scan_ok hs]
    rfl

theorem Keeps.bind {p : Scanner α σ β} {g : β → Scanner α σ γ} (hp : Keeps f p)
    (hg : ∀ a, Keeps f (g a)) : Keeps f (p >>= g) := by
  intro s
  have hkeep := hp s
  rcases bind_cases p g s with ⟨a, s', hs, hb⟩ | ⟨e, s', hs, hb⟩
  · rw [hs] at hkeep
    rw [hb, hg a s', hkeep]
  · rw [hs] at hkeep
    rw [hb, hkeep]

theorem Keeps.ite {c : Prop} [Decidable c] {p q : Scanner α σ β} (hp : Keeps f p)
    (hq : Keeps f q) : Keeps f (if c then p else q) := by
  split
  · exact hp
  · exact hq

end Keeps

/-! Scanners run on a part of a larger output record. -/

/-- `p` run on the part of the record that `get` shows, which `put` then replaces. -/
def zoom {τ : Type} (get : τ → σ) (put : σ → τ → τ) (p : Scanner α σ β) : Scanner α τ β := fun s =>
  let r := p ⟨s.pos, s.rest, get s.out⟩
  (r.1, ⟨r.2.pos, r.2.rest, put r.2.out s.out⟩)

section

variable {τ : Type} {get : τ → σ} {put : σ → τ → τ} {p : Scanner α σ β} {pos : Nat} {xs : List α}
  {out : τ}

theorem zoom_eq {r : Except Stop β} {s : Cursor α σ} (h : p ⟨pos, xs, get out⟩ = (r, s)) :
    zoom get put p ⟨pos, xs, out⟩ = (r, ⟨s.pos, s.rest, put s.out out⟩) := by
  simp only [zoom, h]

end

end Scanner

end Jullop
