import Jullop.Scanner

/-! Scanners that load several symbols at once. A load past the end of what there is
has no result, so a scanner that implements a plain one never makes such a load. -/

namespace Jullop

variable {α σ β γ : Type}

/-- A scanner whose loads can fail. -/
def Checked (α σ β : Type) := Cursor α σ → Option (Except Stop β × Cursor α σ)

namespace Checked

open Scanner

protected def pure (a : β) : Checked α σ β := fun s => some (.ok a, s)

protected def bind (q : Checked α σ β) (f : β → Checked α σ γ) : Checked α σ γ := fun s =>
  match q s with
  | none => none
  | some (.ok a, s') => f a s'
  | some (.error e, s') => some (.error e, s')

instance : Monad (Checked α σ) where
  pure := Checked.pure
  bind := Checked.bind

/-- A scanner that looks at one symbol after the other. -/
def lift (p : Scanner α σ β) : Checked α σ β := fun s => some (p s)

def zoom {τ : Type} (get : τ → σ) (put : σ → τ → τ) (q : Checked α σ β) : Checked α τ β := fun s =>
  (q ⟨s.pos, s.rest, get s.out⟩).map fun r => (r.1, ⟨r.2.pos, r.2.rest, put r.2.out s.out⟩)

/-- A search gives the number of symbols that it passed over, and whether it stands
at one it has found. -/
def seek (search : List α → Option (Nat × Bool)) : Checked α σ Bool := fun s =>
  (search s.rest).map fun r => (.ok r.2, s.skip r.1)

/-- Results that a caller cannot tell apart: nobody looks at the place of a scanner
that has stopped. -/
inductive Same : Except Stop β × Cursor α σ → Except Stop β × Cursor α σ → Prop
  | ok (a : β) (s : Cursor α σ) : Same (.ok a, s) (.ok a, s)
  | error (e : Stop) {s s' : Cursor α σ} (h : s.out = s'.out) : Same (.error e, s) (.error e, s')

def Implements (q : Checked α σ β) (p : Scanner α σ β) : Prop :=
  ∀ s, ∃ r, q s = some r ∧ Same r (p s)

theorem Same.refl (r : Except Stop β × Cursor α σ) : Same r r := by
  obtain ⟨e | a, s⟩ := r
  · exact .error e rfl
  · exact .ok a s

theorem bind_ok {q : Checked α σ β} {f : β → Checked α σ γ} {s s' : Cursor α σ} {a : β}
    (h : q s = some (.ok a, s')) : (q >>= f) s = f a s' := by
  change Checked.bind q f s = _
  simp only [Checked.bind, h]

theorem bind_error {q : Checked α σ β} {f : β → Checked α σ γ} {s s' : Cursor α σ} {e : Stop}
    (h : q s = some (.error e, s')) : (q >>= f) s = some (.error e, s') := by
  change Checked.bind q f s = _
  simp only [Checked.bind, h]

theorem Implements.lift (p : Scanner α σ β) : Implements (Checked.lift p) p := fun s =>
  ⟨p s, rfl, .refl _⟩

theorem Implements.bind {q : Checked α σ β} {p : Scanner α σ β} {g : β → Checked α σ γ}
    {f : β → Scanner α σ γ} (h : Implements q p) (hf : ∀ a, Implements (g a) (f a)) :
    Implements (q >>= g) (p >>= f) := by
  intro s
  obtain ⟨r, hq, hr⟩ := h s
  generalize hp : p s = r' at hr
  cases hr with
  | ok a s' =>
    rw [bind_ok hq, Scanner.bind_ok hp]
    exact hf a s'
  | error e hout =>
    rw [bind_error hq, Scanner.bind_error hp]
    exact ⟨_, rfl, .error e hout⟩

theorem Implements.ite {c : Prop} [Decidable c] {q q' : Checked α σ β} {p p' : Scanner α σ β}
    (h : Implements q p) (h' : Implements q' p') :
    Implements (if c then q else q') (if c then p else p') := by
  by_cases hc : c
  · simpa only [if_pos hc] using h
  · simpa only [if_neg hc] using h'

theorem Implements.zoom {τ : Type} {get : τ → σ} {put : σ → τ → τ} {q : Checked α σ β}
    {p : Scanner α σ β} (h : Implements q p) :
    Implements (Checked.zoom get put q) (Scanner.zoom get put p) := by
  intro s
  obtain ⟨r, hq, hr⟩ := h ⟨s.pos, s.rest, get s.out⟩
  refine ⟨_, by rw [Checked.zoom, hq, Option.map_some], ?_⟩
  rw [Scanner.zoom]
  generalize p ⟨s.pos, s.rest, get s.out⟩ = r' at hr
  cases hr with
  | ok a s' => exact .ok a _
  | error e hout => exact .error e (by rw [hout])

/-! Searches. -/

/-- A search has passed over `n` symbols that `p` does not look for, and stands at one
that it does look for if it has found one. -/
structure Passed (p : α → Bool) (xs : List α) (n : Nat) (found : Bool) : Prop where
  le : n ≤ xs.length
  before : ∀ x ∈ xs.take n, p x = false
  here : found = true → ∃ c ∈ xs[n]?, p c = true

theorem Passed.nothing (p : α → Bool) (xs : List α) : Passed p xs 0 false :=
  ⟨Nat.zero_le _, by simp, by simp⟩

/-- A search over `ys` after the symbols of `pre` have been passed over. -/
theorem Passed.append {p : α → Bool} {pre ys : List α} {n : Nat} {found : Bool}
    (hpre : ∀ x ∈ pre, p x = false) (h : Passed p ys n found) :
    Passed p (pre ++ ys) (pre.length + n) found := by
  constructor
  · rw [List.length_append]
    exact Nat.add_le_add_left h.le _
  · rw [List.take_length_add_append]
    intro x hx
    rcases List.mem_append.mp hx with hx | hx
    · exact hpre x hx
    · exact h.before x hx
  · rw [List.getElem?_append_right (by omega), Nat.add_sub_cancel_left]
    exact h.here

theorem Passed.extend {p : α → Bool} {xs : List α} {n : Nat} (h : Passed p xs n true)
    (ys : List α) : Passed p (xs ++ ys) n true := by
  obtain ⟨c, hc, hp⟩ := h.here rfl
  have hn : n < xs.length := by
    rw [Option.mem_def, List.getElem?_eq_some_iff] at hc
    exact hc.1
  constructor
  · rw [List.length_append]
    omega
  · rw [List.take_append_of_le_length (by omega)]
    exact h.before
  · intro _
    rw [List.getElem?_append_left hn]
    exact ⟨c, hc, hp⟩

theorem passed_findIdx {p : α → Bool} {xs : List α} (h : xs.findIdx p ≠ xs.length) :
    Passed p xs (xs.findIdx p) true := by
  have hlt : xs.findIdx p < xs.length := Nat.lt_of_le_of_ne List.findIdx_le_length h
  constructor
  · exact List.findIdx_le_length
  · intro x hx
    obtain ⟨i, hi, rfl⟩ := List.mem_take_iff_getElem.mp hx
    exact List.not_of_lt_findIdx (Nat.lt_of_lt_of_le hi (Nat.min_le_left _ _))
  · intro _
    exact ⟨_, List.getElem?_eq_getElem hlt, List.findIdx_getElem⟩

def load (width : Nat) (xs : List α) : Option (List α) :=
  if width ≤ xs.length then some (xs.take width) else none

theorem load_append (block xs : List α) : load block.length (block ++ xs) = some block := by
  rw [load, if_pos (by rw [List.length_append]; omega), List.take_left]

/-- A search for `p` in blocks of `width` symbols. -/
def searchBlocks (width : Nat) (p : α → Bool) : (blocks : Nat) → List α → Option (Nat × Bool)
  | 0, _ => some (0, false)
  | blocks + 1, xs => do
    let block ← load width xs
    let r := block.findIdx p
    if r ≠ width then return (r, true)
    let (n, found) ← searchBlocks width p blocks (xs.drop width)
    return (width + n, found)

theorem searchBlocks_passed (p : α → Bool) {width blocks : Nat} {xs : List α}
    (h : blocks * width ≤ xs.length) :
    ∃ n found, searchBlocks width p blocks xs = some (n, found) ∧ Passed p xs n found ∧
      (found = false → n = blocks * width) := by
  induction blocks generalizing xs with
  | zero => exact ⟨0, false, rfl, .nothing p xs, fun _ => (Nat.zero_mul width).symm⟩
  | succ blocks ih =>
    rw [Nat.succ_mul] at h
    obtain ⟨block, rest, rfl, rfl⟩ : ∃ block rest, xs = block ++ rest ∧ block.length = width :=
      ⟨xs.take width, xs.drop width, (List.take_append_drop _ _).symm, by
        rw [List.length_take]
        omega⟩
    rw [List.length_append] at h
    by_cases hr : block.findIdx p = block.length
    · have hlen : blocks * block.length ≤ rest.length := by omega
      obtain ⟨n, found, hn, hpassed, hall⟩ := ih hlen
      refine ⟨block.length + n, found, ?_, hpassed.append (List.findIdx_eq_length.mp hr), ?_⟩
      · simp [searchBlocks, load_append, hr, hn]
      · intro hf
        rw [hall hf, Nat.succ_mul, Nat.add_comm]
    · refine ⟨block.findIdx p, true, ?_, (passed_findIdx hr).extend rest, by simp⟩
      simp [searchBlocks, load_append, hr]

/-- What is left of a loop after a search. The value is the number of symbols that
both have passed over. -/
def scanAfter (search : List α → Option (Nat × Bool)) (loop : Bool → Scanner α σ Unit) :
    Checked α σ Nat := do
  let start ← lift position
  let found ← seek search
  lift (loop found)
  let stop ← lift position
  return stop - start

section Scan

variable {search : List α → Option (Nat × Bool)} {p : α → Bool} {f : α → Move}

theorem span_passed (hp : ∀ c, p c = false → f c = .go) {xs : List α} {n : Nat} {found : Bool}
    (h : Passed p xs n found) : span f xs = (span f (xs.drop n)).map (n + ·) := by
  have hlen : (xs.take n).length = n := by
    rw [List.length_take]
    have hle := h.le
    omega
  have hspan := span_go_append (fun x hx => hp x (h.before x hx)) (xs.drop n)
  rwa [List.take_append_drop, hlen] at hspan

theorem seek_eq {xs : List α} {n : Nat} {found : Bool} (h : search xs = some (n, found)) (pos : Nat)
    (out : σ) : seek search ⟨pos, xs, out⟩ = some (.ok found, ⟨pos + n, xs.drop n, out⟩) := by
  rw [seek, h]
  rfl

/-- A search for symbols of which the loop passes over all others is no more than a
head start, if what is left of the loop ends as the whole loop would. -/
theorem implements_scanAfter {loop : Bool → Scanner α σ Unit}
    (hsearch : ∀ xs, ∃ n found, search xs = some (n, found) ∧ Passed p xs n found)
    (hp : ∀ c, p c = false → f c = .go)
    (hloop : ∀ {xs n found}, Passed p xs n found → ∀ pos out,
      loop found ⟨pos, xs.drop n, out⟩ =
        (scan f >>= fun _ => Pure.pure ()) ⟨pos, xs.drop n, out⟩) :
    Implements (scanAfter search loop) (scan f) := by
  rintro ⟨pos, xs, out⟩
  obtain ⟨n, found, hn, hpassed⟩ := hsearch xs
  have hspan := span_passed hp hpassed
  have hrest := hloop hpassed (pos + n) out
  rw [scanAfter, bind_ok (show lift position _ = some (.ok pos, _) from rfl),
    bind_ok (seek_eq hn pos out)]
  cases hs : span f (xs.drop n) with
  | error e =>
    have hscan := scan_error (s := ⟨pos + n, xs.drop n, out⟩) hs
    rw [Scanner.bind_error hscan] at hrest
    rw [hs] at hspan
    rw [scan_error hspan, bind_error (congrArg some hrest)]
    exact ⟨_, rfl, .error e rfl⟩
  | ok m =>
    have hscan := scan_ok (s := ⟨pos + n, xs.drop n, out⟩) hs
    rw [Scanner.bind_ok hscan] at hrest
    rw [hs] at hspan
    rw [scan_ok hspan, bind_ok (congrArg some hrest)]
    refine ⟨_, rfl, ?_⟩
    have hlen : pos + n + m - pos = n + m := by omega
    simp only [Cursor.skip, List.drop_drop, Nat.add_assoc] at hlen ⊢
    rw [hlen]
    exact .ok _ _

end Scan

end Checked

end Jullop
