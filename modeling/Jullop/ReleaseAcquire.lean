import Mathlib.Algebra.Group.Pi.Basic
import Mathlib.Algebra.Ring.Nat
import Mathlib.Data.Fintype.Defs
import Mathlib.Order.Lattice.Nat
import Mathlib.Order.SupClosed

/-! Memory under release and acquire. Threads share atomic locations, each of which is
stored to by one thread, and plain cells, which may be used by two threads only when what
the one has done is known to the other. -/

namespace Jullop

namespace ReleaseAcquire

variable {Loc Thread Cell Value Content : Type*}

/-- How much of the history of each location is known, and how many of the accesses of
each thread to the cells. -/
abbrev View (Loc Thread : Type*) := Loc ⊕ Thread → Nat

/-- What a store leaves at a location: a load that acquires gets the view with the
value. -/
structure Message (Loc Thread Value : Type*) where
  value : Value
  view : View Loc Thread

inductive LoadOrder
  | relaxed
  | acquire

/-- `written` and `read` hold the last access of each thread to each cell, counted from
one. -/
structure Memory (Loc Thread Cell Value Content : Type*) where
  history : Loc → List (Message Loc Thread Value)
  contents : Cell → Content
  written : Cell → Thread → Nat
  read : Cell → Thread → Nat
  views : Thread → View Loc Thread

namespace Memory

def start (values : Loc → Value) (contents : Cell → Content) :
    Memory Loc Thread Cell Value Content where
  history l := [⟨values l, ⊥⟩]
  contents := contents
  written _ _ := 0
  read _ _ := 0
  views _ := ⊥

/-- All of these accesses happened before what thread `t` does next. -/
def Before (m : Memory Loc Thread Cell Value Content) (accesses : Thread → Nat) (t : Thread) :
    Prop :=
  ∀ u, accesses u ≤ m.views t (.inr u)

instance [Fintype Thread] (m : Memory Loc Thread Cell Value Content) (accesses : Thread → Nat)
    (t : Thread) : Decidable (m.Before accesses t) :=
  inferInstanceAs (Decidable (∀ u, accesses u ≤ m.views t (.inr u)))

section

variable [DecidableEq Loc] [DecidableEq Thread] [DecidableEq Cell]

def learn (m : Memory Loc Thread Cell Value Content) (t : Thread) (v : View Loc Thread) :
    Memory Loc Thread Cell Value Content :=
  { m with views := Function.update m.views t (m.views t ⊔ v) }

/-- A load may find any message of the history that its thread does not know to be
overwritten; `i` is which. -/
def load (m : Memory Loc Thread Cell Value Content) (t : Thread) (l : Loc) (order : LoadOrder)
    (i : Nat) : Option (Value × Memory Loc Thread Cell Value Content) :=
  if i < m.views t (.inl l) then none
  else
    (m.history l)[i]?.map fun message =>
      match order with
      | .relaxed => (message.value, m.learn t (Pi.single (.inl l) i))
      | .acquire => (message.value, m.learn t (Pi.single (.inl l) i ⊔ message.view))

def storeRelease (m : Memory Loc Thread Cell Value Content) (t : Thread) (l : Loc)
    (value : Value) : Memory Loc Thread Cell Value Content :=
  let m := m.learn t (Pi.single (.inl l) (m.history l).length)
  { m with history := Function.update m.history l (m.history l ++ [⟨value, m.views t⟩]) }

/-- How thread `t` counts its next access. -/
def stamp (m : Memory Loc Thread Cell Value Content) (t : Thread) : Nat := m.views t (.inr t) + 1

def noteRead (m : Memory Loc Thread Cell Value Content) (t : Thread) (c : Cell) :
    Memory Loc Thread Cell Value Content :=
  { m.learn t (Pi.single (.inr t) (m.stamp t)) with
    read := Function.update m.read c (Function.update (m.read c) t (m.stamp t)) }

def noteWrite (m : Memory Loc Thread Cell Value Content) (t : Thread) (c : Cell) (x : Content) :
    Memory Loc Thread Cell Value Content :=
  { m.learn t (Pi.single (.inr t) (m.stamp t)) with
    contents := Function.update m.contents c x
    written := Function.update m.written c (Function.update (m.written c) t (m.stamp t)) }

/-- A read that does not come after every write of the cell is a data race. -/
def readCell [Fintype Thread] (m : Memory Loc Thread Cell Value Content) (t : Thread) (c : Cell) :
    Option (Content × Memory Loc Thread Cell Value Content) :=
  if m.Before (m.written c) t then some (m.contents c, m.noteRead t c) else none

def writeCell [Fintype Thread] (m : Memory Loc Thread Cell Value Content) (t : Thread) (c : Cell)
    (x : Content) : Option (Memory Loc Thread Cell Value Content) :=
  if m.Before (m.written c) t ∧ m.Before (m.read c) t then some (m.noteWrite t c x) else none

end

/-- Every view that a thread has or can get from a message is of the set. -/
def Everywhere (m : Memory Loc Thread Cell Value Content) (s : Set (View Loc Thread)) : Prop :=
  (∀ t, m.views t ∈ s) ∧
    ∀ l (message : Message Loc Thread Value), message ∈ m.history l → message.view ∈ s

/-- The views of what has been stored and accessed so far; a thread knows its own
accesses. -/
def known (m : Memory Loc Thread Cell Value Content) : Set (View Loc Thread) :=
  {v | (∀ l, v (.inl l) < (m.history l).length) ∧ ∀ t, v (.inr t) ≤ m.views t (.inr t)}

/-- Whoever has the view of a message has seen the message, and nobody knows of what has
not been done. -/
structure Stamped (m : Memory Loc Thread Cell Value Content) : Prop where
  seen : ∀ l i (message : Message Loc Thread Value), (m.history l)[i]? = some message →
    message.view (.inl l) = i
  known : m.Everywhere m.known

end Memory

/-- A view from which one cannot know of `n` stores to `l` and not of `n` accesses of
`t`. -/
def announced (l : Loc) (t : Thread) : Set (View Loc Thread) := {v | v (.inl l) ≤ v (.inr t)}

/-- Location `l` counts accesses of thread `t`, of which it has announced `n`; the value
for the count `k` is `f k`. -/
structure Counts (m : Memory Loc Thread Cell Value Content) (l : Loc) (t : Thread)
    (f : Nat → Value) (n : Nat) : Prop where
  values : (m.history l).map Message.value = (List.range (n + 1)).map f
  latest : m.views t (.inl l) = n
  announced : m.Everywhere (announced l t)

/-- Of `n` accesses, all by thread `t`, the one numbered `k` was to the cell
`place k`. -/
def Paced (accesses : Cell → Thread → Nat) (t : Thread) (place : Nat → Cell) (n : Nat) : Prop :=
  ∀ c u k, accesses c u = k + 1 → u = t ∧ k < n ∧ place k = c

section Rules

variable {m m' : Memory Loc Thread Cell Value Content} {l l' : Loc} {t u : Thread}
  {v : View Loc Thread} {f : Nat → Value} {n i : Nat} {x : Value}

namespace Memory

theorem known_supClosed (m : Memory Loc Thread Cell Value Content) : SupClosed m.known := by
  intro v hv w hw
  exact ⟨fun l => max_lt (hv.1 l) (hw.1 l), fun t => max_le (hv.2 t) (hw.2 t)⟩

theorem known_mono (hhistory : ∀ l, (m.history l).length ≤ (m'.history l).length)
    (hviews : m.views ≤ m'.views) : m.known ⊆ m'.known := by
  intro v hv
  exact ⟨fun l => (hv.1 l).trans_le (hhistory l), fun t => (hv.2 t).trans (hviews t _)⟩

theorem Everywhere.mono {s s' : Set (View Loc Thread)} (h : m.Everywhere s) (hs : s ⊆ s') :
    m.Everywhere s' :=
  ⟨fun t => hs (h.1 t), fun l message hmem => hs (h.2 l message hmem)⟩

section

variable [DecidableEq Thread]

@[simp] theorem learn_views_self (t : Thread) (v : View Loc Thread) :
    (m.learn t v).views t = m.views t ⊔ v :=
  Function.update_self ..

theorem learn_views_of_ne (h : u ≠ t) (v : View Loc Thread) :
    (m.learn t v).views u = m.views u :=
  Function.update_of_ne h ..

theorem views_le_learn (t u : Thread) (v : View Loc Thread) : m.views u ≤ (m.learn t v).views u := by
  by_cases h : u = t
  · subst h
    rw [learn_views_self]
    exact le_sup_left
  · rw [learn_views_of_ne h]

theorem learn_of_le (h : v ≤ m.views t) : m.learn t v = m := by
  have hviews : Function.update m.views t (m.views t ⊔ v) = m.views := by
    rw [sup_eq_left.mpr h, Function.update_eq_self]
  simp only [learn, hviews]

theorem Everywhere.learn {s : Set (View Loc Thread)} (h : m.Everywhere s) (hs : SupClosed s)
    (hv : v ∈ s) : (m.learn t v).Everywhere s := by
  refine ⟨fun u => ?_, h.2⟩
  by_cases hu : u = t
  · subst hu
    rw [learn_views_self]
    exact hs (h.1 u) hv
  · rw [learn_views_of_ne hu]
    exact h.1 u

theorem known_learn (m : Memory Loc Thread Cell Value Content) (t : Thread)
    (v : View Loc Thread) : m.known ⊆ (m.learn t v).known :=
  known_mono (fun _ => le_rfl) fun u => views_le_learn t u v

/-- Nobody can tell a thread of accesses of its own. -/
theorem learn_own (hv : v ∈ m.known) (u t : Thread) :
    (m.learn u v).views t (.inr t) = m.views t (.inr t) := by
  by_cases ht : t = u
  · subst ht
    rw [learn_views_self]
    exact sup_eq_left.mpr (hv.2 t)
  · rw [learn_views_of_ne ht]

theorem Stamped.learn (h : m.Stamped) (hv : v ∈ (m.learn t v).known) : (m.learn t v).Stamped :=
  ⟨h.seen, (h.known.mono (known_learn m t v)).learn (known_supClosed _) hv⟩

end

section

variable [DecidableEq Loc] [DecidableEq Thread]

theorem single_le {k : Loc ⊕ Thread} (h : n ≤ v k) : Pi.single k n ≤ v := by
  intro k'
  by_cases hk : k' = k
  · subst hk
    rwa [Pi.single_eq_same]
  · rw [Pi.single_eq_of_ne hk]
    exact Nat.zero_le _

/-- The view of an own access is known once the access is made. -/
theorem Stamped.single_thread_known (h : m.Stamped) (t : Thread) (k : Nat) :
    Pi.single (.inr t) k ∈ (m.learn t (Pi.single (.inr t) k)).known := by
  constructor
  · intro l
    rw [Pi.single_eq_of_ne (by simp)]
    exact Nat.zero_lt_of_lt (h.known.1 t |>.1 l)
  · intro u
    by_cases hu : u = t
    · subst hu
      rw [learn_views_self]
      exact le_sup_right (a := m.views u) (b := Pi.single (.inr u) k) (.inr u)
    · rw [Pi.single_eq_of_ne (by simpa using hu)]
      exact Nat.zero_le _

theorem Everywhere.storeRelease {s : Set (View Loc Thread)} (h : m.Everywhere s)
    (hv : m.views t ⊔ Pi.single (.inl l) (m.history l).length ∈ s) :
    (m.storeRelease t l x).Everywhere s := by
  constructor
  · intro u
    by_cases hu : u = t
    · subst hu
      exact (learn_views_self u _).symm ▸ hv
    · exact (learn_views_of_ne hu _).symm ▸ h.1 u
  · intro l' message hmem
    by_cases hl : l' = l
    · subst hl
      simp only [Memory.storeRelease, Function.update_self, List.mem_append,
        List.mem_singleton] at hmem
      rcases hmem with hmem | rfl
      · exact h.2 l' message hmem
      · exact (learn_views_self t _).symm ▸ hv
    · simp only [Memory.storeRelease, Function.update_of_ne hl] at hmem
      exact h.2 l' message hmem

theorem Stamped.access (h : m.Stamped) (t : Thread) :
    (m.learn t (Pi.single (.inr t) (m.stamp t))).Stamped :=
  h.learn (h.single_thread_known t _)

theorem access_stamp (m : Memory Loc Thread Cell Value Content) (t : Thread) :
    (m.learn t (Pi.single (.inr t) (m.stamp t))).views t (.inr t) = m.stamp t := by
  rw [learn_views_self, Pi.sup_apply, Pi.single_eq_same]
  exact sup_eq_right.mpr (Nat.le_succ _)

theorem access_seen (m : Memory Loc Thread Cell Value Content) (t u : Thread) (l : Loc) :
    (m.learn t (Pi.single (.inr t) (m.stamp t))).views u (.inl l) = m.views u (.inl l) := by
  by_cases hu : u = t
  · subst hu
    rw [learn_views_self, Pi.sup_apply, Pi.single_eq_of_ne (by simp)]
    exact sup_bot_eq _
  · rw [learn_views_of_ne hu]

theorem noteRead_views_of_ne [DecidableEq Cell] (h : u ≠ t) (c : Cell) :
    (m.noteRead t c).views u = m.views u :=
  learn_views_of_ne h _

theorem noteWrite_views_of_ne [DecidableEq Cell] (h : u ≠ t) (c : Cell) (y : Content) :
    (m.noteWrite t c y).views u = m.views u :=
  learn_views_of_ne h _

theorem storeRelease_views_of_ne (h : u ≠ t) (l : Loc) (x : Value) :
    (m.storeRelease t l x).views u = m.views u :=
  learn_views_of_ne h _

theorem storeRelease_seen_of_ne (h : l' ≠ l) (t u : Thread) (x : Value) :
    (m.storeRelease t l x).views u (.inl l') = m.views u (.inl l') := by
  by_cases hu : u = t
  · subst hu
    refine (congrFun (learn_views_self u _) _).trans ?_
    rw [Pi.sup_apply, Pi.single_eq_of_ne (by simpa using h)]
    exact sup_bot_eq _
  · exact congrFun (learn_views_of_ne hu _) _

theorem storeRelease_own (t u : Thread) (l : Loc) (x : Value) :
    (m.storeRelease t l x).views u (.inr u) = m.views u (.inr u) := by
  by_cases hu : u = t
  · subst hu
    refine (congrFun (learn_views_self u _) _).trans ?_
    rw [Pi.sup_apply, Pi.single_eq_of_ne (by simp)]
    exact sup_bot_eq _
  · exact congrFun (learn_views_of_ne hu _) _

theorem storeRelease_history_self :
    (m.storeRelease t l x).history l =
      m.history l ++ [⟨x, m.views t ⊔ Pi.single (.inl l) (m.history l).length⟩] := by
  simp only [storeRelease, learn_views_self, Function.update_self]
  rfl

theorem storeRelease_history_of_ne (h : l' ≠ l) :
    (m.storeRelease t l x).history l' = m.history l' :=
  Function.update_of_ne h ..

theorem known_storeRelease (t : Thread) (l : Loc) (x : Value) :
    m.known ⊆ (m.storeRelease t l x).known := by
  refine known_mono (fun l' => ?_) fun u => views_le_learn t u _
  by_cases hl : l' = l
  · subst hl
    rw [storeRelease_history_self, List.length_append]
    exact Nat.le_add_right _ _
  · rw [storeRelease_history_of_ne hl]

theorem Stamped.storeRelease (h : m.Stamped) (t : Thread) (l : Loc) (x : Value) :
    (m.storeRelease t l x).Stamped := by
  constructor
  · intro l' i message hi
    by_cases hl : l' = l
    · subst hl
      rw [storeRelease_history_self, List.getElem?_append] at hi
      split at hi
      · exact h.seen l' i message hi
      · rw [List.getElem?_singleton, Option.ite_none_right_eq_some, Option.some.injEq] at hi
        obtain ⟨hz, rfl⟩ := hi
        have hseen := (h.known.1 t).1 l'
        dsimp only
        rw [Pi.sup_apply, Pi.single_eq_same, sup_eq_right.mpr hseen.le]
        omega
    · rw [storeRelease_history_of_ne hl] at hi
      exact h.seen l' i message hi
  · have hmono := known_storeRelease (m := m) t l x
    refine (h.known.mono hmono).storeRelease ((known_supClosed _) (hmono (h.known.1 t)) ⟨?_, ?_⟩)
    · intro l'
      by_cases hl : l' = l
      · subst hl
        rw [Pi.single_eq_same, storeRelease_history_self]
        simp
      · rw [Pi.single_eq_of_ne (by simpa using hl)]
        exact Nat.zero_lt_of_lt ((hmono (h.known.1 t)).1 l')
    · intro u
      rw [Pi.single_eq_of_ne (by simp)]
      exact Nat.zero_le _

end

end Memory

open Memory

theorem announced_supClosed (l : Loc) (t : Thread) : SupClosed (announced l t) := by
  intro v hv w hw
  exact sup_le_sup (show v (.inl l) ≤ v (.inr t) from hv) hw

namespace Counts

theorem length_eq (h : Counts m l t f n) : (m.history l).length = n + 1 := by
  have hvalues := congrArg List.length h.values
  simpa using hvalues

theorem value_eq (h : Counts m l t f n) {message : Message Loc Thread Value}
    (hi : (m.history l)[i]? = some message) : i ≤ n ∧ message.value = f i := by
  have hlt := (List.getElem?_eq_some_iff.mp hi).1
  rw [h.length_eq] at hlt
  have hvalue := congrArg (fun values => values[i]?) h.values
  simp only [List.getElem?_map, hi, Option.map_some, List.getElem?_range hlt,
    Option.some.injEq] at hvalue
  exact ⟨Nat.le_of_lt_succ hlt, hvalue⟩

theorem learn [DecidableEq Thread] (h : Counts m l t f n)
    (hv : v ∈ ReleaseAcquire.announced l t) (hk : v ∈ (m.learn u v).known) :
    Counts (m.learn u v) l t f n := by
  refine ⟨h.values, ?_, h.announced.learn (announced_supClosed l t) hv⟩
  by_cases hu : t = u
  · subst hu
    have hlt : v (.inl l) < (m.history l).length := hk.1 l
    rw [h.length_eq] at hlt
    rw [learn_views_self, Pi.sup_apply, h.latest]
    exact max_eq_left (Nat.le_of_lt_succ hlt)
  · rw [learn_views_of_ne hu]
    exact h.latest

variable [DecidableEq Loc] [DecidableEq Thread]

/-- The thread that stores to a location needs no order to load from it. -/
theorem load_own (h : Counts m l t f n) (he : m.load t l .relaxed i = some (x, m')) :
    x = f n ∧ m' = m := by
  rw [load] at he
  split at he
  · cases he
  · rename_i hseen
    simp only [Option.map_eq_some_iff, Prod.mk.injEq] at he
    obtain ⟨message, hi, rfl, rfl⟩ := he
    obtain ⟨hle, hvalue⟩ := h.value_eq hi
    have hlatest := h.latest
    obtain rfl : i = n := by omega
    exact ⟨hvalue, learn_of_le (single_le hlatest.ge)⟩

/-- A load that acquires may be stale, but it is no older than what its thread knows, and
brings what was known when the value was stored. -/
theorem load_other (h : Counts m l t f n) (hm : m.Stamped)
    (he : m.load u l .acquire i = some (x, m')) :
    i ≤ n ∧ x = f i ∧ m.views u (.inl l) ≤ i ∧
      ∃ message ∈ m.history l, message.view (.inl l) = i ∧ m' = m.learn u message.view := by
  rw [load] at he
  split at he
  · cases he
  · rename_i hseen
    simp only [Option.map_eq_some_iff, Prod.mk.injEq] at he
    obtain ⟨message, hi, rfl, rfl⟩ := he
    obtain ⟨hle, hvalue⟩ := h.value_eq hi
    have hview := hm.seen l i message hi
    refine ⟨hle, hvalue, Nat.le_of_not_lt hseen, message, List.mem_of_getElem? hi, hview, ?_⟩
    congr 1
    exact sup_eq_right.mpr (single_le hview.ge)

theorem access (h : Counts m l t f n) (hm : m.Stamped) (u : Thread) :
    Counts (m.learn u (Pi.single (.inr u) (m.stamp u))) l t f n := by
  refine h.learn ?_ (hm.single_thread_known u _)
  show (Pi.single _ _ : View Loc Thread) _ ≤ _
  rw [Pi.single_eq_of_ne (by simp)]
  exact Nat.zero_le _

theorem storeRelease (h : Counts m l t f n) (hn : n < m.views t (.inr t)) :
    Counts (m.storeRelease t l (f (n + 1))) l t f (n + 1) := by
  have hself : (m.views t ⊔ Pi.single (.inl l) (n + 1)) (.inl l) = n + 1 := by
    simp [h.latest]
  refine ⟨?_, ?_, h.announced.storeRelease ?_⟩
  · have hrange : List.range (n + 1 + 1) = List.range (n + 1) ++ [n + 1] := List.range_succ
    rw [storeRelease_history_self, List.map_append, h.values, hrange, List.map_append]
    rfl
  · rw [← hself, ← h.length_eq]
    exact congrFun (learn_views_self t _) _
  · rw [h.length_eq]
    show (_ : Nat) ≤ _
    rw [hself]
    exact le_sup_of_le_left (show n + 1 ≤ _ from hn)

theorem storeRelease_of_ne (h : Counts m l t f n) (hl : l ≠ l') (u : Thread) (x : Value) :
    Counts (m.storeRelease u l' x) l t f n := by
  have hsame : ∀ v : View Loc Thread, ∀ k, (v ⊔ Pi.single (.inl l') k) (.inl l) = v (.inl l) := by
    intro v k
    rw [Pi.sup_apply, Pi.single_eq_of_ne (by simpa using hl)]
    exact sup_bot_eq _
  refine ⟨?_, ?_, h.announced.storeRelease ?_⟩
  · rw [storeRelease_history_of_ne hl]
    exact h.values
  · by_cases hu : t = u
    · subst hu
      rw [← h.latest, ← hsame (m.views t)]
      exact congrFun (learn_views_self t _) _
    · rw [← h.latest]
      exact congrFun (learn_views_of_ne hu _) _
  · show (_ : Nat) ≤ _
    rw [hsame]
    exact le_sup_of_le_left (h.announced.1 u)

end Counts

namespace Paced

variable {accesses : Cell → Thread → Nat} {place : Nat → Cell} {c : Cell}

theorem update [DecidableEq Thread] [DecidableEq Cell] (h : Paced accesses t place n) :
    Paced (Function.update accesses (place n)
      (Function.update (accesses (place n)) t (n + 1))) t place (n + 1) := by
  intro c u k hk
  by_cases hc : c = place n
  · subst hc
    rw [Function.update_self] at hk
    by_cases hu : u = t
    · subst hu
      rw [Function.update_self] at hk
      obtain rfl : n = k := by omega
      exact ⟨rfl, Nat.lt_succ_self n, rfl⟩
    · rw [Function.update_of_ne hu] at hk
      exact absurd (h _ _ _ hk).1 hu
  · rw [Function.update_of_ne hc] at hk
    obtain ⟨hu, hlt, hplace⟩ := h _ _ _ hk
    exact ⟨hu, Nat.lt_succ_of_lt hlt, hplace⟩

/-- The accesses to a cell come before what a thread does next when it knows of the last
of them. -/
theorem before (h : Paced accesses t place n)
    (hknown : ∀ k < n, place k = c → k < m.views u (.inr t)) : m.Before (accesses c) u := by
  intro u'
  cases hk : accesses c u' with
  | zero => exact Nat.zero_le _
  | succ k =>
    obtain ⟨rfl, hlt, hplace⟩ := h c u' k hk
    exact hknown k hlt hplace

end Paced

end Rules

end ReleaseAcquire

end Jullop
