import Mathlib.Algebra.BigOperators.Group.Finset.Basic

/-! Memory whose addresses are given out in order: a cell is in use or not, and none is
in use from the next address on. -/

namespace Jullop

/-- Two sums whose terms differ at one index only. -/
theorem sum_range_change {f g : Nat → Nat} {n i : Nat} (hi : i < n)
    (h : ∀ j, j ≠ i → g j = f j) :
    ∑ j ∈ Finset.range n, g j + f i = ∑ j ∈ Finset.range n, f j + g i := by
  have hmem := Finset.mem_range.mpr hi
  have hrest : ∑ j ∈ (Finset.range n).erase i, g j = ∑ j ∈ (Finset.range n).erase i, f j :=
    Finset.sum_congr rfl fun j hj => h j (Finset.ne_of_mem_erase hj)
  rw [← Finset.add_sum_erase _ g hmem, ← Finset.add_sum_erase _ f hmem, hrest]
  omega

namespace Allocation

variable {α : Type*} {cells : Nat → Option α} {n i : Nat}

/-- Nothing is in use from `n` on. -/
def Below (n : Nat) (cells : Nat → Option α) : Prop := ∀ i, n ≤ i → cells i = none

/-- The number of cells in use below `n`. -/
def used (n : Nat) (cells : Nat → Option α) : Nat :=
  ∑ i ∈ Finset.range n, (cells i).isSome.toNat

theorem Below.lt (h : Below n cells) (hi : cells i ≠ none) : i < n := by
  by_contra hge
  exact hi (h i (by omega))

theorem Below.update (h : Below n cells) (hi : i < n) (x : Option α) :
    Below n (Function.update cells i x) := by
  intro j hj
  rw [Function.update_of_ne (by omega)]
  exact h j hj

theorem Below.mono {m : Nat} (h : Below n cells) (hm : n ≤ m) : Below m cells :=
  fun i hi => h i (by omega)

theorem used_mono {m : Nat} (h : Below n cells) (hm : n ≤ m) : used m cells = used n cells := by
  induction m, hm using Nat.le_induction with
  | base => rfl
  | succ m hm ih =>
    rw [used, Finset.sum_range_succ, h m hm]
    exact ih

theorem used_update (hi : i < n) (x : Option α) :
    used n (Function.update cells i x) + (cells i).isSome.toNat =
      used n cells + x.isSome.toNat := by
  have hsum := sum_range_change (f := fun j => (cells j).isSome.toNat)
    (g := fun j => (Function.update cells i x j).isSome.toNat) hi
    fun j hj => by rw [Function.update_of_ne hj]
  simp only [Function.update_self] at hsum
  exact hsum

/-- A cell in use is changed. -/
theorem used_write (hi : i < n) (h : cells i ≠ none) (a : α) :
    used n (Function.update cells i (some a)) = used n cells := by
  have hupdate := @used_update _ cells n i hi (some a)
  rw [Option.isSome_iff_ne_none.mpr h] at hupdate
  simpa using hupdate

theorem used_free (hi : i < n) (h : cells i ≠ none) :
    used n (Function.update cells i none) + 1 = used n cells := by
  have hupdate := @used_update _ cells n i hi none
  rw [Option.isSome_iff_ne_none.mpr h] at hupdate
  simpa using hupdate

/-- A cell that was never in use is given out. -/
theorem used_alloc {m : Nat} (h : Below n cells) (hn : n ≤ i) (hm : i < m) (a : α) :
    used m (Function.update cells i (some a)) = used n cells + 1 := by
  have hupdate := @used_update _ cells m i hm (some a)
  rw [h i hn, used_mono h (by omega)] at hupdate
  simpa using hupdate

end Allocation

end Jullop
