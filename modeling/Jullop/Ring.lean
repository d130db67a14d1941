import Mathlib.Logic.Function.Basic
import Mathlib.Data.List.Range
import Mathlib.Data.Nat.ModEq

/-! Circular arrays. The slots are a function, of which only the indices below
`size` are ever used, and a window is a run of consecutive slots that wraps at
the end of the array. -/

namespace Jullop

namespace Ring

variable {β : Type*}

def window (slots : Nat → β) (size start n : Nat) : List β :=
  (List.range n).map fun i => slots ((start + i) % size)

@[simp] theorem window_zero (slots : Nat → β) (size start : Nat) :
    window slots size start 0 = [] := rfl

theorem window_succ (slots : Nat → β) (size start n : Nat) :
    window slots size start (n + 1) =
      window slots size start n ++ [slots ((start + n) % size)] := by
  simp [window, List.range_succ]

theorem window_cons (slots : Nat → β) (size start n : Nat) :
    window slots size start (n + 1) =
      slots (start % size) :: window slots size (start + 1) n := by
  simp only [window, List.range_succ_eq_map, List.map_cons, Nat.add_zero, List.map_map]
  refine congrArg _ (List.map_congr_left fun i _ => ?_)
  simp only [Function.comp, Nat.succ_eq_add_one]
  congr 2
  omega

theorem window_mod (slots : Nat → β) (size start n : Nat) :
    window slots size (start % size) n = window slots size start n := by
  simp [window, Nat.mod_add_mod]

/-- Positions less than a whole turn apart are different slots. -/
theorem mod_ne_of_lt {size a b : Nat} (hab : a < b) (hb : b < a + size) :
    a % size ≠ b % size := by
  intro he
  have hd : size ∣ b - a := Nat.dvd_of_mod_eq_zero (Nat.sub_mod_eq_zero_of_mod_eq he.symm)
  have hle := Nat.le_of_dvd (by omega) hd
  omega

/-- The distance from one position to another, computed from their slots, is right up
to whole turns. -/
theorem slot_distance {size d : Nat} (hsize : 0 < size) (a b : Nat)
    (hd : d = if a % size ≤ b % size then b % size - a % size else size - a % size + b % size) :
    d < size ∧ a + d ≡ b [MOD size] := by
  have ha : a % size < size := Nat.mod_lt _ hsize
  have hb : b % size < size := Nat.mod_lt _ hsize
  split at hd
  · refine ⟨by omega, ?_⟩
    rw [Nat.ModEq, ← Nat.mod_add_mod, hd, Nat.add_sub_cancel' (by omega), Nat.mod_mod]
  · refine ⟨by omega, ?_⟩
    have hturn : a % size + d = size + b % size := by omega
    rw [Nat.ModEq, ← Nat.mod_add_mod, hturn, Nat.add_mod_left, Nat.mod_mod]

/-- Writing the slot just past a window that does not fill the array leaves the
window as it was. -/
theorem window_update {slots : Nat → β} {size start n : Nat} (hn : n < size) (x : β) :
    window (Function.update slots ((start + n) % size) x) size start n =
      window slots size start n := by
  refine List.map_congr_left fun i hi => ?_
  have hi' := List.mem_range.mp hi
  exact Function.update_of_ne (mod_ne_of_lt (by omega) (by omega)) _ _

theorem window_push {slots : Nat → β} {size start n : Nat} (hn : n < size) (x : β) :
    window (Function.update slots ((start + n) % size) x) size start (n + 1) =
      window slots size start n ++ [x] := by
  rw [window_succ, window_update hn, Function.update_self]

end Ring

end Jullop
