import Jullop.AtomicQueue
import Mathlib.Order.Bounds.Basic

/-! The capacity that `queue_init` of `srsw_queue.c` makes of the size it is asked
for, over all sizes that can be rounded up. -/

namespace Jullop

namespace AtomicQueue

variable {α : Type*}

/-- `size` is the least power of two that is not below `n`. -/
def RoundsUp (n size : Nat) : Prop := IsLeast {p | (∃ k, p = 2 ^ k) ∧ n ≤ p} size

theorem roundsUp_iff_dense {n : Nat} (h1 : 1 ≤ n) (h2 : n ≤ 2 ^ 63) :
    RoundsUp n (pow2Size (BitVec.ofNat 64 n)).toNat ↔ BitSpread.Dense (n - 1) 32 := by
  constructor
  · rintro ⟨⟨⟨k, hk⟩, -⟩, -⟩
    obtain ⟨w, hw, hsize⟩ := pow2Size_spread h1 h2
    exact hw.dense (by omega) (hsize.symm.trans hk)
  · intro hd
    obtain ⟨k, hk, hn, hleast⟩ := pow2Size_of_dense h1 h2 hd
    rw [hk]
    refine ⟨⟨⟨k, rfl⟩, hn⟩, ?_⟩
    rintro p ⟨⟨k', rfl⟩, hk'⟩
    exact Nat.pow_le_pow_right (by omega) (hleast k' hk')

theorem RoundsUp.masks {n : Nat} (h : RoundsUp n (pow2Size (BitVec.ofNat 64 n)).toNat)
    (heap : Nat → Option α) (x : Nat) :
    (x + 1) &&& (queueInit heap n).mask = (x + 1) % (queueInit heap n).maxSize := by
  obtain ⟨⟨⟨k, hk⟩, -⟩, -⟩ := h
  have hmax : (queueInit heap n).maxSize = 2 ^ k := hk
  rw [queueInit_mask heap hk, hmax, Nat.and_two_pow_sub_one_eq_mod]

/-- The rounding is right exactly when no thirty-two bits in a row are clear below
the highest set bit of `n - 1`: a shift by thirty-two is missing. -/
theorem pow2Size_least_iff {n : Nat} (h1 : 1 ≤ n) (h2 : n ≤ 2 ^ 63) (heap : Nat → Option α) :
    (RoundsUp n (pow2Size (BitVec.ofNat 64 n)).toNat ∧
      ∀ x, (x + 1) &&& (queueInit heap n).mask = (x + 1) % (queueInit heap n).maxSize) ↔
    BitSpread.Dense (n - 1) 32 := by
  constructor
  · intro h
    exact (roundsUp_iff_dense h1 h2).mp h.1
  · intro hd
    have hrounds := (roundsUp_iff_dense h1 h2).mpr hd
    exact ⟨hrounds, hrounds.masks heap⟩

theorem pow2Size_least_iff_thousand : RoundsUp 1000 (pow2Size 1000#64).toNat :=
  ((pow2Size_least_iff (α := Nat) (by decide) (by decide) fun _ => none).mpr
    (BitSpread.Dense.of_lt (by decide))).1

/-- The size that follows the thirty-two bit range is rounded to an odd number. -/
theorem pow2Size_not_least : ¬ ∀ n, 1 ≤ n → n ≤ 2 ^ 63 → ∀ heap : Nat → Option Nat,
    RoundsUp n (pow2Size (BitVec.ofNat 64 n)).toNat ∧
      ∀ x, (x + 1) &&& (queueInit heap n).mask = (x + 1) % (queueInit heap n).maxSize := by
  intro hall
  obtain ⟨⟨⟨⟨k, hk⟩, -⟩, -⟩, -⟩ := hall (2 ^ 32 + 1) (by decide) (by decide) fun _ => none
  have hsize : (pow2Size (BitVec.ofNat 64 (2 ^ 32 + 1))).toNat = 2 ^ 33 - 1 := by decide
  rw [hsize] at hk
  cases k with
  | zero => exact absurd hk (by decide)
  | succ k =>
    rw [Nat.pow_succ] at hk
    omega

end AtomicQueue

end Jullop
