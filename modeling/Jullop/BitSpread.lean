import Mathlib.Data.Nat.Bitwise

/-! Spreading set bits downwards by or-ing a word with shifted copies of
itself, the usual way to fill a word with ones below its highest bit. -/

namespace Jullop

namespace BitSpread

/-- Bit `i` of `w` is set exactly when one of the `k` bits of `v` from `i` on is. -/
def Spread (v k w : Nat) : Prop :=
  ∀ i, w.testBit i = true ↔ ∃ j, j < k ∧ v.testBit (i + j) = true

theorem Spread.self (v : Nat) : Spread v 1 v := by
  intro i
  constructor
  · intro h
    exact ⟨0, by omega, h⟩
  · rintro ⟨j, hj, h⟩
    obtain rfl : j = 0 := by omega
    exact h

theorem Spread.shift {v k w s : Nat} (h : Spread v k w) (hs : s ≤ k) :
    Spread v (k + s) (w ||| w >>> s) := by
  intro i
  simp only [Nat.testBit_or, Nat.testBit_shiftRight, Bool.or_eq_true, h i, h (s + i)]
  constructor
  · rintro (⟨j, hj, hb⟩ | ⟨j, hj, hb⟩)
    · exact ⟨j, by omega, hb⟩
    · exact ⟨s + j, by omega, by rwa [show i + (s + j) = s + i + j by omega]⟩
  · rintro ⟨j, hj, hb⟩
    by_cases hk : j < k
    · exact .inl ⟨j, hk, hb⟩
    · exact .inr ⟨j - s, by omega, by rwa [show s + i + (j - s) = i + j by omega]⟩

/-- No `k` bits in a row are clear below a set bit of `v`. -/
def Dense (v k : Nat) : Prop :=
  ∀ i m, i ≤ m → v.testBit m = true → ∃ j, j < k ∧ v.testBit (i + j) = true

theorem Dense.of_lt {v k : Nat} (h : v < 2 ^ k) : Dense v k := by
  intro i m him hm
  have hle := Nat.ge_two_pow_of_testBit hm
  have hmk : m < k := (Nat.pow_lt_pow_iff_right (by omega)).mp (Nat.lt_of_le_of_lt hle h)
  exact ⟨m - i, by omega, by rwa [show i + (m - i) = m by omega]⟩

theorem Spread.lt {v k w n : Nat} (h : Spread v k w) (hv : v < 2 ^ n) : w < 2 ^ n := by
  refine Nat.lt_pow_two_of_testBit w fun i hi => ?_
  by_contra hset
  obtain ⟨j, -, hb⟩ := (h i).mp (Bool.eq_true_of_not_eq_false hset)
  have hle := Nat.ge_two_pow_of_testBit hb
  have hpow : 2 ^ n ≤ 2 ^ (i + j) := Nat.pow_le_pow_right (by omega) (by omega)
  omega

/-- A spread of a word without wider gaps fills it with ones up to the highest set
bit. -/
theorem Spread.eq_ones {v k w : Nat} (h : Spread v k w) (hv : v ≠ 0) (hd : Dense v k) :
    w = 2 ^ (v.log2 + 1) - 1 := by
  refine Nat.eq_of_testBit_eq fun i => Bool.eq_iff_iff.mpr ?_
  rw [h i, Nat.testBit_two_pow_sub_one, decide_eq_true_eq]
  constructor
  · rintro ⟨j, _, hb⟩
    have hle := (Nat.le_log2 hv).mpr (Nat.ge_two_pow_of_testBit hb)
    omega
  · intro hi
    exact hd i v.log2 (by omega) (Nat.testBit_log2 hv)

/-- What comes behind a spread is a power of two only when the spread has filled
the word. -/
theorem Spread.dense {v k w m : Nat} (h : Spread v k w) (hk : 0 < k) (hm : w + 1 = 2 ^ m) :
    Dense v k := by
  have hw : w = 2 ^ m - 1 := by omega
  have hset : ∀ i, i < m ↔ w.testBit i = true := by
    intro i
    rw [hw, Nat.testBit_two_pow_sub_one, decide_eq_true_eq]
  intro i m' him hm'
  have htop : w.testBit m' = true := (h m').mpr ⟨0, hk, hm'⟩
  have hlt : m' < m := (hset m').mpr htop
  exact (h i).mp ((hset i).mp (by omega))

end BitSpread

end Jullop
