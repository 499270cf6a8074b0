import Mathlib

/-!
# Rounding to a short byte mantissa

Numbers are rounded down to a multiple of a power of 256 that leaves two or three
significant bytes, the first of them below 128 when there are three. The rounding is
monotone, keeps what is already representable, and never loses a positive number.
-/

namespace ByteFloat

variable {n : ℕ}

/-- The number of low bytes that the mantissa of `n` has no room for. -/
def dropped (n : ℕ) : ℕ := n.size / 8 - 2

def roundDown (n : ℕ) : ℕ := n / 256 ^ dropped n * 256 ^ dropped n

lemma roundDown_le (n : ℕ) : roundDown n ≤ n := Nat.div_mul_le_self n _

lemma roundDown_of_dvd (hm : 256 ^ dropped n ∣ n) : roundDown n = n := Nat.div_mul_cancel hm

lemma byte_pow (k : ℕ) : 256 ^ k = 2 ^ (8 * k) := by
  rw [Nat.pow_mul]

/-- The leading bit survives. -/
lemma pow_size_le_roundDown (hp : 0 < n) : 2 ^ (n.size - 1) ≤ roundDown n := by
  have sized : 0 < n.size := Nat.size_pos.mpr hp
  have leading : 2 ^ (n.size - 1) ≤ n := Nat.lt_size.mp (by omega)
  obtain ⟨d, hd⟩ : ∃ d, n.size - 1 = 8 * dropped n + d :=
    ⟨n.size - 1 - 8 * dropped n, by unfold dropped; omega⟩
  have split : 2 ^ (n.size - 1) = 2 ^ d * 256 ^ dropped n := by
    rw [hd, byte_pow, Nat.pow_add, Nat.mul_comm]
  rw [split] at leading ⊢
  refine Nat.mul_le_mul_right _ ?_
  exact (Nat.le_div_iff_mul_le (Nat.pow_pos (by decide))).mpr leading

lemma roundDown_pos (hp : 0 < n) : 0 < roundDown n :=
  lt_of_lt_of_le (Nat.two_pow_pos _) (pow_size_le_roundDown hp)

theorem roundDown_mono {m : ℕ} (le : m ≤ n) : roundDown m ≤ roundDown n := by
  have sizes := Nat.size_le_size le
  rcases lt_or_ge (dropped m) (dropped n) with coarser | finer
  · -- the larger number has more bits, and its leading bit alone exceeds the smaller one
    have longer : m.size ≤ n.size - 1 := by
      unfold dropped at coarser
      omega
    have positive : 0 < n := by
      rcases eq_zero_or_pos n with rfl | positive
      · simp [dropped] at coarser
      · exact positive
    calc roundDown m ≤ m := roundDown_le m
      _ ≤ 2 ^ m.size := le_of_lt (Nat.lt_size_self m)
      _ ≤ 2 ^ (n.size - 1) := Nat.pow_le_pow_right (by decide) longer
      _ ≤ roundDown n := pow_size_le_roundDown positive
  · have same : dropped m = dropped n := by
      unfold dropped at finer ⊢
      omega
    unfold roundDown
    rw [same]
    exact Nat.mul_le_mul_right _ (Nat.div_le_div_right le)

/-- What is lost is less than the last of the fifteen leading bits. -/
lemma roundDown_precise (n : ℕ) : (n - roundDown n) * 2 ^ 15 ≤ n := by
  rw [roundDown, ← Nat.mod_eq_sub_div_mul]
  rcases eq_zero_or_pos (dropped n) with none | some
  · simp [none, Nat.mod_one]
  have leading : 256 ^ dropped n * 2 ^ 15 ≤ n := by
    rw [byte_pow, ← pow_add]
    refine Nat.lt_size.mp ?_
    unfold dropped at some ⊢
    omega
  exact (Nat.mul_le_mul_right _ (Nat.mod_lt n (Nat.pow_pos (by decide))).le).trans leading

lemma size_roundDown (n : ℕ) : (roundDown n).size = n.size := by
  refine le_antisymm (Nat.size_le_size (roundDown_le n)) ?_
  rcases eq_zero_or_pos n with rfl | positive
  · simp
  · have := Nat.lt_size.mpr (pow_size_le_roundDown positive)
    omega

lemma roundDown_mantissa {w k : ℕ} (hs : w < 2 ^ 23) : roundDown (w * 256 ^ k) = w * 256 ^ k := by
  refine roundDown_of_dvd ?_
  have bound : w * 256 ^ k < 2 ^ (23 + 8 * k) := by
    rw [pow_add, byte_pow]
    exact mul_lt_mul_of_pos_right hs (Nat.two_pow_pos _)
  have size := Nat.size_le.mpr bound
  have few : dropped (w * 256 ^ k) ≤ k := by
    unfold dropped
    omega
  exact dvd_trans (pow_dvd_pow 256 few) (dvd_mul_left _ w)

end ByteFloat
