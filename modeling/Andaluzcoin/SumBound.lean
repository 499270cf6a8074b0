import Mathlib

/-!
# Bounded finite sums

A family of natural numbers is bounded by `B` when no finite part of it sums to
more. The bound moves with the family when one member changes. A sequence that is
constant on eras of equal length and ends in zeros has a bounded sum.
-/

universe u

/-- No finite part of the family sums to more than `B`. -/
def SumBound {K : Type u} (f : K → ℕ) (B : ℕ) : Prop := ∀ S : Finset K, ∑ k ∈ S, f k ≤ B

namespace SumBound

open Finset

variable {K : Type u} {f g : K → ℕ} {B : ℕ}

lemma mono (hb : SumBound f B) (le : ∀ k, g k ≤ f k) : SumBound g B :=
  fun S => (sum_le_sum fun k _ => le k).trans (hb S)

lemma weaken {C : ℕ} (hb : SumBound f B) (le : B ≤ C) : SumBound f C :=
  fun S => (hb S).trans le

lemma le (hb : SumBound f B) (k : K) : f k ≤ B := by
  simpa using hb {k}

variable [DecidableEq K] {a : K} {x : ℕ}

/-- One member may grow by as much as the bound does. -/
lemma add_at (hb : SumBound f B) (ho : ∀ k, k ≠ a → g k ≤ f k) (hg : g a ≤ f a + x) :
  SumBound g (B + x) := by
  intro S
  have le : ∀ k, g k ≤ f k + if k = a then x else 0 := by
    intro k
    by_cases hs : k = a
    · subst hs
      simpa using hg
    · simpa [hs] using ho k hs
  calc ∑ k ∈ S, g k ≤ ∑ k ∈ S, (f k + if k = a then x else 0) :=
        sum_le_sum fun k _ => le k
    _ = ∑ k ∈ S, f k + ∑ k ∈ S, (if k = a then x else 0) := sum_add_distrib
    _ ≤ B + x := by
      refine add_le_add (hb S) ?_
      rw [sum_ite_eq' S a fun _ => x]
      split <;> omega

/-- When one member shrinks the bound shrinks by as much. -/
lemma sub_at (hb : SumBound f B) (ho : ∀ k, k ≠ a → g k ≤ f k) (hsh : g a + x ≤ f a) :
  SumBound g (B - x) := by
  intro S
  have whole := hb (insert a S)
  have le : ∀ k, g k + (if k = a then x else 0) ≤ f k := by
    intro k
    by_cases hs : k = a
    · subst hs
      simpa using hsh
    · simpa [hs] using ho k hs
  have total : ∑ k ∈ insert a S, g k + x ≤ B := by
    calc ∑ k ∈ insert a S, g k + x
        = ∑ k ∈ insert a S, g k + ∑ k ∈ insert a S, (if k = a then x else 0) := by
          rw [sum_ite_eq' (insert a S) a fun _ => x, if_pos (mem_insert_self a S)]
      _ = ∑ k ∈ insert a S, (g k + if k = a then x else 0) := sum_add_distrib.symm
      _ ≤ ∑ k ∈ insert a S, f k := sum_le_sum fun k _ => le k
      _ ≤ B := whole
  have part : ∑ k ∈ S, g k ≤ ∑ k ∈ insert a S, g k := sum_le_sum_of_subset (subset_insert a S)
  omega

end SumBound

/-- Summing a value that only depends on the era, over whole eras of `m` steps. -/
lemma sum_range_mul_div (g : ℕ → ℕ) {m : ℕ} (pos : 0 < m) (eras : ℕ) :
  ∑ h ∈ Finset.range (m * eras), g (h / m) = m * ∑ k ∈ Finset.range eras, g k := by
  induction eras with
  | zero => simp
  | succ eras ih =>
    have last : ∀ h ∈ Finset.range m, g ((m * eras + h) / m) = g eras := by
      intro h hm
      have small := Finset.mem_range.mp hm
      rw [Nat.mul_add_div pos, Nat.div_eq_of_lt small, Nat.add_zero]
    rw [Nat.mul_succ, Finset.sum_range_add, ih, Finset.sum_const_nat last, Finset.card_range,
      Finset.sum_range_succ, Nat.mul_add]

/-- However long the sum, it stays below the total of the eras in which the value is not zero. -/
lemma sum_range_div_le (g : ℕ → ℕ) {m eras : ℕ} (pos : 0 < m) (hv : ∀ k, eras ≤ k → g k = 0)
  (n : ℕ) : ∑ h ∈ Finset.range n, g (h / m) ≤ m * ∑ k ∈ Finset.range eras, g k := by
  have long : n ≤ m * (eras + n) := by
    calc n ≤ eras + n := Nat.le_add_left n eras
      _ ≤ m * (eras + n) := Nat.le_mul_of_pos_left _ pos
  have rest : ∑ k ∈ Finset.range n, g (eras + k) = 0 := by
    apply Finset.sum_eq_zero
    intro k _
    exact hv _ (Nat.le_add_right eras k)
  calc ∑ h ∈ Finset.range n, g (h / m) ≤ ∑ h ∈ Finset.range (m * (eras + n)), g (h / m) :=
        Finset.sum_le_sum_of_subset (Finset.range_mono long)
    _ = m * ∑ k ∈ Finset.range (eras + n), g k := sum_range_mul_div g pos _
    _ = m * ∑ k ∈ Finset.range eras, g k := by rw [Finset.sum_range_add, rest, Nat.add_zero]
