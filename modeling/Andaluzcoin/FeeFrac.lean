import Mathlib

/-!
# Fees and sizes

`FeeFrac`: a fee together with the size it pays for. Fees and sizes are integers without a
bound, so that sums and the products of a comparison are exact. Where sizes are positive, the
comparisons are those of the rates as rational numbers.
-/

/-- A fee and a size, compared by their ratio. -/
structure FeeFrac where
  fee : ℤ
  size : ℤ
  deriving DecidableEq

namespace FeeFrac

def empty : FeeFrac := ⟨0, 0⟩

instance : Add FeeFrac := ⟨fun a b => ⟨a.fee + b.fee, a.size + b.size⟩⟩

instance : Sub FeeFrac := ⟨fun a b => ⟨a.fee - b.fee, a.size - b.size⟩⟩

/-- Compare two `FeeFrac`s just by feerate. -/
def feeRateCompare (a b : FeeFrac) : Ordering := compare (a.fee * b.size) (b.fee * a.size)

/-- `a << b` -/
def lowerFeeRate (a b : FeeFrac) : Bool := decide (a.fee * b.size < b.fee * a.size)

/-- `a >> b` -/
def higherFeeRate (a b : FeeFrac) : Bool := decide (b.fee * a.size < a.fee * b.size)

@[simp]
lemma add_fee (a b : FeeFrac) : (a + b).fee = a.fee + b.fee := rfl

@[simp]
lemma add_size (a b : FeeFrac) : (a + b).size = a.size + b.size := rfl

@[ext]
lemma ext' {a b : FeeFrac} (fee : a.fee = b.fee) (size : a.size = b.size) : a = b := by
  cases a
  cases b
  simp_all

/-- The feerate as a number. -/
def rate (a : FeeFrac) : ℚ := (a.fee : ℚ) / a.size

variable {a b : FeeFrac}

variable (posA : 0 < a.size)
include posA

variable (posB : 0 < b.size)
include posB

lemma rate_lt_rate : a.rate < b.rate ↔ a.fee * b.size < b.fee * a.size := by
  have posA' : (0 : ℚ) < a.size := by exact_mod_cast posA
  have posB' : (0 : ℚ) < b.size := by exact_mod_cast posB
  rw [rate, rate, div_lt_div_iff₀ posA' posB']
  exact_mod_cast Iff.rfl

lemma feeRateCompare_eq_lt : feeRateCompare a b = .lt ↔ a.rate < b.rate := by
  rw [feeRateCompare, compare_lt_iff_lt, rate_lt_rate posA posB]

lemma feeRateCompare_eq_gt : feeRateCompare a b = .gt ↔ b.rate < a.rate := by
  rw [feeRateCompare, compare_gt_iff_gt, rate_lt_rate posB posA]

lemma feeRateCompare_eq_eq : feeRateCompare a b = .eq ↔ a.rate = b.rate := by
  rw [feeRateCompare, compare_eq_iff_eq]
  have below := rate_lt_rate posA posB
  have above := rate_lt_rate posB posA
  constructor
  · intro eq
    exact le_antisymm (not_lt.mp fun lt => (above.mp lt).ne eq.symm)
      (not_lt.mp fun lt => (below.mp lt).ne eq)
  · intro eq
    exact le_antisymm (not_lt.mp fun lt => (above.mpr lt).ne eq.symm)
      (not_lt.mp fun lt => (below.mpr lt).ne eq)

lemma lowerFeeRate_iff : lowerFeeRate a b = true ↔ a.rate < b.rate := by
  rw [lowerFeeRate, decide_eq_true_iff, rate_lt_rate posA posB]

lemma higherFeeRate_iff : higherFeeRate a b = true ↔ b.rate < a.rate := by
  rw [higherFeeRate, decide_eq_true_iff, rate_lt_rate posB posA]

end FeeFrac
