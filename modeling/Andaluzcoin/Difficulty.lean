import Andaluzcoin.ByteFloat
import Andaluzcoin.Pow

/-!
# The two difficulty rules agree

Encoding a target and decoding it again rounds it down to a byte mantissa, which is
monotone and keeps what was decoded before. So the target that `GetNextWorkRequired` asks
for lies between the two bounds of `PermittedDifficultyTransition`, which scale by the
extreme timespans and round in the same way.
-/

namespace Difficulty

open ByteFloat Pow
open Nat (size_le reducePow reduceSub mod_eq_of_lt)
open BitVec (eq_of_toNat_eq toNat_ushiftRight toNat_and toNat_ofNat le_def lt_def)

section
variable {n s : ℕ}

/-- Mantissa and size that `GetCompact` writes for a number. -/
def parts (n : ℕ) : ℕ × ℕ :=
  let nSize := (n.size + 7) / 8
  let word := if nSize ≤ 3 then n * 256 ^ (3 - nSize) else n / 256 ^ (nSize - 3)
  if 2 ^ 23 ≤ word then (word / 256, nSize + 1) else (word, nSize)

/-- The number that a mantissa and a size stand for. -/
def scaled (word nSize : ℕ) : ℕ :=
  if nSize ≤ 3 then word / 256 ^ (3 - nSize) else word * 256 ^ (nSize - 3)

lemma parts_signed (word : ℕ)
  (hh : word = if (n.size + 7) / 8 ≤ 3 then n * 256 ^ (3 - (n.size + 7) / 8)
    else n / 256 ^ ((n.size + 7) / 8 - 3)) :
  parts n = if 2 ^ 23 ≤ word then (word / 256, (n.size + 7) / 8 + 1)
    else (word, (n.size + 7) / 8) := by
  rw [hh]
  rfl

lemma parts_word {k : ℕ} (hb : (n.size + 7) / 8 = k + 3) :
  parts n = if 2 ^ 23 ≤ n / 256 ^ k then (n / 256 ^ k / 256, k + 4) else (n / 256 ^ k, k + 3) := by
  rw [parts_signed (n / 256 ^ k), hb]
  rw [hb]
  rcases Nat.eq_zero_or_pos k with rfl | some
  · simp
  · rw [if_neg (by omega), Nat.add_sub_cancel]

lemma signed_iff {k : ℕ} (hb : (n.size + 7) / 8 = k + 3) :
  2 ^ 23 ≤ n / 256 ^ k ↔ n.size = 8 * (k + 3) := by
  rw [Nat.le_div_iff_mul_le (Nat.pow_pos (by decide)), byte_pow, ← pow_add, ← Nat.lt_size]
  omega

lemma parts_short (hb : (n.size + 7) / 8 = s) (hs : s ≤ 2) :
  (parts n).1 < 2 ^ 23 ∧ (parts n).2 ≤ 3 ∧ scaled (parts n).1 (parts n).2 = roundDown n := by
  have bound : n < 2 ^ (8 * s) := size_le.mp (by omega)
  have kept : roundDown n = n := by
    have : dropped n = 0 := by
      unfold dropped
      omega
    simp [roundDown, this]
  rw [kept, parts_signed (n * 256 ^ (3 - s)) (by rw [hb, if_pos (by omega)]), hb]
  have cases : s = 0 ∨ s = 1 ∨ s = 2 := by omega
  rcases cases with rfl | rfl | rfl
  · obtain rfl : n = 0 := by omega
    simp [scaled]
  · simp only [reducePow, Nat.reduceMul, reduceSub] at bound ⊢
    split
    · simp only [scaled, Nat.reduceAdd, reduceSub, reducePow, Nat.reduceLeDiff, if_true, true_and]
      omega
    · simp only [scaled, reduceSub, reducePow, Nat.reduceLeDiff, if_true, true_and]
      omega
  · simp only [reducePow, Nat.reduceMul, reduceSub] at bound ⊢
    split
    · simp only [scaled, Nat.reduceAdd, reduceSub, reducePow, le_refl, if_true, true_and]
      omega
    · simp only [scaled, reduceSub, reducePow, Nat.reduceLeDiff, if_true, true_and]
      omega

/-- Of a longer number the bytes are written that the mantissa has room for. -/
lemma parts_long {k : ℕ} (hb : (n.size + 7) / 8 = k + 3) :
  (parts n).1 < 2 ^ 23 ∧ (parts n).2 ≤ k + 4 ∧ ((parts n).2 = k + 4 → (parts n).1 < 2 ^ 16) ∧
    scaled (parts n).1 (parts n).2 = roundDown n := by
  have bound : n < 2 ^ 24 * 256 ^ k := by
    rw [byte_pow, ← Nat.pow_add]
    exact Nat.size_le.mp (by omega)
  have positive : 0 < 256 ^ k := Nat.pow_pos (by decide)
  have word : n / 256 ^ k < 2 ^ 24 := (Nat.div_lt_iff_lt_mul positive).mpr bound
  rw [parts_word hb]
  split
  · next signed =>
    have size := (signed_iff hb).mp signed
    have drop : dropped n = k + 1 := by
      unfold dropped
      omega
    refine ⟨by omega, by simp, fun _ => by omega, ?_⟩
    rw [scaled, if_neg (by omega), roundDown, drop, Nat.div_div_eq_div_mul, ← Nat.pow_succ]
    rfl
  · next unsigned =>
    have size := mt (signed_iff hb).mpr unsigned
    have drop : dropped n = k := by
      unfold dropped
      omega
    refine ⟨by omega, by simp, fun h => by simp at h, ?_⟩
    rw [roundDown, drop, scaled]
    rcases Nat.eq_zero_or_pos k with rfl | some
    · simp
    · rw [if_neg (by omega), Nat.add_sub_cancel]

lemma parts_roundDown (n : ℕ) : parts (roundDown n) = parts n := by
  by_cases whole : dropped n = 0
  · rw [roundDown, whole, Nat.pow_zero, Nat.div_one, Nat.mul_one]
  obtain ⟨k, bytes⟩ : ∃ k, (n.size + 7) / 8 = k + 3 :=
    ⟨(n.size + 7) / 8 - 3, by unfold dropped at whole; omega⟩
  have positive : 0 < 256 ^ k := Nat.pow_pos (by decide)
  rw [parts_word bytes, parts_word (k := k) (by rw [size_roundDown, bytes]), roundDown]
  by_cases full : n.size = 8 * (k + 3)
  · have signed := (signed_iff bytes).mpr full
    have drop : dropped n = k + 1 := by
      unfold dropped
      omega
    have word : n / 256 ^ (k + 1) * 256 ^ (k + 1) / 256 ^ k = n / 256 ^ k / 256 * 256 := by
      rw [Nat.pow_succ, ← Nat.mul_assoc, Nat.mul_right_comm, Nat.mul_div_cancel _ positive,
        ← Nat.div_div_eq_div_mul]
    rw [drop, word, if_pos (by omega), if_pos signed, Nat.mul_div_cancel _ (by decide)]
  · have drop : dropped n = k := by
      unfold dropped
      omega
    rw [drop, Nat.mul_div_cancel _ positive]

/-- Mantissa and size of a 256-bit number fit, and stand for the number rounded down. -/
lemma parts_spec (hb : n < 2 ^ 256) :
  (parts n).1 < 2 ^ 23 ∧ (parts n).2 ≤ 33 ∧ ((parts n).2 = 33 → (parts n).1 < 2 ^ 16) ∧
    scaled (parts n).1 (parts n).2 = roundDown n := by
  have size : n.size ≤ 256 := size_le.mpr hb
  rcases lt_or_ge 2 ((n.size + 7) / 8) with long | short
  · obtain ⟨k, bytes⟩ : ∃ k, (n.size + 7) / 8 = k + 3 := ⟨(n.size + 7) / 8 - 3, by omega⟩
    obtain ⟨mantissa, sized, top, value⟩ := parts_long bytes
    exact ⟨mantissa, by omega, fun h => top (by omega), value⟩
  · obtain ⟨mantissa, sized, value⟩ := parts_short rfl short
    exact ⟨mantissa, by omega, fun h => by omega, value⟩

lemma bits_eq_size (x : ArithUint256) : bits x = x.toNat.size := by
  unfold bits
  split
  · next hz => simp [hz]
  · next hn =>
    have toNat : x.toNat ≠ 0 := by
      intro h
      exact hn (eq_of_toNat_eq h)
    refine le_antisymm ?_ ?_
    · exact Nat.lt_size.mpr (Nat.log2_self_le toNat)
    · exact size_le.mpr Nat.lt_log2_self

lemma toNat_size (c : BitVec 32) : (c >>> 24).toNat = c.toNat / 2 ^ 24 := by
  rw [toNat_ushiftRight, Nat.shiftRight_eq_div_pow]

lemma toNat_word (c : BitVec 32) : (c &&& 0x007fffff#32).toNat = c.toNat % 2 ^ 23 := by
  rw [toNat_and]
  exact Nat.and_two_pow_sub_one_eq_mod c.toNat 23

lemma sign_ne_zero (c : BitVec 32) :
  (c &&& 0x00800000#32 != 0) = decide (c.toNat / 2 ^ 23 % 2 = 1) := by
  have masked : (c &&& 0x00800000#32).toNat = (c.toNat.testBit 23).toNat * 2 ^ 23 := by
    rw [toNat_and]
    exact Nat.and_two_pow c.toNat 23
  rw [Nat.testBit_eq_decide_div_mod_eq] at masked
  by_cases set : c.toNat / 2 ^ 23 % 2 = 1
  · have nonzero : c &&& 0x00800000#32 ≠ 0 := by
      intro h
      rw [h, decide_eq_true set] at masked
      exact absurd masked (by decide)
    rw [decide_eq_true set]
    simpa using nonzero
  have zero : c &&& 0x00800000#32 = 0 := by
    apply eq_of_toNat_eq
    rw [masked, decide_eq_false set]
    rfl
  rw [decide_eq_false set, zero]
  rfl

lemma leading_lt (hb : (n.size + 7) / 8 = s) :
  (if s ≤ 3 then n * 256 ^ (3 - s) else n / 256 ^ (s - 3)) < 2 ^ 24 := by
  have bound : n < 2 ^ (8 * s) := size_le.mp (by omega)
  split
  · next short =>
    calc n * 256 ^ (3 - s) < 2 ^ (8 * s) * 256 ^ (3 - s) :=
          Nat.mul_lt_mul_of_pos_right bound (Nat.pow_pos (by decide))
      _ = 2 ^ 24 := by
          rw [byte_pow, ← pow_add]
          congr 1
          omega
  · next long =>
    refine (Nat.div_lt_iff_lt_mul (Nat.pow_pos (by decide))).mpr ?_
    have : 2 ^ 24 * 256 ^ (s - 3) = 2 ^ (8 * s) := by
      rw [byte_pow, ← pow_add]
      congr 1
      omega
    omega

lemma leading_toNat (x : ArithUint256) (hb : (x.toNat.size + 7) / 8 = s) :
  (if s ≤ 3 then BitVec.ofNat 32 (getLow64 x <<< (8 * (3 - s)) % 2 ^ 64)
    else BitVec.ofNat 32 (getLow64 (x >>> (8 * (s - 3))))).toNat
    = if s ≤ 3 then x.toNat * 256 ^ (3 - s) else x.toNat / 256 ^ (s - 3) := by
  have bound := leading_lt hb
  split
  · next short =>
    rw [if_pos short] at bound
    have small : x.toNat < 2 ^ 64 := by
      have : x.toNat < 2 ^ (8 * s) := size_le.mp (by omega)
      exact lt_of_lt_of_le this (Nat.pow_le_pow_right (by decide) (by omega))
    rw [toNat_ofNat, getLow64, mod_eq_of_lt small, Nat.shiftLeft_eq, ← byte_pow]
    omega
  · next long =>
    rw [if_neg long] at bound
    rw [toNat_ofNat, getLow64, toNat_ushiftRight, Nat.shiftRight_eq_div_pow, ← byte_pow]
    rw [mod_eq_of_lt (a := x.toNat / 256 ^ (s - 3)) (by omega), mod_eq_of_lt (by omega)]

lemma getCompact_parts (x : ArithUint256) :
  (getCompact x).toNat = (parts x.toNat).1 + (parts x.toNat).2 * 2 ^ 24 := by
  obtain ⟨mantissa, sized, -, -⟩ := parts_spec x.isLt
  rw [parts_signed _ rfl] at mantissa sized ⊢
  have bound := leading_lt (n := x.toNat) rfl
  have leading := leading_toNat x rfl
  unfold getCompact
  rw [bits_eq_size]
  generalize hs : (x.toNat.size + 7) / 8 = s at *
  generalize hw : (if s ≤ 3 then x.toNat * 256 ^ (3 - s) else x.toNat / 256 ^ (s - 3)) = w at *
  generalize hb : (if s ≤ 3 then BitVec.ofNat 32 (getLow64 x <<< (8 * (3 - s)) % 2 ^ 64)
      else BitVec.ofNat 32 (getLow64 (x >>> (8 * (s - 3))))) = b at *
  have signed : (b &&& 0x00800000#32 != 0) = decide (2 ^ 23 ≤ w) := by
    rw [sign_ne_zero, leading, decide_eq_decide]
    omega
  have combine : ∀ (m : BitVec 32) (k : ℕ), m.toNat < 2 ^ 24 → k ≤ 33 →
    (m ||| BitVec.ofNat 32 k <<< 24).toNat = m.toNat + k * 2 ^ 24 := by
    intro m k short hf
    have shifted : (BitVec.ofNat 32 k <<< 24).toNat = 2 ^ 24 * k := by
      rw [BitVec.toNat_shiftLeft, BitVec.toNat_ofNat, Nat.shiftLeft_eq]
      omega
    rw [BitVec.toNat_or, shifted, Nat.or_comm, ← Nat.two_pow_add_eq_or_of_lt short]
    omega
  simp only [hb, signed]
  by_cases hh : 2 ^ 23 ≤ w
  · simp only [hh, if_true, decide_true] at mantissa sized ⊢
    have shifted : (b >>> 8).toNat = w / 256 := by
      rw [BitVec.toNat_ushiftRight, Nat.shiftRight_eq_div_pow, leading]
    rw [combine _ _ (by omega) sized, shifted]
  · simp only [hh, if_false, decide_false, Bool.false_eq_true] at mantissa sized ⊢
    rw [combine _ _ (by omega) sized, leading]

lemma setCompact_toNat (c : BitVec 32) {word nSize : ℕ} (hw : c.toNat % 2 ^ 23 = word)
  (hs : c.toNat / 2 ^ 24 = nSize) : (setCompact c).value.toNat = scaled word nSize % 2 ^ 256 := by
  have bound : word < 2 ^ 23 := by omega
  unfold setCompact scaled
  simp only [toNat_size, hs]
  split
  · next short =>
    simp only [toNat_ofNat, toNat_ushiftRight, toNat_word, hw, Nat.shiftRight_eq_div_pow, byte_pow]
  · next long =>
    rw [BitVec.toNat_shiftLeft, toNat_ofNat, toNat_word, hw, Nat.shiftLeft_eq,
      byte_pow, Nat.mod_mul_mod]

lemma getCompact_fields (x : ArithUint256) : (getCompact x).toNat % 2 ^ 23 = (parts x.toNat).1 ∧
    (getCompact x).toNat / 2 ^ 23 % 2 = 0 ∧ (getCompact x).toNat / 2 ^ 24 = (parts x.toNat).2 := by
  obtain ⟨mantissa, -, -, -⟩ := parts_spec x.isLt
  have compact := getCompact_parts x
  omega

/-- Decoding what was encoded rounds down and raises no flag. -/
theorem setCompact_getCompact (x : ArithUint256) :
  (setCompact (getCompact x)).value.toNat = roundDown x.toNat ∧
    (setCompact (getCompact x)).fNegative = false ∧
    (setCompact (getCompact x)).fOverflow = false := by
  obtain ⟨-, sized, top, value⟩ := parts_spec x.isLt
  obtain ⟨isWord, noSign, isSize⟩ := getCompact_fields x
  refine ⟨?_, ?_, ?_⟩
  · rw [setCompact_toNat _ isWord isSize, value]
    exact mod_eq_of_lt (lt_of_le_of_lt (roundDown_le _) x.isLt)
  · simp only [setCompact, sign_ne_zero, noSign, Bool.and_eq_false_iff]
    exact .inr rfl
  · have word := toNat_word (getCompact x)
    rw [isWord] at word
    simp only [setCompact, toNat_size, isSize]
    by_cases short : (parts x.toNat).2 ≤ 3
    · rw [Bool.and_eq_false_iff]
      right
      simp only [Bool.or_eq_false_iff, Bool.and_eq_false_iff, decide_eq_false_iff_not]
      omega
    · rw [Bool.and_eq_false_iff]
      right
      simp only [short, if_false, word, Bool.or_eq_false_iff, Bool.and_eq_false_iff,
        decide_eq_false_iff_not]
      omega

lemma setCompact_rounded {c : BitVec 32} (fits : (setCompact c).fOverflow = false) :
  roundDown (setCompact c).value.toNat = (setCompact c).value.toNat := by
  obtain ⟨word, isWord⟩ : ∃ word, c.toNat % 2 ^ 23 = word := ⟨_, rfl⟩
  obtain ⟨nSize, isSize⟩ : ∃ nSize, c.toNat / 2 ^ 24 = nSize := ⟨_, rfl⟩
  have short : word < 2 ^ 23 := by omega
  have masked := toNat_word c
  rw [isWord] at masked
  rw [setCompact_toNat c isWord isSize]
  by_cases low : nSize ≤ 3
  · have small : word / 256 ^ (3 - nSize) < 2 ^ 23 := Nat.lt_of_le_of_lt (Nat.div_le_self _ _) short
    rw [scaled, if_pos low, mod_eq_of_lt (by omega)]
    have kept := roundDown_mantissa (k := 0) small
    rwa [pow_zero, mul_one] at kept
  have bound : word * 256 ^ (nSize - 3) < 2 ^ 256 := by
    simp only [setCompact, toNat_size, isSize, low, if_false, masked, Bool.and_eq_false_iff,
      Bool.or_eq_false_iff, decide_eq_false_iff_not, bne_eq_false_iff_eq] at fits
    have within : ∀ a : ℕ, word < 2 ^ a → a + 8 * (nSize - 3) ≤ 256 →
      word * 256 ^ (nSize - 3) < 2 ^ 256 := by
      intro a hb room
      calc word * 256 ^ (nSize - 3) < 2 ^ a * 256 ^ (nSize - 3) :=
            Nat.mul_lt_mul_of_pos_right hb (Nat.pow_pos (by decide))
        _ = 2 ^ (a + 8 * (nSize - 3)) := by rw [byte_pow, pow_add]
        _ ≤ 2 ^ 256 := Nat.pow_le_pow_right (by decide) room
    rcases fits with hz | ⟨⟨notLong, two⟩, three⟩
    · have : word = 0 := by rw [← masked, hz]; rfl
      rw [this, Nat.zero_mul]
      exact Nat.two_pow_pos 256
    by_cases large : nSize = 34
    · exact within 8 (by omega) (by omega)
    · by_cases medium : nSize = 33
      · exact within 16 (by omega) (by omega)
      · exact within 23 short (by omega)
  rw [scaled, if_neg low, mod_eq_of_lt bound]
  exact roundDown_mantissa short

/-- Encoding rounds a target down, to fifteen leading bits at least, and in the order of the
targets; encoding what was decoded changes nothing. -/
theorem getCompact_rounds : (∀ x : ArithUint256, (setCompact (getCompact x)).fNegative = false ∧
    (setCompact (getCompact x)).fOverflow = false ∧ (setCompact (getCompact x)).value ≤ x ∧
    (x.toNat - (setCompact (getCompact x)).value.toNat) * 2 ^ 15 ≤ x.toNat ∧
    getCompact (setCompact (getCompact x)).value = getCompact x ∧
    ∀ y, x ≤ y → (setCompact (getCompact x)).value ≤ (setCompact (getCompact y)).value) ∧
  ∀ nBits, (setCompact nBits).fNegative = false → (setCompact nBits).fOverflow = false →
    setCompact (getCompact (setCompact nBits).value) = setCompact nBits := by
  refine ⟨fun x => ?_, fun nBits hn fits => ?_⟩
  · obtain ⟨value, hn, fits⟩ := setCompact_getCompact x
    refine ⟨hn, fits, ?_, ?_, ?_, fun y le => ?_⟩
    · rw [BitVec.le_def, value]
      exact roundDown_le _
    · rw [value]
      exact roundDown_precise _
    · refine BitVec.eq_of_toNat_eq ?_
      rw [getCompact_parts, getCompact_parts, value, parts_roundDown]
    · rw [BitVec.le_def, value, (setCompact_getCompact y).1]
      exact roundDown_mono le
  · obtain ⟨value, hn', fits'⟩ := setCompact_getCompact (setCompact nBits).value
    rw [setCompact_rounded fits] at value
    exact (Decoded.mk.injEq ..).mpr
      ⟨BitVec.eq_of_toNat_eq value, hn'.trans hn.symm, fits'.trans fits.symm⟩

end

section
variable {last : ChainEntry} {height timespan : Int}

/-- The target that results from an old one after a timespan, capped but not yet rounded. -/
def scaledTarget (params : Params) (nBits : BitVec 32) (timespan : Int) : ArithUint256 :=
  let target := divUint64 (mulUint32 (setCompact nBits).value timespan) params.nPowTargetTimespan
  if target > params.powLimit then params.powLimit else target

lemma targetAfter_toNat (P : Params) (nBits : BitVec 32) (timespan : Int) :
  (targetAfter P nBits timespan).toNat = roundDown (scaledTarget P nBits timespan).toNat :=
  (setCompact_getCompact _).1

/-- A chain as the difficulty rules meet it: the timespan is a multiple of the spacing and
its products with the limit do not overflow. -/
structure Retargets (params : Params) : Prop where
  spacing : 0 < params.nPowTargetSpacing
  multiple : params.nPowTargetSpacing ∣ params.nPowTargetTimespan
  timespan : 4 ≤ params.nPowTargetTimespan
  fits : 4 * params.nPowTargetTimespan < 2 ^ 32
  product : params.powLimit.toNat * (4 * params.nPowTargetTimespan) < 2 ^ 256

variable {P : Params} {nBits : BitVec 32}

lemma deriveTarget_isSome {limit : ArithUint256} (passes : (deriveTarget nBits limit).isSome) :
  (setCompact nBits).fNegative = false ∧ (setCompact nBits).fOverflow = false ∧
    0 < (setCompact nBits).value.toNat ∧ (setCompact nBits).value.toNat ≤ limit.toNat := by
  unfold deriveTarget at passes
  dsimp only at passes
  split at passes
  · simp at passes
  · next checks =>
    simp only [Bool.or_eq_true, not_or, Bool.not_eq_true, beq_eq_false_iff_ne, decide_eq_false_iff_not,
      gt_iff_lt, BitVec.not_lt, le_def] at checks
    obtain ⟨⟨⟨hne, hn⟩, ho⟩, hc⟩ := checks
    refine ⟨hne, ho, ?_, hc⟩
    refine pos_of_ne_zero fun hz => hn ?_
    exact eq_of_toNat_eq hz

section
variable (hr : Retargets P) (hc : (setCompact nBits).value.toNat ≤ P.powLimit.toNat)
include hr hc

/-- In range, the scaled target is the exact quotient, capped by the limit. -/
lemma scaledTarget_toNat (hn : 0 ≤ timespan) (hl : timespan ≤ P.nPowTargetTimespan * 4) :
  (scaledTarget P nBits timespan).toNat
    = min ((setCompact nBits).value.toNat * timespan.toNat / P.nPowTargetTimespan.toNat)
        P.powLimit.toNat := by
  obtain ⟨-, -, least, hf, product⟩ := hr
  obtain ⟨ts, rfl⟩ := Int.eq_ofNat_of_zero_le hn
  obtain ⟨span, isSpan⟩ := Int.eq_ofNat_of_zero_le (show 0 ≤ P.nPowTargetTimespan by omega)
  rw [isSpan] at least hf product hl
  have multiplier : ((ts : Int) % 2 ^ 32).toNat = ts := by omega
  have divisor : ((span : Int) % 2 ^ 64).toNat = span := by omega
  have exact_product : (setCompact nBits).value.toNat * ts < 2 ^ 256 := by
    have bound : (setCompact nBits).value.toNat * ts ≤ P.powLimit.toNat * (4 * span) :=
      Nat.mul_le_mul hc (by omega)
    have : P.powLimit.toNat * (4 * span) < 2 ^ 256 := by exact_mod_cast product
    omega
  have quotient : (divUint64 (mulUint32 (setCompact nBits).value (ts : Int)) (span : Int)).toNat
    = (setCompact nBits).value.toNat * ts / span := by
    rw [divUint64, mulUint32, BitVec.toNat_udiv, BitVec.toNat_mul, toNat_ofNat,
      toNat_ofNat, multiplier, divisor, mod_eq_of_lt (a := ts) (by omega),
      mod_eq_of_lt exact_product, mod_eq_of_lt (a := span) (by omega)]
  simp only [scaledTarget, isSpan, gt_iff_lt, lt_def, Int.toNat_natCast]
  split
  · next ha => rw [quotient] at ha; omega
  · next hw => rw [quotient] at hw ⊢; omega

lemma scaledTarget_mono {short long : Int} (hn : 0 ≤ short)
  (le : short ≤ long) (hl : long ≤ P.nPowTargetTimespan * 4) :
  (scaledTarget P nBits short).toNat ≤ (scaledTarget P nBits long).toNat := by
  rw [scaledTarget_toNat hr hc hn (by omega), scaledTarget_toNat hr hc (by omega) hl]
  have quotients : (setCompact nBits).value.toNat * short.toNat / P.nPowTargetTimespan.toNat
    ≤ (setCompact nBits).value.toNat * long.toNat / P.nPowTargetTimespan.toNat :=
    Nat.div_le_div_right (Nat.mul_le_mul_left _ (by omega))
  omega

end

lemma scaledTarget_le_limit (timespan : Int) :
  (scaledTarget P nBits timespan).toNat ≤ P.powLimit.toNat := by
  simp only [scaledTarget, gt_iff_lt, lt_def]
  split <;> omega

section
variable (hr : Retargets P) (hc : (setCompact nBits).value.toNat ≤ P.powLimit.toNat)
include hr hc

lemma scaledTarget_timespan :
  (scaledTarget P nBits P.nPowTargetTimespan).toNat = (setCompact nBits).value.toNat := by
  have least := hr.timespan
  rw [scaledTarget_toNat hr hc (by omega) (by omega), Nat.mul_div_cancel _ (by omega)]
  omega

lemma scaledTarget_pos (hla : 8 ≤ (setCompact nBits).value.toNat)
  (hs : P.nPowTargetTimespan / 4 ≤ timespan) (hl : timespan ≤ P.nPowTargetTimespan * 4) :
  0 < (scaledTarget P nBits timespan).toNat := by
  have least := hr.timespan
  rw [scaledTarget_toNat hr hc (by omega) hl]
  have quotient : 1 ≤ (setCompact nBits).value.toNat * timespan.toNat
    / P.nPowTargetTimespan.toNat := by
    refine (Nat.le_div_iff_mul_le (by omega)).mpr ?_
    calc 1 * P.nPowTargetTimespan.toNat ≤ 8 * timespan.toNat := by omega
      _ ≤ (setCompact nBits).value.toNat * timespan.toNat := Nat.mul_le_mul_right _ hla
  omega

end

/-- What the retargeting rule asks for: the bits as they are, or the target scaled by a
timespan within the two extremes. -/
lemma calculateNextWorkRequired_eq (chain : List ChainEntry) (last : ChainEntry)
  (nFirstBlockTime : Int) (hr : Retargets P) (hb : P.enforceBIP94 = false) :
  calculateNextWorkRequired P chain last nFirstBlockTime = last.nBits ∨
    ∃ timespan, P.nPowTargetTimespan / 4 ≤ timespan ∧ timespan ≤ P.nPowTargetTimespan * 4 ∧
      calculateNextWorkRequired P chain last nFirstBlockTime
        = getCompact (scaledTarget P last.nBits timespan) := by
  have least := hr.timespan
  have quarter : P.nPowTargetTimespan.tdiv 4 = P.nPowTargetTimespan / 4 :=
    Int.tdiv_eq_ediv_of_nonneg (by omega)
  by_cases fixed : P.fPowNoRetargeting
  · left
    simp [calculateNextWorkRequired, fixed]
  right
  simp only [calculateNextWorkRequired, fixed, hb, quarter, if_false, Bool.false_eq_true]
  refine ⟨_, ?_, ?_, rfl⟩
  · split <;> split <;> omega
  · split <;> omega

/-- A target that is asked for decodes within the bounds of the transition rule. -/
lemma permitted_of_between {new : BitVec 32}
  (ha : roundDown (scaledTarget P nBits (P.nPowTargetTimespan.tdiv 4)).toNat
    ≤ (setCompact new).value.toNat) (below : (setCompact new).value.toNat
    ≤ roundDown (scaledTarget P nBits (P.nPowTargetTimespan * 4)).toNat)
  (hb : height.tmod P.difficultyAdjustmentInterval = 0) :
  permittedDifficultyTransition P height nBits new = true := by
  rw [← targetAfter_toNat] at ha below
  unfold permittedDifficultyTransition
  split
  · rfl
  have ordered : !(targetAfter P nBits (P.nPowTargetTimespan * 4) < (setCompact new).value) &&
    !(targetAfter P nBits (P.nPowTargetTimespan.tdiv 4) > (setCompact new).value) := by
    simp only [Bool.and_eq_true, Bool.not_eq_true', decide_eq_false_iff_not, gt_iff_lt,
      BitVec.not_lt, le_def]
    exact ⟨below, ha⟩
  exact ordered

/-- What is asked for at the end of a period is permitted, decodes without a flag to a target
under the limit, and is not zero for a large enough old target. -/
lemma retarget_permitted (chain : List ChainEntry) (nFirstBlockTime : Int) (hr : Retargets P)
  (hbi : P.enforceBIP94 = false) (target : (deriveTarget last.nBits P.powLimit).isSome)
  (hb : height.tmod P.difficultyAdjustmentInterval = 0) :
  let nBits := calculateNextWorkRequired P chain last nFirstBlockTime
  permittedDifficultyTransition P height last.nBits nBits = true ∧
    (setCompact nBits).fNegative = false ∧ (setCompact nBits).fOverflow = false ∧
    (setCompact nBits).value.toNat ≤ P.powLimit.toNat ∧
    (8 ≤ (setCompact last.nBits).value.toNat → 0 < (setCompact nBits).value.toNat) := by
  obtain ⟨hn, ho, hp, hc⟩ := deriveTarget_isSome target
  have least := hr.timespan
  have quarter : P.nPowTargetTimespan.tdiv 4 = P.nPowTargetTimespan / 4 :=
    Int.tdiv_eq_ediv_of_nonneg (by omega)
  have between : ∀ timespan : Int, P.nPowTargetTimespan / 4 ≤ timespan →
    timespan ≤ P.nPowTargetTimespan * 4 →
    roundDown (scaledTarget P last.nBits (P.nPowTargetTimespan.tdiv 4)).toNat
        ≤ roundDown (scaledTarget P last.nBits timespan).toNat ∧
      roundDown (scaledTarget P last.nBits timespan).toNat
        ≤ roundDown (scaledTarget P last.nBits (P.nPowTargetTimespan * 4)).toNat := by
    intro timespan shortest longest
    rw [quarter]
    constructor
    · exact roundDown_mono (scaledTarget_mono hr hc (by omega) shortest longest)
    · exact roundDown_mono (scaledTarget_mono hr hc (by omega) longest (by omega))
  rcases calculateNextWorkRequired_eq chain last nFirstBlockTime hr hbi with
    kept | ⟨timespan, shortest, longest, asked⟩
  · rw [kept]
    obtain ⟨ha, below⟩ := between P.nPowTargetTimespan (by omega) (by omega)
    rw [scaledTarget_timespan hr hc, setCompact_rounded ho] at ha below
    exact ⟨permitted_of_between ha below hb, hn, ho, hc, fun _ => hp⟩
  rw [asked]
  obtain ⟨ha, below⟩ := between timespan shortest longest
  obtain ⟨value, newNotNegative, newNoOverflow⟩ :=
    setCompact_getCompact (scaledTarget P last.nBits timespan)
  rw [← value] at ha below
  refine ⟨permitted_of_between ha below hb, newNotNegative, newNoOverflow, ?_, ?_⟩
  · rw [value]
    exact le_trans (roundDown_le _) (scaledTarget_le_limit timespan)
  · intro large
    rw [value]
    exact roundDown_pos (scaledTarget_pos hr hc large shortest longest)

/-- The next block has the last one's bits, or ends a period whose first block is found. -/
lemma getNextWorkRequired_cases {chain : List ChainEntry} (nBlockTime : Int) (hr : Retargets P)
  (hm : P.fPowAllowMinDifficultyBlocks = false) (hl : chain.getLast? = some last) :
  ((chain.length : Int).tmod P.difficultyAdjustmentInterval ≠ 0 ∧
      getNextWorkRequired P chain nBlockTime = .ok last.nBits) ∨
    ((chain.length : Int).tmod P.difficultyAdjustmentInterval = 0 ∧
      ∃ first ∈ chain, getNextWorkRequired P chain nBlockTime
        = .ok (calculateNextWorkRequired P chain last (getBlockTime first))) := by
  by_cases hb : (chain.length : Int).tmod P.difficultyAdjustmentInterval = 0
  · right
    have nonempty : 0 < chain.length := by
      cases chain with
      | nil => simp at hl
      | cons e rest => simp
    have interval : 0 < P.difficultyAdjustmentInterval := by
      obtain ⟨k, multiple⟩ := hr.multiple
      have span := hr.timespan
      have spacing := hr.spacing
      have quotient : P.difficultyAdjustmentInterval = k := by
        rw [Params.difficultyAdjustmentInterval, multiple, Int.mul_tdiv_cancel_left _ (by omega)]
      rw [quotient]
      refine lt_of_not_ge fun nonpos => ?_
      have := mul_nonpos_of_nonneg_of_nonpos (le_of_lt spacing) nonpos
      omega
    have fits := Int.le_of_dvd (by omega) (Int.dvd_of_tmod_eq_zero hb)
    have inChain : (nHeightFirst P chain).toNat < chain.length := by
      unfold nHeightFirst
      omega
    have first := List.getElem?_eq_getElem inChain
    refine ⟨hb, chain[(nHeightFirst P chain).toNat], List.getElem_mem _, ?_⟩
    have start : ¬ nHeightFirst P chain < 0 := by
      unfold nHeightFirst
      omega
    simp [getNextWorkRequired, hl, hb, start, first]
  · left
    refine ⟨hb, ?_⟩
    simp [getNextWorkRequired, hl, hb, hm]

end

/-- On every chain whose targets pass `DeriveTarget`, the bits that `GetNextWorkRequired` asks for
are accepted by `PermittedDifficultyTransition`, whatever the timestamps, and decode without a
flag to a target within the limit; it is not zero if the last target is at least 8. -/
theorem difficulty_rules_agree (params : Params) (chain : List ChainEntry) (nBlockTime : Int)
  (noMin : params.fPowAllowMinDifficultyBlocks = false) (noBip94 : params.enforceBIP94 = false)
  (spacing : 0 < params.nPowTargetSpacing)
  (multiple : params.nPowTargetSpacing ∣ params.nPowTargetTimespan)
  (timespan : 4 ≤ params.nPowTargetTimespan) (fits : 4 * params.nPowTargetTimespan < 2 ^ 32)
  (product : params.powLimit.toNat * (4 * params.nPowTargetTimespan) < 2 ^ 256)
  (nonempty : chain ≠ []) (targets : ∀ e ∈ chain, (deriveTarget e.nBits params.powLimit).isSome) :
  ∃ last nBits, chain.getLast? = some last ∧
    getNextWorkRequired params chain nBlockTime = .ok nBits ∧
    permittedDifficultyTransition params chain.length last.nBits nBits = true ∧
    (setCompact nBits).fNegative = false ∧ (setCompact nBits).fOverflow = false ∧
    (setCompact nBits).value ≤ params.powLimit ∧
    (8 ≤ (setCompact last.nBits).value.toNat → (setCompact nBits).value ≠ 0) := by
  have retargets : Retargets params := ⟨spacing, multiple, timespan, fits, product⟩
  have isLast := List.getLast?_eq_some_getLast nonempty
  have target := targets _ (List.getLast_mem nonempty)
  generalize chain.getLast nonempty = last at isLast target
  have nonzero : ∀ x : ArithUint256, 0 < x.toNat → x ≠ 0 := by
    rintro x hp rfl
    exact absurd hp (by decide)
  rcases getNextWorkRequired_cases nBlockTime retargets noMin isLast with
    ⟨inside, asked⟩ | ⟨boundary, first, -, asked⟩
  · obtain ⟨hn, ho, hp, hc⟩ := deriveTarget_isSome target
    have permitted : permittedDifficultyTransition params chain.length last.nBits last.nBits
      = true := by
      simp [permittedDifficultyTransition, noMin, inside]
    exact ⟨last, last.nBits, isLast, asked, permitted, hn, ho, hc, fun _ => nonzero _ hp⟩
  · obtain ⟨permitted, hn, ho, hc, hp⟩ :=
      retarget_permitted chain (getBlockTime first) retargets noBip94 target boundary
    exact ⟨last, _, isLast, asked, permitted, hn, ho, hc, fun large => nonzero _ (hp large)⟩

/-- One period of two blocks, which took twenty seconds where it should have taken eight. -/
theorem difficulty_rules_agree_slow_period :
  ∃ last nBits, [(⟨0, 0x1d00ffff⟩ : ChainEntry), ⟨20, 0x1d00ffff⟩].getLast? = some last ∧
    getNextWorkRequired ⟨0xffff#256 <<< 216, false, false, false, 4, 8⟩
      [⟨0, 0x1d00ffff⟩, ⟨20, 0x1d00ffff⟩] 24 = .ok nBits ∧
    permittedDifficultyTransition ⟨0xffff#256 <<< 216, false, false, false, 4, 8⟩ 2 last.nBits nBits
      = true ∧ (setCompact nBits).fNegative = false ∧ (setCompact nBits).fOverflow = false ∧
    (setCompact nBits).value ≤ 0xffff#256 <<< 216 ∧
    (8 ≤ (setCompact last.nBits).value.toNat → (setCompact nBits).value ≠ 0) :=
  difficulty_rules_agree ⟨0xffff#256 <<< 216, false, false, false, 4, 8⟩
    [⟨0, 0x1d00ffff⟩, ⟨20, 0x1d00ffff⟩] 24 rfl rfl (by decide) (by decide) (by decide) (by decide)
    (by decide) (by simp) (by decide)

end Difficulty
