import Mathlib

/-!
# Merkle roots

`ComputeMerkleRoot` hashes the list of a level pair by pair until one hash is left. The last hash
of an odd level is taken twice, so that different lists can have the same root. Where no two
hashes of a pair are equal at any level, the root determines the list, as long as no leaf is the
hash of a pair.
-/

namespace Merkle

open List

variable {α : Type*}

/-- The hashes of consecutive pairs. -/
def sha256D64 (hash : α → α → α) : List α → List α
  | a :: b :: rest => hash a b :: sha256D64 hash rest
  | _ => []

/-- An odd list with its last element once more. -/
def padded (hashes : List α) : List α :=
  if hashes.length % 2 = 1 then hashes ++ hashes.getLast?.toList else hashes

def nextLevel (hash : α → α → α) (hashes : List α) : List α := sha256D64 hash (padded hashes)

section
variable {hash : α → α → α} {l : List α}

@[simp]
lemma nextLevel_nil : nextLevel hash [] = [] := rfl

@[simp]
lemma nextLevel_single (a : α) : nextLevel hash [a] = [hash a a] := rfl

@[simp]
lemma nextLevel_cons_cons (a b : α) (rest : List α) :
  nextLevel hash (a :: b :: rest) = hash a b :: nextLevel hash rest := by
  have pads : padded (a :: b :: rest) = a :: b :: padded rest := by
    cases rest with
    | nil => simp [padded]
    | cons c rest =>
      simp only [padded, length_cons, getLast?_cons_cons]
      split_ifs with odd odd' odd'
      · rfl
      · omega
      · omega
      · rfl
  rw [nextLevel, pads, sha256D64, nextLevel]

lemma length_nextLevel : ∀ l : List α, (nextLevel hash l).length = (l.length + 1) / 2
  | [] => by rw [nextLevel_nil, length_nil]
  | [a] => by rw [nextLevel_single, length_singleton, length_singleton]
  | a :: b :: rest => by
    rw [nextLevel_cons_cons, length_cons, length_nextLevel rest, length_cons, length_cons]
    omega

lemma exists_of_mem_nextLevel : ∀ {l : List α} {x : α}, x ∈ nextLevel hash l → ∃ a b, x = hash a b
  | [a], x, mem => ⟨a, a, by simpa using mem⟩
  | a :: b :: rest, x, mem => by
    rw [nextLevel_cons_cons, mem_cons] at mem
    rcases mem with rfl | later
    · exact ⟨a, b, rfl⟩
    · exact exists_of_mem_nextLevel later

/-- The list at a height of the tree. -/
def level (hash : α → α → α) (leaves : List α) (height : ℕ) : List α :=
  (nextLevel hash)^[height] leaves

@[simp]
lemma level_zero (l : List α) : level hash l 0 = l := rfl

lemma level_succ (l : List α) (height : ℕ) :
  level hash l (height + 1) = nextLevel hash (level hash l height) :=
  Function.iterate_succ_apply' ..

lemma level_nextLevel (l : List α) (height : ℕ) :
  level hash (nextLevel hash l) height = level hash l (height + 1) := rfl

lemma length_level_short {height : ℕ} (hs : (level hash l height).length ≤ 1)
  (more : ℕ) : (level hash l (height + more)).length ≤ 1 := by
  induction more with
  | zero => exact hs
  | succ more ih =>
    rw [← add_assoc, level_succ, length_nextLevel]
    omega

lemma level_ne_nil (nonempty : l ≠ []) (height : ℕ) : level hash l height ≠ [] := by
  induction height with
  | zero => exact nonempty
  | succ height ih =>
    have pos := length_pos_iff.mpr ih
    rw [level_succ, ← length_pos_iff, length_nextLevel]
    omega

end

variable [DecidableEq α]

/-- Two identical hashes would be hashed together. -/
def samePair : List α → Bool
  | a :: b :: rest => a == b || samePair rest
  | _ => false

def computeLoop (hash : α → α → α) (hashes : List α) (mutation : Bool) : List α × Bool :=
  if 1 < hashes.length then
    computeLoop hash (nextLevel hash hashes) (mutation || samePair hashes)
  else (hashes, mutation)
termination_by hashes.length
decreasing_by
  rw [length_nextLevel]
  omega

/-- The root of a list of hashes, and whether it is mutated. -/
def computeMerkleRoot (hash : α → α → α) (null : α) (hashes : List α) : α × Bool :=
  let (hashes, mutation) := computeLoop hash hashes false
  (hashes.headD null, mutation)

variable {hash : α → α → α} {null : α} {l m : List α} {height : ℕ}

lemma samePair_short (hs : l.length ≤ 1) : samePair l = false := by
  match l, hs with
  | [], _ => rfl
  | [_], _ => rfl

/-- The loop climbs to the first level of one hash, and tells whether a pair of equal hashes was
met below. -/
lemma computeLoop_spec (hash : α → α → α) (l : List α) (mutation : Bool) : ∃ height,
  (computeLoop hash l mutation).1 = level hash l height ∧ (level hash l height).length ≤ 1 ∧
    (∀ lower < height, 1 < (level hash l lower).length) ∧ ((computeLoop hash l mutation).2 = false ↔
      mutation = false ∧ ∀ lower < height, samePair (level hash l lower) = false) := by
  induction hn : l.length using Nat.strong_induction_on generalizing l mutation with
  | _ n ih =>
    rw [computeLoop]
    split_ifs with more
    · have shorter : (nextLevel hash l).length < n := by
        rw [length_nextLevel]
        omega
      obtain ⟨height, last, short, long, flag⟩ :=
        ih _ shorter (nextLevel hash l) (mutation || samePair l) rfl
      simp only [level_nextLevel] at last short long flag
      refine ⟨height + 1, last, short, ?_, ?_⟩
      · intro lower below
        cases lower with
        | zero => exact more
        | succ lower => exact long lower (by omega)
      rw [flag, Bool.or_eq_false_iff, and_assoc]
      refine and_congr_right fun _ => ?_
      constructor
      · rintro ⟨first, rest⟩ lower below
        cases lower with
        | zero => exact first
        | succ lower => exact rest lower (by omega)
      · intro all
        exact ⟨all 0 (by omega), fun lower below => all (lower + 1) (by omega)⟩
    · refine ⟨0, rfl, not_lt.mp more, by simp, by simp⟩

/-- A root without mutation: the hash at the top, and no pair of equal hashes at any level. -/
lemma computeMerkleRoot_spec (hash : α → α → α) (null : α) (nonempty : l ≠ []) : ∃ height,
  level hash l height = [(computeMerkleRoot hash null l).1] ∧
    (∀ lower < height, 1 < (level hash l lower).length) ∧
    ((computeMerkleRoot hash null l).2 = false ↔
      ∀ lower, samePair (level hash l lower) = false) := by
  obtain ⟨height, last, short, long, flag⟩ := computeLoop_spec hash l false
  refine ⟨height, ?_, long, ?_⟩
  · obtain ⟨top, rest, eq⟩ := exists_cons_of_ne_nil (level_ne_nil nonempty height)
    rw [eq, length_cons] at short
    have empty : rest = [] := length_eq_zero_iff.mp (by omega)
    change level hash l height = [(computeLoop hash l false).1.headD null]
    rw [last, eq, empty]
    rfl
  change (computeLoop hash l false).2 = false ↔ _
  rw [flag, and_iff_right rfl]
  refine ⟨fun below lower => ?_, fun all lower _ => all lower⟩
  rcases lt_or_ge lower height with low | hh
  · exact below lower low
  · obtain ⟨more, rfl⟩ := Nat.exists_eq_add_of_le hh
    exact samePair_short (length_level_short short more)

/-- Where no pair is made of equal hashes, the next level determines a level. -/
lemma nextLevel_injective (hi : ∀ a b c d, hash a b = hash c d → a = c ∧ b = d) :
  ∀ {l m : List α}, samePair l = false → samePair m = false →
    nextLevel hash l = nextLevel hash m → l = m
  | [], [], _, _, _ => rfl
  | [], [_], _, _, same => by simp at same
  | [], _ :: _ :: _, _, _, same => by simp at same
  | [_], [], _, _, same => by simp at same
  | [a], [c], _, _, same => by
    obtain ⟨rfl, -⟩ := hi a a c c (by simpa using same)
    rfl
  | [a], c :: d :: m, _, hu, same => by
    rw [nextLevel_single, nextLevel_cons_cons, cons_eq_cons] at same
    obtain ⟨rfl, rfl⟩ := hi a a c d same.1
    simp [samePair] at hu
  | _ :: _ :: _, [], _, _, same => by simp at same
  | a :: b :: l, [c], hu, _, same => by
    rw [nextLevel_single, nextLevel_cons_cons, cons_eq_cons] at same
    obtain ⟨rfl, rfl⟩ := hi a b c c same.1
    simp [samePair] at hu
  | a :: b :: l, c :: d :: m, hu, hu', same => by
    rw [samePair, Bool.or_eq_false_iff] at hu hu'
    rw [nextLevel_cons_cons, nextLevel_cons_cons, cons_eq_cons] at same
    obtain ⟨rfl, rfl⟩ := hi a b c d same.1
    rw [nextLevel_injective hi hu.2 hu'.2 same.2]

/-- Going down from a common level, the levels of two trees are the same. -/
lemma level_descend (hi : ∀ a b c d, hash a b = hash c d → a = c ∧ b = d)
  (hu : ∀ height, samePair (level hash l height) = false)
  (hu' : ∀ height, samePair (level hash m height) = false) {height' : ℕ}
  (hs : level hash l height = level hash m height') (down : ℕ) (le : down ≤ height)
  (le' : down ≤ height') : level hash l (height - down) = level hash m (height' - down) := by
  induction down with
  | zero => exact hs
  | succ down ih =>
    refine nextLevel_injective hi (hu _) (hu' _) ?_
    have above := ih (by omega) (by omega)
    rw [← level_succ, ← level_succ]
    rwa [show height - (down + 1) + 1 = height - down by omega,
      show height' - (down + 1) + 1 = height' - down by omega]

omit [DecidableEq α] in
/-- A list of leaves is no upper level of another tree. -/
lemma eq_of_eq_level (nonempty : l ≠ []) (hl : ∀ x ∈ l, ∀ a b, x ≠ hash a b)
  (hs : l = level hash m height) : l = m := by
  cases height with
  | zero => exact hs
  | succ height =>
    obtain ⟨x, mem⟩ := exists_mem_of_ne_nil l nonempty
    have upper := mem
    rw [hs, level_succ] at upper
    obtain ⟨a, b, eq⟩ := exists_of_mem_nextLevel upper
    exact absurd eq (hl x mem a b)

/-- Lists with the same root, of which neither is reported as mutated, are equal. -/
theorem computeMerkleRoot_injective (injective : ∀ a b c d, hash a b = hash c d → a = c ∧ b = d)
  {l m : List α} (nonempty : l ≠ []) (nonempty' : m ≠ []) (leaves : ∀ x ∈ l, ∀ a b, x ≠ hash a b)
  (leaves' : ∀ x ∈ m, ∀ a b, x ≠ hash a b)
  (same : (computeMerkleRoot hash null l).1 = (computeMerkleRoot hash null m).1)
  (unmutated : (computeMerkleRoot hash null l).2 = false)
  (unmutated' : (computeMerkleRoot hash null m).2 = false) : l = m := by
  obtain ⟨height, top, -, flag⟩ := computeMerkleRoot_spec hash null nonempty
  obtain ⟨height', top', -, flag'⟩ := computeMerkleRoot_spec hash null nonempty'
  have tops : level hash l height = level hash m height' := by rw [top, top', same]
  have down := level_descend injective (flag.mp unmutated) (flag'.mp unmutated') tops
  rcases le_total height height' with lower | hh
  · have bottom := down height (le_refl _) lower
    rw [Nat.sub_self] at bottom
    exact eq_of_eq_level nonempty leaves bottom
  · have bottom := down height' hh (le_refl _)
    rw [Nat.sub_self] at bottom
    exact (eq_of_eq_level nonempty' leaves' bottom.symm).symm

/-- An injective pair hash, whose values are odd. -/
def oddPair (a b : ℕ) : ℕ := 2 * Nat.pair a b + 1

lemma oddPair_injective (a b c d : ℕ) (hs : oddPair a b = oddPair c d) : a = c ∧ b = d := by
  rw [oddPair, oddPair] at hs
  exact Nat.pair_eq_pair.mp (by omega)

theorem computeMerkleRoot_injective_odd_pair : (computeMerkleRoot oddPair 0 [2, 4, 6]).2 = false ∧
    ∀ m, m ≠ [] → (∀ x ∈ m, ∀ a b, x ≠ oddPair a b) →
      (computeMerkleRoot oddPair 0 [2, 4, 6]).1 = (computeMerkleRoot oddPair 0 m).1 →
      (computeMerkleRoot oddPair 0 m).2 = false → [2, 4, 6] = m := by
  have unmutated : (computeMerkleRoot oddPair 0 [2, 4, 6]).2 = false := by
    simp [computeMerkleRoot, computeLoop, samePair, oddPair]
  refine ⟨unmutated, fun m nonempty leaves hs hu' => ?_⟩
  refine computeMerkleRoot_injective oddPair_injective (by simp) nonempty ?_ leaves hs unmutated hu'
  intro x mem a b eq
  rw [oddPair] at eq
  simp only [mem_cons, not_mem_nil, or_false] at mem
  omega

end Merkle
