import Andaluzcoin.ParentTree

/-!
# The block index as a tree

Blocks with their parents, heights and times: `GetAncestor` and `GetMedianTimePast`. A block that
is yet to come is given by its parent, and the first one by none.
-/

namespace ChainIndex

open ParentTree

/-- Blocks with their parents. -/
structure BlockChain (B : Type*) where
  pprev : B → Option B
  nHeight : B → ℕ
  nTime : B → ℤ
  graded : Graded pprev nHeight
  genesis : ∀ b, pprev b = none → nHeight b = 0

namespace BlockChain

section
variable {B : Type*} (chain : BlockChain B)

/-- A height below zero has no block. -/
def getAncestor (b : B) (height : ℤ) : Option B :=
  if height < 0 then none
  else ParentTree.getAncestor chain.pprev chain.nHeight b height.toNat

/-- The median of the times of the last eleven blocks. -/
def getMedianTimePast (b : B) : ℤ :=
  let times := ((trail chain.pprev 11 b).map chain.nTime).insertionSort (· ≤ ·)
  times.getD (times.length / 2) 0

/-- The height of a block, from its parent. -/
def heightAfter (pindexPrev : Option B) : ℕ :=
  pindexPrev.elim 0 fun b => chain.nHeight b + 1

/-- The median time past does not fall along the chain. -/
def TimeNondecreasing : Prop :=
  ∀ b parent, chain.pprev b = some parent →
    chain.getMedianTimePast parent ≤ chain.getMedianTimePast b

end

variable {B : Type*} {chain : BlockChain B} {p q q' : Option B}

/-- The first is the parent of a block on the chain up to the second. -/
def Before (chain : BlockChain B) (q p : Option B) : Prop :=
  ∀ a, q = some a → ∃ b, p = some b ∧ Ancestor chain.pprev a b

lemma before_refl (p : Option B) : chain.Before p p := fun a eq => ⟨a, eq, .refl a⟩

lemma before_none (p : Option B) : chain.Before none p := fun _ eq => by cases eq

lemma Before.trans (first : chain.Before q' q) (hs : chain.Before q p) : chain.Before q' p := by
  intro a eq
  obtain ⟨b, eqB, ha⟩ := first a eq
  obtain ⟨c, eqC, ha'⟩ := hs b eqB
  exact ⟨c, eqC, ha.trans ha'⟩

section
variable (before : chain.Before q p)
include before

lemma Before.heightAfter_le : chain.heightAfter q ≤ chain.heightAfter p := by
  cases q with
  | none => exact Nat.zero_le _
  | some a =>
    obtain ⟨b, rfl, ha⟩ := before a rfl
    exact Nat.succ_le_succ (ha.height_le chain.graded)

lemma Before.eq_of_heightAfter (hb' : chain.Before q' p)
  (hs : chain.heightAfter q = chain.heightAfter q') : q = q' := by
  cases q with
  | none =>
    cases q' with
    | none => rfl
    | some a' => cases hs
  | some a =>
    cases q' with
    | none => cases hs
    | some a' =>
      obtain ⟨b, rfl, ha⟩ := before a rfl
      obtain ⟨b', eq, ha'⟩ := hb' a' rfl
      obtain rfl := Option.some.inj eq
      rw [ha.eq_of_height chain.graded ha' (Nat.succ_injective hs)]

lemma Before.of_heightAfter_le
  (hb' : chain.Before q' p) (le : chain.heightAfter q ≤ chain.heightAfter q') :
  chain.Before q q' := by
  intro a eq
  subst eq
  cases q' with
  | none => exact absurd le (by simp [heightAfter])
  | some a' =>
    obtain ⟨b, rfl, ha⟩ := before a rfl
    obtain ⟨b', eq, ha'⟩ := hb' a' rfl
    obtain rfl := Option.some.inj eq
    exact ⟨a', rfl, ha.of_height_le chain.graded ha' (Nat.le_of_succ_le_succ le)⟩

end

lemma exists_up (chain : BlockChain B) (b : B) :
  ∀ {n}, n ≤ chain.nHeight b → ∃ a, up chain.pprev n b = some a := by
  intro n
  induction n generalizing b with
  | zero => exact fun _ => ⟨b, rfl⟩
  | succ n ih =>
    intro le
    cases edge : chain.pprev b with
    | none =>
      have := chain.genesis b edge
      omega
    | some parent =>
      have height := chain.graded b parent edge
      rw [up_succ_of_parent edge]
      exact ih parent (by omega)

lemma exists_getAncestor (chain : BlockChain B) (b : B) {height : ℤ} (low : 0 ≤ height)
  (hh : height ≤ chain.nHeight b) : ∃ a, chain.getAncestor b height = some a ∧
    Ancestor chain.pprev a b ∧ chain.nHeight a = height := by
  obtain ⟨n, rfl⟩ := Int.eq_ofNat_of_zero_le low
  obtain ⟨a, hs⟩ := chain.exists_up b (Nat.sub_le (chain.nHeight b) n)
  have grown := height_up chain.graded hs
  refine ⟨a, ?_, ⟨_, hs⟩, by omega⟩
  rw [getAncestor, if_neg (by omega), Int.toNat_natCast, ParentTree.getAncestor, if_pos (by omega),
    hs]

lemma getAncestor_spec (chain : BlockChain B) (b : B) {height : ℕ} (le : height ≤ chain.nHeight b + 1) :
  chain.Before (chain.getAncestor b (height - 1)) (some b) ∧
    chain.heightAfter (chain.getAncestor b (height - 1)) = height := by
  cases height with
  | zero => exact ⟨before_none _, rfl⟩
  | succ height =>
    obtain ⟨a, hf, ha, atHeight⟩ :=
      @exists_getAncestor _ chain b ((height + 1 : ℕ) - 1) (by omega) (by omega)
    rw [hf]
    refine ⟨fun a' eq => ⟨b, rfl, Option.some.inj eq ▸ ha⟩, ?_⟩
    change chain.nHeight a + 1 = height + 1
    omega

lemma medianTime_le (hn : chain.TimeNondecreasing) {a b : B} (ha : Ancestor chain.pprev a b) :
  chain.getMedianTimePast a ≤ chain.getMedianTimePast b := by
  obtain ⟨n, hs⟩ := ha
  induction n generalizing b with
  | zero =>
    cases hs
    exact le_refl _
  | succ n ih =>
    obtain ⟨parent, edge, rest⟩ := up_succ hs
    exact (ih rest).trans (hn b parent edge)

end BlockChain

/-- Two branches on the second block, one of them longer. -/
def forked : BlockChain (Fin 5) where
  pprev := ![none, some 0, some 1, some 1, some 3]
  nHeight := ![0, 1, 2, 2, 3]
  nTime _ := 0
  graded := by
    unfold Graded
    decide
  genesis := by decide

end ChainIndex
