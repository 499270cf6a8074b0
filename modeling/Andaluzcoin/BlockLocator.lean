import Andaluzcoin.LockPoints

/-!
# Block locators

`LocatorEntries` names blocks of a chain in steps that double, and `FindForkInGlobalIndex` looks
for the first of them in another chain.
-/

namespace BlockLocator

open ParentTree ChainIndex MempoolLocks List

section
variable {B H : Type*} (chain : BlockChain B) (getBlockHash : B → H)

/-- The loop of `LocatorEntries`. Once `step` no longer fits an `int` it is not used again. -/
def locatorLoop : ℕ → Option B → ℕ → List H → Option (List H)
  | 0, _, _, _ => none
  | _ + 1, none, _, entries => some entries
  | fuel + 1, some index, step, entries =>
    let entries := entries ++ [getBlockHash index]
    if chain.nHeight index = 0 then some entries
    else
      let height := max ((chain.nHeight index : ℤ) - step) 0
      locatorLoop fuel (chain.getAncestor index height)
        (if entries.length > 10 then step * 2 else step) entries

/-- There is a round for each height. -/
def locatorEntries (index : B) : Option (List H) :=
  locatorLoop chain getBlockHash (chain.nHeight index + 1) index 1 []

variable [DecidableEq B] (lookupBlockIndex : H → Option B) (tip : B)

def findForkInGlobalIndex : List H → Option B
  | [] => chain.getAncestor tip 0
  | hash :: vHave =>
    match lookupBlockIndex hash with
    | some pindex =>
      if contains chain tip pindex then some pindex
      else if chain.getAncestor pindex (chain.nHeight tip) = some tip then some tip
      else findForkInGlobalIndex vHave
    | none => findForkInGlobalIndex vHave

end

/-- How far below the first entry each one would be on a chain without end. -/
def back : ℕ → ℕ
  | 0 => 0
  | i + 1 => back i + 2 ^ (i - 10)

lemma back_consecutive {i : ℕ} (le : i ≤ 11) : back i = i := by
  induction i with
  | zero => rfl
  | succ i ih =>
    have first : i - 10 = 0 := by omega
    rw [back, ih (by omega), first, pow_zero]

lemma back_strictMono : StrictMono back :=
  strictMono_nat_of_lt_succ fun i => Nat.lt_add_of_pos_right (Nat.two_pow_pos (i - 10))

/-- No step is longer than the way up to it. -/
lemma step_le_back (i : ℕ) : 2 ^ (i - 10) ≤ back i + 1 := by
  induction i with
  | zero => exact le_rfl
  | succ i ih =>
    rw [back]
    rcases Nat.lt_or_ge i 10 with short | long
    · have first : i + 1 - 10 = 0 := by omega
      rw [first]
      exact Nat.le_add_left 1 _
    · have next : i + 1 - 10 = i - 10 + 1 := by omega
      rw [next, pow_succ]
      omega

section
variable {B H : Type*} {chain : BlockChain B} {b : B} {entry : ℕ → B} {k : ℕ} {getBlockHash : B → H}

/-- The blocks that a locator names, the last one with number `k`. -/
structure IsLocator (chain : BlockChain B) (b : B) (entry : ℕ → B) (k : ℕ) : Prop where
  above : ∀ i, Ancestor chain.pprev (entry i) b
  height : ∀ i, chain.nHeight (entry i) = chain.nHeight b - back i
  last : chain.nHeight b ≤ back k
  before : ∀ i < k, back i < chain.nHeight b

variable (chain b) in
lemma exists_isLocator : ∃ entry k, IsLocator chain b entry k := by
  have entries (i : ℕ) : ∃ a, Ancestor chain.pprev a b ∧ chain.nHeight a = chain.nHeight b - back i := by
    obtain ⟨a, -, above, height⟩ :=
      chain.exists_getAncestor b (Int.natCast_nonneg (chain.nHeight b - back i)) (by omega)
    exact ⟨a, above, Int.ofNat.inj height⟩
  choose entry above height using entries
  have ends : ∃ k, chain.nHeight b ≤ back k := ⟨_, back_strictMono.le_apply⟩
  exact ⟨entry, Nat.find ends, above, height, Nat.find_spec ends,
    fun i lt => not_le.mp (Nat.find_min ends lt)⟩

section
variable (h : IsLocator chain b entry k)
include h

/-- The loop goes on from any of the entries. -/
lemma IsLocator.loop {fuel i : ℕ} (le : i ≤ k) (enough : chain.nHeight (entry i) < fuel) :
  locatorLoop chain getBlockHash fuel (entry i) (2 ^ (i - 10))
      ((range i).map fun j => getBlockHash (entry j))
    = some ((range (k + 1)).map fun j => getBlockHash (entry j)) := by
  induction fuel generalizing i with
  | zero => omega
  | succ fuel ih =>
    have height := h.height i
    have grown : ((range i).map fun j => getBlockHash (entry j)) ++ [getBlockHash (entry i)]
      = (range (i + 1)).map fun j => getBlockHash (entry j) := by
      rw [range_succ, map_append, map_singleton]
    simp only [locatorLoop, grown, length_map, length_range]
    by_cases first : chain.nHeight (entry i) = 0
    · obtain rfl : i = k := by
        by_contra ne
        have := h.before i (by omega)
        omega
      rw [if_pos first]
    have later : i < k := by
      by_contra! ge
      obtain rfl : i = k := by omega
      have := h.last
      omega
    have pos := Nat.two_pow_pos (i - 10)
    obtain ⟨a, found, above, height'⟩ := chain.exists_getAncestor (entry i)
      (le_max_right ((chain.nHeight (entry i) : ℤ) - (2 ^ (i - 10) : ℕ)) 0) (by omega)
    have lower : chain.nHeight (entry (i + 1)) = chain.nHeight a := by
      rw [h.height, back]
      omega
    obtain rfl := (h.above (i + 1)).eq_of_height chain.graded (above.trans (h.above i)) lower
    have next : (if i + 1 > 10 then 2 ^ (i - 10) * 2 else 2 ^ (i - 10)) = 2 ^ (i + 1 - 10) := by
      split_ifs with long
      · rw [← pow_succ]
        congr 1
        omega
      · congr 1
        omega
    rw [if_neg first, found, next]
    exact ih later (by omega)

lemma IsLocator.falling {i j : ℕ} (lt : i < j) (le : j ≤ k) :
  chain.nHeight (entry j) < chain.nHeight (entry i) := by
  have further := back_strictMono lt
  have inside := h.before i (by omega)
  rw [h.height, h.height]
  omega

lemma IsLocator.length_le : k + 1 ≤ 11 + Nat.clog 2 (chain.nHeight b + 1) + 1 := by
  rcases eq_zero_or_pos k with first | pos
  · omega
  have reach := Nat.le_pow_clog (b := 2) (by decide) (chain.nHeight b + 1)
  have step := step_le_back (k - 1)
  have inside := h.before (k - 1) (by omega)
  have lt := (Nat.pow_lt_pow_iff_right (a := 2) (by decide)).mp
    (show 2 ^ (k - 1 - 10) < 2 ^ Nat.clog 2 (chain.nHeight b + 1) by omega)
  omega

end

/-- The ancestors of the fork are those that the block and the tip have in common. -/
def IsFork (chain : BlockChain B) (tip b fork : B) : Prop :=
  ∀ g, Ancestor chain.pprev g fork ↔ Ancestor chain.pprev g b ∧ Ancestor chain.pprev g tip

variable [DecidableEq B] {lookupBlockIndex : H → Option B} {tip fork : B}

/-- Where no entry descends from the tip, the first one on the chain is found. -/
lemma findForkInGlobalIndex_eq {blocks : List B} {found : B}
  (known : ∀ a ∈ blocks, lookupBlockIndex (getBlockHash a) = some a)
  (apart : ∀ a ∈ blocks, ¬ Ancestor chain.pprev tip a)
  (first : blocks.find? (contains chain tip) = some found) :
  findForkInGlobalIndex chain lookupBlockIndex tip (blocks.map getBlockHash) = some found := by
  induction blocks with
  | nil => cases first
  | cons a blocks ih =>
    obtain ⟨knownA, known⟩ := forall_mem_cons.mp known
    obtain ⟨apartA, apart⟩ := forall_mem_cons.mp apart
    simp only [map_cons, findForkInGlobalIndex, knownA]
    by_cases on : contains chain tip a = true
    · rw [if_pos on]
      rwa [find?_cons_of_pos on] at first
    have off : ¬ chain.getAncestor a (chain.nHeight tip) = some tip :=
      fun eq => apartA (contains_iff.mp (beq_iff_eq.mpr eq))
    rw [find?_cons_of_neg on] at first
    rw [if_neg on, if_neg off]
    exact ih known apart first

/-- The block that is found is no further above the fork than the fork is above the start. -/
lemma IsLocator.find (h : IsLocator chain b entry k)
  (known : ∀ i ≤ k, lookupBlockIndex (getBlockHash (entry i)) = some (entry i))
  (isFork : IsFork chain tip b fork) (apart : ¬ Ancestor chain.pprev tip b) :
  ∃ found, findForkInGlobalIndex chain lookupBlockIndex tip
      ((range (k + 1)).map fun i => getBlockHash (entry i)) = some found ∧
    Ancestor chain.pprev found fork ∧
    chain.nHeight fork - chain.nHeight found ≤ chain.nHeight b - chain.nHeight fork ∧
    (chain.nHeight b - chain.nHeight fork ≤ 11 → found = fork) := by
  have forkB := ((isFork fork).mp (.refl fork)).1
  have on (i : ℕ) : contains chain tip (entry i) = true ↔
    chain.nHeight (entry i) ≤ chain.nHeight fork := by
    rw [MempoolLocks.contains_iff]
    constructor
    · intro above
      exact ((isFork _).mpr ⟨h.above i, above⟩).height_le chain.graded
    · intro le
      exact ((isFork _).mp ((h.above i).of_height_le chain.graded forkB le)).2
  have last : chain.nHeight (entry k) ≤ chain.nHeight fork := by
    have := h.last
    rw [h.height]
    omega
  obtain ⟨n, le, first⟩ :=
    Nat.findX (p := fun n => chain.nHeight (entry n) ≤ chain.nHeight fork) ⟨k, last⟩
  have inside : n < k + 1 := by
    by_contra! beyond
    exact first k (by omega) last
  have found : ((range (k + 1)).map entry).find? (contains chain tip) = some (entry n) := by
    have smallest : (range (k + 1)).find? (contains chain tip ∘ entry) = some n := by
      refine find?_range_eq_some.mpr ⟨(on n).mpr le, mem_range.mpr inside, fun j lt => ?_⟩
      rw [Bool.not_eq_true', Function.comp_apply, ← Bool.not_eq_true, on]
      exact first j lt
    rw [find?_map, smallest, Option.map_some]
  have same := (h.above n).eq_of_height chain.graded forkB
  refine ⟨entry n, ?_, (h.above n).of_height_le chain.graded forkB le, ?_⟩
  · rw [← Function.comp_def, ← map_map]
    refine findForkInGlobalIndex_eq (forall_mem_map.mpr fun i mem => ?_)
      (forall_mem_map.mpr fun i mem above => apart (above.trans (h.above i))) found
    exact known i (Nat.le_of_lt_succ (mem_range.mp mem))
  have below := forkB.height_le chain.graded
  have height := h.height n
  cases n with
  | zero =>
    rw [back] at height
    exact ⟨by omega, fun _ => same (by omega)⟩
  | succ m =>
    have far := first m (Nat.lt_succ_self m)
    have step := step_le_back m
    rw [h.height m] at far
    rw [back] at height
    refine ⟨by omega, fun near => same ?_⟩
    have short : m ≤ back m := back_strictMono.le_apply
    have one : m - 10 = 0 := by omega
    rw [one] at height
    omega

end

/-- **Block locators.** The entries go down to the first block, close together at first, and the
block that is found is not much further up than the fork. -/
theorem locator_correct {B H : Type*} [DecidableEq B] (chain : BlockChain B) (tip b r : B)
  (rB : Ancestor chain.pprev r b) (rTip : Ancestor chain.pprev r tip) (getBlockHash : B → H)
  (lookupBlockIndex : H → Option B) : ∃ (entry : ℕ → B) (k : ℕ) (fork : B),
    locatorEntries chain getBlockHash b
      = some ((range (k + 1)).map fun i => getBlockHash (entry i)) ∧
    entry 0 = b ∧ chain.nHeight (entry k) = 0 ∧ (∀ i ≤ k, Ancestor chain.pprev (entry i) b) ∧
    (∀ i j, i < j → j ≤ k → chain.nHeight (entry j) < chain.nHeight (entry i)) ∧
    (∀ i ≤ k, i < 11 → chain.nHeight (entry i) + i = chain.nHeight b) ∧
    k + 1 ≤ 11 + Nat.clog 2 (chain.nHeight b + 1) + 1 ∧ IsFork chain tip b fork ∧
    ((∀ i ≤ k, lookupBlockIndex (getBlockHash (entry i)) = some (entry i)) →
      ∃ found, findForkInGlobalIndex chain lookupBlockIndex tip
          ((range (k + 1)).map fun i => getBlockHash (entry i)) = some found ∧
        Ancestor chain.pprev found fork ∧ (Ancestor chain.pprev tip b → found = tip) ∧
        (¬ Ancestor chain.pprev tip b →
          chain.nHeight fork - chain.nHeight found ≤ chain.nHeight b - chain.nHeight fork ∧
          (chain.nHeight b - chain.nHeight fork ≤ 11 → found = fork))) := by
  obtain ⟨entry, k, h⟩ := exists_isLocator chain b
  obtain ⟨fork, -, forkB, forkTip, deepest⟩ := lastCommonAncestor_spec chain.graded rB rTip
  have isFork : IsFork chain tip b fork := fun g =>
    ⟨fun above => ⟨above.trans forkB, above.trans forkTip⟩, fun both => deepest g both.1 both.2⟩
  have start : entry 0 = b := (h.above 0).eq_of_height chain.graded (.refl b) (h.height 0)
  refine ⟨entry, k, fork, ?_, start, ?_, fun i _ => h.above i, fun i j => h.falling, ?_,
    h.length_le, isFork, fun known => ?_⟩
  · rw [locatorEntries, ← start]
    exact h.loop (Nat.zero_le k) (Nat.lt_succ_self _)
  · have := h.last
    rw [h.height]
    omega
  · intro i le short
    rw [h.height, back_consecutive (by omega)]
    cases i with
    | zero => rfl
    | succ i =>
      have inside := h.before i (by omega)
      rw [back_consecutive (by omega)] at inside
      omega
  · by_cases down : Ancestor chain.pprev tip b
    · refine ⟨tip, ?_, (isFork tip).mpr ⟨down, .refl tip⟩, fun _ => rfl, absurd down⟩
      have first := known 0 (Nat.zero_le k)
      rw [start] at first
      simp only [range_succ_eq_map, map_cons, findForkInGlobalIndex, start, first]
      split_ifs with on off
      · have above := MempoolLocks.contains_iff.mp on
        have le := above.height_le chain.graded
        have ge := down.height_le chain.graded
        rw [above.eq_of_height chain.graded (.refl tip) (by omega)]
      · rfl
      · exact absurd (beq_iff_eq.mp (MempoolLocks.contains_iff.mpr down)) off
    · obtain ⟨found, run, above, near⟩ := h.find known isFork down
      exact ⟨found, run, above, (absurd · down), fun _ => near⟩

/-- A locator of the longer branch leads from the other one to the fork. -/
theorem locator_correct_forked : ∃ entries found, locatorEntries forked id 4 = some entries ∧
    findForkInGlobalIndex forked some 2 entries = some found ∧ IsFork forked 2 4 found := by
  obtain ⟨entry, k, fork, run, -, -, -, -, -, -, isFork, finds⟩ :=
    locator_correct forked 2 4 0 ⟨3, rfl⟩ ⟨2, rfl⟩ id some
  obtain ⟨found, search, -, -, near⟩ := finds fun _ _ => rfl
  have apart : ¬ Ancestor forked.pprev 2 4 := fun above =>
    absurd (contains_iff.mpr above) (by decide)
  have low : forked.nHeight 4 - forked.nHeight fork ≤ 11 := (Nat.sub_le _ _).trans (by decide)
  obtain rfl := (near apart).2 low
  exact ⟨_, found, run, search, isFork⟩

end BlockLocator
