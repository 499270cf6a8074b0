import Andaluzcoin.ChainIndex

/-!
# The skip list of the block index

Each entry also points to an ancestor far above it. `GetAncestor` and `LastCommonAncestor` jump
along these pointers, and find what following `pprev` finds.
-/

namespace SkipList

open ParentTree ChainIndex BlockChain
open Option (bind_some)

/-- Turn the lowest '1' bit in the binary representation of a number into a '0'. -/
def invertLowestOne (n : ℕ) : ℕ := n &&& (n - 1)

/-- The height to jump back to. -/
def getSkipHeight (height : ℕ) : ℕ :=
  if height < 2 then 0
  else if height &&& 1 ≠ 0 then invertLowestOne (invertLowestOne (height - 1)) + 1
  else invertLowestOne height

lemma invertLowestOne_lt {n : ℕ} (pos : 0 < n) : invertLowestOne n < n :=
  Nat.and_le_right.trans_lt (by omega)

lemma getSkipHeight_lt {height : ℕ} (pos : 0 < height) : getSkipHeight height < height := by
  rw [getSkipHeight]
  split_ifs with hs odd
  · exact pos
  · have first := @invertLowestOne_lt (height - 1) (by omega)
    have second : invertLowestOne (invertLowestOne (height - 1)) ≤ invertLowestOne (height - 1) :=
      Nat.and_le_left
    omega
  · exact invertLowestOne_lt pos

section
variable {B : Type*} (chain : BlockChain B) (pskip : B → Option B)

/-- The loop of `GetAncestor`. A `pprev` that is null ends the program. -/
def ancestorWalk (height : ℕ) (pindexWalk : B) (heightWalk : ℕ) : Option B :=
  if _ahead : height < heightWalk then
    let heightSkip := getSkipHeight heightWalk
    let heightSkipPrev := getSkipHeight (heightWalk - 1)
    -- only follow `pskip` if the `pskip` of `pprev` is not better than the `pprev` of `pskip`
    match if heightSkip = height ∨ (heightSkip > height ∧
        ¬ (heightSkipPrev + 2 < heightSkip ∧ heightSkipPrev ≥ height)) then pskip pindexWalk
      else none with
    | some skip => ancestorWalk height skip heightSkip
    | none => (chain.pprev pindexWalk).bind fun prev => ancestorWalk height prev (heightWalk - 1)
  else some pindexWalk
termination_by heightWalk
decreasing_by
  · exact getSkipHeight_lt (by omega)
  · omega

def getAncestor (b : B) (height : ℤ) : Option (Option B) :=
  if height > chain.nHeight b ∨ height < 0 then some none
  else (ancestorWalk chain pskip height.toNat b (chain.nHeight b)).map some

/-- What `pskip` is set to. It stays null in the first block. -/
def buildSkip (b : B) : Option (Option B) :=
  match chain.pprev b with
  | some prev => getAncestor chain pskip prev (getSkipHeight (chain.nHeight b))
  | none => some none

end

/-- Blocks that were added parents first, each with its `BuildSkip`. -/
structure SkipChain (B : Type*) extends BlockChain B where
  pskip : B → Option B
  built : ∀ b, buildSkip toBlockChain pskip b = some (pskip b)

section
variable {B : Type*} [DecidableEq B] (chain : SkipChain B)

/-- Jump back until both have the same `pskip`. A null pointer that is followed ends the program. -/
def jumpBack : ℕ → B → B → Option (B × B)
  | 0, _, _ => none
  | fuel + 1, pa, pb =>
    if chain.pskip pa ≠ chain.pskip pb then
      (chain.pskip pa).bind fun pa => (chain.pskip pb).bind fun pb => jumpBack fuel pa pb
    else some (pa, pb)

def commonLoop : ℕ → Option B → Option B → Option (Option B)
  | 0, _, _ => none
  | fuel + 1, pa, pb =>
    if pa = pb then some pa
    else do
      let (pa, pb) ← jumpBack chain (fuel + 1) (← pa) (← pb)
      commonLoop fuel (chain.pprev pa) (chain.pprev pb)

/-- The loops get a round more than there are heights. -/
def lastCommonAncestor (pa pb : B) : Option (Option B) :=
  let fuel := min (chain.nHeight pa) (chain.nHeight pb) + 1
  if chain.nHeight pa > chain.nHeight pb then do
    commonLoop chain fuel (← getAncestor chain.toBlockChain chain.pskip pa (chain.nHeight pb)) pb
  else if chain.nHeight pb > chain.nHeight pa then do
    commonLoop chain fuel pa (← getAncestor chain.toBlockChain chain.pskip pb (chain.nHeight pa))
  else commonLoop chain fuel pa pb

end

section
variable {B : Type*} (chain : SkipChain B) {b p : B}

variable {chain} in
/-- The skip pointer leads to its height if the walk from the parent does. -/
lemma pskip_of_walk (edge : chain.pprev b = some p) (walk : ∀ height ≤ chain.nHeight p,
    ancestorWalk chain.toBlockChain chain.pskip height p (chain.nHeight p)
      = up chain.pprev (chain.nHeight p - height) p) :
  chain.pskip b = up chain.pprev (chain.nHeight b - getSkipHeight (chain.nHeight b)) b := by
  have grown := chain.graded b p edge
  have lower := @getSkipHeight_lt (chain.nHeight b) (by omega)
  have built := chain.built b
  simp only [buildSkip, edge] at built
  rw [getAncestor, if_neg (by omega), Int.toNat_natCast, walk _ (by omega)] at built
  obtain ⟨a, hs, eq⟩ := Option.map_eq_some_iff.mp built
  rw [← eq, ← hs, ← up_succ_of_parent edge]
  congr 1
  omega

/-- The walk goes where following `pprev` goes, whichever of the two pointers it takes. -/
lemma ancestorWalk_eq (b : B) {height : ℕ} (le : height ≤ chain.nHeight b) :
  ancestorWalk chain.toBlockChain chain.pskip height b (chain.nHeight b)
    = up chain.pprev (chain.nHeight b - height) b := by
  induction n : chain.nHeight b using Nat.strong_induction_on generalizing b height with
  | _ n ih =>
    subst n
    rw [ancestorWalk]
    split_ifs with ahead
    · obtain ⟨_, one⟩ := chain.exists_up b (Nat.one_le_of_lt ahead)
      obtain ⟨p, edge, -⟩ := up_succ one
      have grown := chain.graded b p edge
      have skips := pskip_of_walk edge fun _ le => ih _ (by omega) p le rfl
      have lower := @getSkipHeight_lt (chain.nHeight b) (by omega)
      obtain ⟨skip, hs⟩ :=
        chain.exists_up b (Nat.sub_le (chain.nHeight b) (getSkipHeight (chain.nHeight b)))
      have atSkip := height_up chain.graded hs
      dsimp only
      split_ifs with jumps
      · have same : chain.nHeight skip = getSkipHeight (chain.nHeight b) := by omega
        rw [skips, hs]
        dsimp only
        rw [← same, ih _ (by omega) skip (by omega) rfl]
        have split : chain.nHeight b - height = (chain.nHeight b - getSkipHeight (chain.nHeight b))
          + (chain.nHeight skip - height) := by omega
        rw [split, up_add, hs, bind_some]
      rw [edge, bind_some]
      have same : chain.nHeight b - 1 = chain.nHeight p := by omega
      dsimp only
      rw [same, ih _ (by omega) p (by omega) rfl, ← up_succ_of_parent edge]
      congr 1
      omega
    · have same : chain.nHeight b - height = 0 := by omega
      rw [same]
      rfl

lemma getAncestor_eq (b : B) (height : ℤ) : getAncestor chain.toBlockChain chain.pskip b height
    = some (chain.toBlockChain.getAncestor b height) := by
  rw [getAncestor, BlockChain.getAncestor]
  split_ifs with out low low
  · rfl
  · rw [ParentTree.getAncestor, if_neg (by omega)]
  · omega
  · have le : height.toNat ≤ chain.nHeight b := by omega
    rw [ancestorWalk_eq chain b le, ParentTree.getAncestor, if_pos le]
    obtain ⟨a, hs⟩ := chain.exists_up b (Nat.sub_le (chain.nHeight b) height.toNat)
    rw [hs, Option.map_some]

lemma pskip_first (b : B) (first : chain.nHeight b = 0) : chain.pskip b = none := by
  cases edge : chain.pprev b with
  | none => simpa [buildSkip, edge] using (chain.built b).symm
  | some p =>
    have grown := chain.graded b p edge
    omega

lemma pskip_spec (b : B) (pos : 0 < chain.nHeight b) :
  ∃ skip, chain.pskip b = some skip ∧ Ancestor chain.pprev skip b ∧
    chain.nHeight skip = getSkipHeight (chain.nHeight b) := by
  obtain ⟨_, one⟩ := chain.exists_up b pos
  obtain ⟨p, edge, -⟩ := up_succ one
  obtain ⟨skip, hs⟩ :=
    chain.exists_up b (Nat.sub_le (chain.nHeight b) (getSkipHeight (chain.nHeight b)))
  have lower := getSkipHeight_lt pos
  have atSkip := height_up chain.graded hs
  refine ⟨skip, ?_, ⟨_, hs⟩, by omega⟩
  rw [pskip_of_walk edge fun _ => ancestorWalk_eq chain p, hs]

end

variable {B : Type*} [DecidableEq B] {chain : SkipChain B} {a b r : B} {fuel : ℕ}

lemma jumpBack_spec (level : chain.nHeight a = chain.nHeight b) (ne : a ≠ b)
  (rA : Ancestor chain.pprev r a) (rB : Ancestor chain.pprev r b) (he : chain.nHeight a < fuel) :
  ∃ a' b', jumpBack chain fuel a b = some (a', b') ∧ a' ≠ b' ∧
    chain.nHeight a' = chain.nHeight b' ∧ chain.nHeight a' ≤ chain.nHeight a ∧
    ∀ g, Ancestor chain.pprev g a' ∧ Ancestor chain.pprev g b' ↔
      Ancestor chain.pprev g a ∧ Ancestor chain.pprev g b := by
  induction fuel generalizing a b with
  | zero => omega
  | succ fuel ih =>
    rw [jumpBack]
    split_ifs with skips
    · have pos := common_height_lt chain.graded (.refl a) (.refl b) level ne rA rB
      obtain ⟨skipA, eqA, aboveA, heightA⟩ := pskip_spec chain a (by omega)
      obtain ⟨skipB, eqB, hab, heightB⟩ := pskip_spec chain b (by omega)
      have lower := @getSkipHeight_lt (chain.nHeight a) (by omega)
      rw [eqA, eqB] at skips
      have differ : skipA ≠ skipB := fun eq => skips (congrArg some eq)
      have even : chain.nHeight skipA = chain.nHeight skipB := by rw [heightA, heightB, level]
      have kept := common_iff chain.graded aboveA hab even fun g gA gB =>
        (common_height_lt chain.graded aboveA hab even differ gA gB).le
      obtain ⟨rA, rB⟩ := (kept r).mpr ⟨rA, rB⟩
      obtain ⟨a', b', jump, ha, level', le, common⟩ := ih even differ rA rB (by omega)
      refine ⟨a', b', ?_, ha, level', by omega, fun g => (common g).trans (kept g)⟩
      rw [eqA, eqB, bind_some, bind_some, jump]
    · exact ⟨a, b, rfl, ne, level, le_rfl, fun g => Iff.rfl⟩

lemma commonLoop_spec (level : chain.nHeight a = chain.nHeight b)
  (rA : Ancestor chain.pprev r a) (rB : Ancestor chain.pprev r b) (he : chain.nHeight a < fuel) :
  ∃ c, commonLoop chain fuel a b = some (some c) ∧
    ∀ g, Ancestor chain.pprev g c ↔ Ancestor chain.pprev g a ∧ Ancestor chain.pprev g b := by
  induction fuel generalizing a b with
  | zero => omega
  | succ fuel ih =>
    rw [commonLoop]
    split_ifs with hs
    · obtain rfl := Option.some.inj hs
      exact ⟨a, rfl, fun g => and_self_iff.symm⟩
    obtain ⟨a', b', jump, ne, level', le, common⟩ :=
      jumpBack_spec level (fun eq => hs (congrArg some eq)) rA rB he
    obtain ⟨rA, rB⟩ := (common r).mpr ⟨rA, rB⟩
    obtain ⟨p, q, edgeA, edgeB, grown, even, hk⟩ := common_parents chain.graded level' ne rA rB
    obtain ⟨rP, rQ⟩ := (hk r).mpr ⟨rA, rB⟩
    obtain ⟨c, run, last⟩ := ih even rP rQ (by omega)
    refine ⟨c, ?_, fun g => (last g).trans ((hk g).trans (common g))⟩
    simp only [Option.bind_eq_bind, bind_some, jump, edgeA, edgeB]
    exact run

lemma lastCommonAncestor_iff (rA : Ancestor chain.pprev r a) (rB : Ancestor chain.pprev r b) :
  ∃ c, lastCommonAncestor chain a b = some (some c) ∧
    ∀ g, Ancestor chain.pprev g c ↔ Ancestor chain.pprev g a ∧ Ancestor chain.pprev g b := by
  have graded := chain.graded
  obtain ⟨a', getA, aboveA, heightA⟩ := @exists_getAncestor _ chain.toBlockChain a
    (min (chain.nHeight a) (chain.nHeight b)) (by omega) (by omega)
  obtain ⟨b', getB, hab, heightB⟩ := @exists_getAncestor _ chain.toBlockChain b
    (min (chain.nHeight a) (chain.nHeight b)) (by omega) (by omega)
  have kept := common_iff graded aboveA hab (by omega) fun g gA gB => by
    have lowA := gA.height_le graded
    have lowB := gB.height_le graded
    omega
  obtain ⟨rA', rB'⟩ := (kept r).mpr ⟨rA, rB⟩
  obtain ⟨c, run, last⟩ := commonLoop_spec (by omega) rA' rB'
    (show chain.nHeight a' < min (chain.nHeight a) (chain.nHeight b) + 1 by omega)
  refine ⟨c, ?_, fun g => (last g).trans (kept g)⟩
  have selfA (le : chain.nHeight a ≤ chain.nHeight b) : a' = a :=
    aboveA.eq_of_height graded (.refl a) (by omega)
  have selfB (le : chain.nHeight b ≤ chain.nHeight a) : b' = b :=
    hab.eq_of_height graded (.refl b) (by omega)
  simp only [lastCommonAncestor, getAncestor_eq]
  split_ifs with lowerA lowerB
  · rw [min_eq_right (by omega)] at getA
    rw [selfB (by omega)] at run
    rw [getA]
    exact run
  · rw [min_eq_left (by omega)] at getB
    rw [selfA (by omega)] at run
    rw [getB]
    exact run
  · rw [selfA (by omega), selfB (by omega)] at run
    exact run

/-- **The skip list.** Jumping finds the ancestors and the last common ancestor that following
`pprev` would. -/
theorem skipList_correct (chain : SkipChain B) : (∀ b (height : ℕ), height ≤ chain.nHeight b → ∃ a,
    getAncestor chain.toBlockChain chain.pskip b height = some (some a) ∧
      up chain.pprev (chain.nHeight b - height) b = some a) ∧
  (∀ b (height : ℤ), height < 0 ∨ chain.nHeight b < height →
    getAncestor chain.toBlockChain chain.pskip b height = some none) ∧
  (∀ a b, chain.nHeight a = chain.nHeight b →
    (chain.pskip a).map chain.nHeight = (chain.pskip b).map chain.nHeight) ∧
  ∀ a b r, Ancestor chain.pprev r a → Ancestor chain.pprev r b →
    ∃ c, lastCommonAncestor chain a b = some (some c) ∧
      Ancestor chain.pprev c a ∧ Ancestor chain.pprev c b ∧
      ∀ g, Ancestor chain.pprev g a → Ancestor chain.pprev g b →
        Ancestor chain.pprev g c ∧ chain.nHeight g ≤ chain.nHeight c := by
  refine ⟨fun b height le => ?_, fun b height out => ?_, fun a b level => ?_, fun a b r rA rB => ?_⟩
  · obtain ⟨a, hs⟩ := chain.exists_up b (Nat.sub_le (chain.nHeight b) height)
    refine ⟨a, ?_, hs⟩
    rw [getAncestor, if_neg (by omega), Int.toNat_natCast, ancestorWalk_eq chain b le, hs,
      Option.map_some]
  · rw [getAncestor, if_pos (by omega)]
  · rcases Nat.eq_zero_or_pos (chain.nHeight a) with first | pos
    · rw [pskip_first chain a first, pskip_first chain b (level ▸ first)]
    · obtain ⟨skipA, eqA, -, heightA⟩ := pskip_spec chain a pos
      obtain ⟨skipB, eqB, -, heightB⟩ := pskip_spec chain b (level ▸ pos)
      rw [eqA, eqB, Option.map_some, Option.map_some, heightA, heightB, level]
  · obtain ⟨c, run, common⟩ := lastCommonAncestor_iff rA rB
    obtain ⟨cA, cB⟩ := (common c).mp (.refl c)
    refine ⟨c, run, cA, cB, fun g gA gB => ?_⟩
    have above := (common g).mpr ⟨gA, gB⟩
    exact ⟨above, above.height_le chain.graded⟩

def forkedSkips : SkipChain (Fin 5) where
  toBlockChain := forked
  pskip b := (up forked.pprev 2 b).or (forked.pprev b)
  built := by decide +kernel

theorem skipList_correct_forked :
  (∃ a, getAncestor forked forkedSkips.pskip 4 1 = some (some a) ∧ up forked.pprev 2 4 = some a) ∧
    ∃ c, lastCommonAncestor forkedSkips 2 4 = some (some c) ∧ Ancestor forked.pprev c 2 ∧
      Ancestor forked.pprev c 4 ∧ 1 ≤ forked.nHeight c := by
  obtain ⟨ancestors, -, -, meet⟩ := skipList_correct forkedSkips
  obtain ⟨c, run, above, above', deepest⟩ := meet 2 4 0 ⟨2, rfl⟩ ⟨3, rfl⟩
  exact ⟨ancestors 4 1 (by decide), c, run, above, above', (deepest 1 ⟨1, rfl⟩ ⟨2, rfl⟩).2⟩

end SkipList
