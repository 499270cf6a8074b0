import Andaluzcoin.SpanningForestRep

/-!
# Merging chunks

The transactions of a cluster are a network, and the chunks of a state a partition of it. A merge
step either finds that no chunk in its direction is out of order with the given one, or merges
the chunk with the lowest of those above it, or the highest of those below it.
-/

namespace ClusterLinearize

open CutForest RatedParts Finset DepGraph FeeFrac

/-- Every transaction has a positive size. -/
def DepGraph.Positive (G : DepGraph) : Prop :=
  ∀ i ∈ G.positions, 0 < (G.feerate i).size

namespace DepGraph

variable {G : DepGraph}

/-- The transactions as a network of dependencies. -/
def network (G : DepGraph) (positive : G.Positive) : Network ℕ where
  vertices := G.positions
  dep p c := c ∈ G.children p
  worth i := (G.feerate i).fee
  size i := (G.feerate i).size
  pos i mi := by exact_mod_cast positive i mi
  inside _ _ isChild := ⟨parent_mem isChild, (mem_children.mp isChild).1⟩

lemma feeRate_size_pos (hp : G.Positive) {S : Finset ℕ} (sub : S ⊆ G.positions)
  (nonempty : S.Nonempty) : 0 < (G.feeRate S).size := by
  rw [feeRate_eq]
  exact sum_pos (fun i mi => hp i (sub mi)) nonempty

lemma feeRate_rate (hp : G.Positive) (S : Finset ℕ) :
  (G.feeRate S).rate = (G.network hp).rate S := by
  rw [feeRate_eq, FeeFrac.rate, Network.rate]
  push_cast
  rfl

end DepGraph

namespace SpanningForestState

variable {G : DepGraph} {s s' s'' : SpanningForestState} {c i p x : ℕ}

/-- The states store the same forest. -/
structure SameForest (s s' : SpanningForestState) : Prop where
  chunkIdxs : s'.chunkIdxs = s.chunkIdxs
  depTopIdx : s'.depTopIdx = s.depTopIdx
  activeChildren : s'.activeChildren = s.activeChildren
  chunkIdx : s'.chunkIdx = s.chunkIdx
  setInfo : s'.setInfo = s.setInfo
  reachable : s'.reachable = s.reachable

/-- The queues are as before, and work may have been done. -/
structure SameQueues (s s' : SpanningForestState) : Prop where
  suboptimalIdxs : s'.suboptimalIdxs = s.suboptimalIdxs
  suboptimalChunks : s'.suboptimalChunks = s.suboptimalChunks
  nonminimalChunks : s'.nonminimalChunks = s.nonminimalChunks
  cost : s.cost ≤ s'.cost

lemma SameForest.trans (hs : SameForest s s') (hs' : SameForest s' s'') : SameForest s s'' := by
  cases s'
  obtain ⟨rfl, rfl, rfl, rfl, rfl, rfl⟩ := hs
  exact { hs' with }

lemma SameQueues.trans (hs : SameQueues s s') (hs' : SameQueues s' s'') : SameQueues s s'' := by
  cases s'
  obtain ⟨rfl, rfl, rfl, cost⟩ := hs
  exact { hs' with cost := cost.trans hs'.cost }

lemma SameForest.cuts_eq (hs : SameForest s s') : cuts G s' = cuts G s := by
  rw [cuts, cuts, hs.activeChildren, hs.chunkIdx, hs.setInfo, hs.depTopIdx]

lemma Rep.congr (rep : Rep G s) (hs : SameForest s s') : Rep G s' := by
  cases s
  cases s'
  obtain ⟨rfl, rfl, rfl, rfl, rfl, rfl⟩ := hs
  exact { rep with }

/-- The chunk of a transaction. -/
def chunkOf (G : DepGraph) (s : SpanningForestState) (i : ℕ) : Finset ℕ :=
  if i ∈ G.positions then (s.setInfo (s.chunkIdx i)).transactions else ∅

lemma SameForest.chunkOf_eq (hs : SameForest s s') : chunkOf G s' = chunkOf G s := by
  funext i
  rw [chunkOf, chunkOf, hs.chunkIdx, hs.setInfo]

lemma chunkOf_eq (mi : i ∈ G.positions) :
  chunkOf G s i = (s.setInfo (s.chunkIdx i)).transactions := if_pos mi

lemma chunkOf_part (mi : i ∈ G.positions) : chunkOf G s i = (cuts G s).part i := if_pos mi

namespace Rep

variable {i : ℕ}

variable (rep : Rep G s)
include rep

lemma partition : Partition G.positions (chunkOf G s) :=
  rep.span.toPartition.congr fun _ mi => chunkOf_part mi

lemma chunkOf_eq_iff {j : ℕ} (mi : i ∈ G.positions)
  (mj : j ∈ G.positions) : chunkOf G s j = chunkOf G s i ↔ s.chunkIdx j = s.chunkIdx i := by
  rw [← rep.partition.mem_iff mi mj, chunkOf_part mi, rep.mem_part mi mj]

lemma size_pos (hp : G.Positive)
  (mi : i ∈ G.positions) : 0 < (s.setInfo (s.chunkIdx i)).feerate.size := by
  rw [rep.chunkRate _ (rep.chunk i mi)]
  exact feeRate_size_pos hp (rep.chunk_sub mi) ⟨i, rep.span.self i mi⟩

lemma top_size_pos (hp : G.Positive) {e : ℕ × ℕ} (me : e ∈ (cuts G s).edges) :
  0 < (s.setInfo (s.depTopIdx e.1 e.2)).feerate.size := by
  obtain ⟨mi, inTop⟩ := rep.span.first e me
  rw [rep.topRate e me]
  exact feeRate_size_pos hp ((rep.span.topSub e me).trans (rep.span.sub e.1 mi)) ⟨e.1, inTop⟩

lemma rate_chunk (hp : G.Positive)
  (mi : i ∈ G.positions) : (s.setInfo (s.chunkIdx i)).feerate.rate =
    (G.network hp).rate (chunkOf G s i) := by
  rw [rep.chunkRate _ (rep.chunk i mi), feeRate_rate hp, chunkOf_eq mi]

end Rep

lemma Activable.chunkOf_activate (act : Activable G s p c) :
  chunkOf G (s.activate p c).2 = merge (chunkOf G s) p c := by
  funext i
  have atP := chunkOf_part (s := s) act.memP
  have atC := chunkOf_part (s := s) act.memC
  by_cases mi : i ∈ G.positions
  · rw [chunkOf_part mi, ← act.agrees.part i mi, merge, atP, atC, chunkOf_part mi]
    rfl
  have outside : i ∉ chunkOf G s p ∪ chunkOf G s c := by
    rw [mem_union, not_or]
    exact ⟨fun hi => mi (act.rep.partition.sub p act.memP hi),
      fun hi => mi (act.rep.partition.sub c act.memC hi)⟩
  rw [merge, if_neg outside, chunkOf, if_neg mi, chunkOf, if_neg mi]

lemma Deactivable.chunkOf_deactivate (hd : Deactivable G s p c) :
  chunkOf G (s.deactivate G p c).2 = split (chunkOf G s) p ((cuts G s).top (p, c)) := by
  funext i
  have atP := chunkOf_part (s := s) hd.memP
  by_cases mi : i ∈ G.positions
  · rw [chunkOf_part mi, ← hd.agrees.part i mi, split, atP, chunkOf_part mi]
    rfl
  have notTop : i ∉ (cuts G s).top (p, c) := fun inT => mi (hd.top_positions inT)
  have outside : i ∉ chunkOf G s p :=
    fun hi => mi (hd.rep.partition.sub p hd.memP hi)
  rw [split, if_neg notTop, if_neg outside, chunkOf, if_neg mi, chunkOf, if_neg mi]

/-- The network as seen in a direction: upwards, or downwards in its dual. -/
def toward (G : DepGraph) (positive : G.Positive) (downWard : Bool) : Network ℕ :=
  if downWard then (G.network positive).dual else G.network positive

section
variable {hp : G.Positive} {down : Bool} {best reached : FeeFrac} {x y : ℕ}

/-- The rate of a set in a direction. -/
def key (downWard : Bool) (f : FeeFrac) : ℚ := if downWard then - f.rate else f.rate

lemma key_chunk (hp : G.Positive) (rep : Rep G s) {i : ℕ} (mi : i ∈ G.positions) :
  key down (s.setInfo (s.chunkIdx i)).feerate = (toward G hp down).rate (chunkOf G s i) := by
  have rate := rep.rate_chunk hp mi
  cases down
  · exact rate
  · rw [toward, if_pos rfl, Network.dual_rate, ← rate]
    rfl

/-- What the search knows about the chunks of the transactions it has seen. -/
structure BestSoFar (s : SpanningForestState) (downWard : Bool) (start : FeeFrac)
  (seen : Finset ℕ) (best : MergeCandidate) : Prop where
  size : 0 < best.feerate.size
  missing : best.idx = none → best.feerate = start ∧ best.tiebreak = 0 ∧
    ∀ i ∈ seen, key downWard start < key downWard (s.setInfo (s.chunkIdx i)).feerate
  found : ∀ j, best.idx = some j → (∃ i ∈ seen, s.chunkIdx i = j) ∧
    best.feerate = (s.setInfo j).feerate ∧ key downWard best.feerate ≤ key downWard start
  least : ∀ i ∈ seen, key downWard best.feerate ≤ key downWard (s.setInfo (s.chunkIdx i)).feerate

lemma compare_gt (pos : 0 < best.size) (pos' : 0 < reached.size) :
  compareToward down best reached = .gt ↔ key down best < key down reached := by
  cases down
  · exact feeRateCompare_eq_gt pos' pos
  · refine (feeRateCompare_eq_gt pos pos').trans ?_
    exact neg_lt_neg_iff.symm

lemma compare_lt (pos : 0 < best.size) (pos' : 0 < reached.size) :
  compareToward down best reached = .lt ↔ key down reached < key down best := by
  cases down
  · exact feeRateCompare_eq_lt pos' pos
  · refine (feeRateCompare_eq_lt pos pos').trans ?_
    exact neg_lt_neg_iff.symm

namespace BestSoFar

variable {start : FeeFrac} {seen group : Finset ℕ} {best : MergeCandidate} {i : ℕ}

variable (known : BestSoFar s down start seen best)
include known

/-- A chunk that is no nearer changes nothing. -/
lemma keep (hal : ∀ j ∈ group, s.chunkIdx j = s.chunkIdx i)
  (far : key down best.feerate ≤ key down (s.setInfo (s.chunkIdx i)).feerate)
  (out : best.idx = none → key down best.feerate < key down (s.setInfo (s.chunkIdx i)).feerate) :
  BestSoFar s down start (seen ∪ group) best := by
  constructor
  · exact known.size
  · intro none_
    obtain ⟨isStart, tiebreak, ha⟩ := known.missing none_
    refine ⟨isStart, tiebreak, fun j mem => ?_⟩
    rcases mem_union.mp mem with old | new
    · exact ha j old
    · rw [hal j new, ← isStart]
      exact out none_
  · intro j hb
    obtain ⟨⟨k, mk, eq⟩, rest⟩ := known.found j hb
    exact ⟨⟨k, mem_union_left _ mk, eq⟩, rest⟩
  · intro j mem
    rcases mem_union.mp mem with old | new
    · exact known.least j old
    · rw [hal j new]
      exact far

/-- A chunk that is no farther may take the place of the best one. -/
lemma take (hg : i ∈ group) (ha : ∀ j ∈ group, s.chunkIdx j = s.chunkIdx i)
  (pos : 0 < (s.setInfo (s.chunkIdx i)).feerate.size)
  (near : key down (s.setInfo (s.chunkIdx i)).feerate ≤ key down best.feerate)
  (hsl : key down best.feerate ≤ key down start) (tiebreak : ℕ) :
  BestSoFar s down start (seen ∪ group)
    ⟨(s.setInfo (s.chunkIdx i)).feerate, some (s.chunkIdx i), tiebreak⟩ := by
  constructor
  · exact pos
  · intro none_
    cases none_
  · intro j hb
    obtain rfl := Option.some.inj hb
    exact ⟨⟨i, mem_union_right _ hg, rfl⟩, rfl, near.trans hsl⟩
  · intro j mem
    rcases mem_union.mp mem with old | new
    · exact near.trans (known.least j old)
    · rw [ha j new]

lemma le_start : key down best.feerate ≤ key down start := by
  cases isBest : best.idx with
  | none => rw [(known.missing isBest).1]
  | some j => exact (known.found j isBest).2.2

end BestSoFar

lemma pickMergeLoop_best (rep : Rep G s) (hp : G.Positive) {start : FeeFrac} :
  ∀ (fuel : ℕ) (todo : Finset ℕ) (best : MergeCandidate) (rng : Rng) (steps : ℕ)
    (seen : Finset ℕ), todo ⊆ G.positions → todo.card ≤ fuel →
    BestSoFar s down start seen best →
    BestSoFar s down start (seen ∪ todo) (s.pickMergeLoop down fuel todo best rng steps).1 := by
  intro fuel
  induction fuel with
  | zero =>
    intro todo best rng steps seen _ card known
    have empty : todo = ∅ := card_eq_zero.mp (Nat.le_zero.mp card)
    rw [empty, union_empty]
    exact known
  | succ fuel ih =>
    intro todo best rng steps seen sub card known
    rw [pickMergeLoop]
    split
    · next noFirst =>
      rw [first_eq_none.mp noFirst, union_empty]
      exact known
    · next i hf =>
      have inTodo := mem_of_first hf
      have mi := sub inTodo
      let chunk := (s.setInfo (s.chunkIdx i)).transactions
      have inChunk : i ∈ chunk := rep.span.self i mi
      have pos := rep.size_pos hp mi
      have alike : ∀ j ∈ todo ∩ chunk, s.chunkIdx j = s.chunkIdx i := by
        intro j mem
        exact rep.home i mi j (mem_inter.mp mem).2
      have divided : seen ∪ todo = (seen ∪ (todo ∩ chunk)) ∪ (todo \ chunk) := by
        rw [union_assoc, union_comm (todo ∩ chunk), sdiff_union_inter]
      have smaller : (todo \ chunk).card ≤ fuel := by
        have lt : (todo \ chunk).card < todo.card := by
          apply card_lt_card
          rw [ssubset_iff_of_subset sdiff_subset]
          exact ⟨i, inTodo, fun mem => (mem_sdiff.mp mem).2 inChunk⟩
        omega
      have sub' : todo \ chunk ⊆ G.positions := sdiff_subset.trans sub
      dsimp only
      rw [divided]
      split_ifs with far near
      · have lt := (compare_gt known.size pos).mp far
        exact ih _ _ _ _ _ sub' smaller (known.keep alike lt.le fun _ => lt)
      · have le := not_lt.mp fun lt => far ((compare_gt known.size pos).mpr lt)
        exact ih _ _ _ _ _ sub' smaller (known.take (mem_inter.mpr ⟨inTodo, inChunk⟩) alike
          pos le known.le_start _)
      · -- a lost tie: there is a chunk of the same rate already
        rw [not_or] at near
        have ge := not_lt.mp fun lt => near.1 ((compare_lt known.size pos).mpr lt)
        refine ih _ _ _ _ _ sub' smaller (known.keep alike ge fun none_ => ?_)
        have zero := (known.missing none_).2.1
        exact absurd (zero ▸ Nat.zero_le _) near.2

/-- The transactions to look at are those that the chunk leads to in the direction. -/
lemma mem_todo (rep : Rep G s) (mx : x ∈ G.positions) :
  y ∈ (if down then (s.reachable (s.chunkIdx x)).2 else (s.reachable (s.chunkIdx x)).1) ↔
    y ∉ chunkOf G s x ∧ ∃ z ∈ chunkOf G s x, (toward G hp down).dep y z := by
  rw [rep.reach _ (rep.chunk x mx), chunkOf_eq mx]
  cases down
  · have parent : ∀ z ∈ (s.setInfo (s.chunkIdx x)).transactions,
      (y ∈ G.getReducedParents z ↔ z ∈ G.children y) := by
      intro z mz
      rw [mem_children, and_iff_right (rep.chunk_sub mx mz)]
    simp only [getReachable, toward, Bool.false_eq_true, if_false, mem_sdiff, mem_biUnion]
    rw [and_comm]
    exact and_congr_right fun _ => exists_congr fun z => and_congr_right fun mz => parent z mz
  · simp only [getReachable, toward, if_true, mem_sdiff, mem_biUnion]
    rw [and_comm]
    rfl

lemma toward_inside {z : ℕ} (isDep : (toward G hp down).dep y z) :
  y ∈ G.positions ∧ z ∈ G.positions := by
  cases down
  · exact (G.network hp).inside y z isDep
  · exact (G.network hp).dual.inside y z isDep

/-- Nothing in the direction is out of order with the chunk. -/
def Done (G : DepGraph) (positive : G.Positive) (downWard : Bool)
  (s : SpanningForestState) (x : ℕ) : Prop :=
  ∀ y z, (toward G positive downWard).dep y z → chunkOf G s z = chunkOf G s x →
    chunkOf G s y ≠ chunkOf G s x →
    (toward G positive downWard).rate (chunkOf G s x) <
      (toward G positive downWard).rate (chunkOf G s y)

lemma pickMergeCandidate_spec (rep : Rep G s) (hp : G.Positive) (down : Bool)
  (mx : x ∈ G.positions) :
  SameForest s (s.pickMergeCandidate down (s.chunkIdx x)).2 ∧
    SameQueues s (s.pickMergeCandidate down (s.chunkIdx x)).2 ∧
    ((s.pickMergeCandidate down (s.chunkIdx x)).1 = none → Done G hp down s x) ∧
    ∀ m, (s.pickMergeCandidate down (s.chunkIdx x)).1 = some m → ∃ y z, s.chunkIdx y = m ∧
      Rising.Lowest (toward G hp down) (chunkOf G s) x y z := by
  set todo := if down then (s.reachable (s.chunkIdx x)).2 else (s.reachable (s.chunkIdx x)).1
    with isTodo
  have inTodo : ∀ {y}, y ∈ todo ↔ y ∉ chunkOf G s x ∧
    ∃ z ∈ chunkOf G s x, (toward G hp down).dep y z := mem_todo rep mx
  have sub : todo ⊆ G.positions := by
    intro y mem
    obtain ⟨-, z, -, hd⟩ := inTodo.mp mem
    exact (toward_inside hd).1
  have start : BestSoFar s down (s.setInfo (s.chunkIdx x)).feerate ∅
    ⟨(s.setInfo (s.chunkIdx x)).feerate, none, 0⟩ :=
    ⟨rep.size_pos hp mx, by simp, by simp, by simp⟩
  have best := pickMergeLoop_best rep hp todo.card todo _ s.rng 0 ∅ sub (le_refl _) start
  rw [empty_union] at best
  have neighbour : ∀ y z, (toward G hp down).dep y z →
    chunkOf G s z = chunkOf G s x → chunkOf G s y ≠ chunkOf G s x → y ∈ todo := by
    intro y z hd hh ne
    obtain ⟨my, mz⟩ := toward_inside hd
    refine inTodo.mpr ⟨fun hi => ne (rep.partition.same x mx y hi), z, ?_, hd⟩
    exact (rep.partition.mem_iff mx mz).mpr hh
  refine ⟨⟨rfl, rfl, rfl, rfl, rfl, rfl⟩, ⟨rfl, rfl, rfl, Nat.le_add_right _ _⟩, ?_, ?_⟩
  · intro none_ y z hd hh ne
    have above := (best.missing none_).2.2 y (neighbour y z hd hh ne)
    rwa [key_chunk hp rep mx, key_chunk hp rep (toward_inside hd).1] at above
  intro m hb
  obtain ⟨⟨y, mem, rfl⟩, rate, le⟩ := best.found m hb
  obtain ⟨ho, z, hi, hd⟩ := inTodo.mp mem
  have my := sub mem
  rw [rate, key_chunk hp rep my, key_chunk hp rep mx] at le
  refine ⟨y, z, rfl, hd, rep.partition.same x mx z hi, ?_, le, ?_⟩
  · exact fun eq => ho ((rep.partition.mem_iff mx my).mpr eq)
  · intro y' z' hd' hh ne
    have least := best.least y' (neighbour y' z' hd' hh ne)
    rwa [rate, key_chunk hp rep my, key_chunk hp rep (toward_inside hd').1] at least

end

/-- The second state is the first one with a dependency made active. -/
structure JoinsTo (G : DepGraph) (s s' : SpanningForestState) (p c : ℕ) : Prop where
  act : Activable G s p c
  rep : Rep G s'
  agrees : Agrees G.positions ((cuts G s).join p c) (cuts G s')
  chunkOf_eq : chunkOf G s' = merge (chunkOf G s) p c
  chunkIdx : ∀ i, s'.chunkIdx i = if i ∈ chunkOf G s p then s.chunkIdx c else s.chunkIdx i
  chunkIdxs : s'.chunkIdxs = s.chunkIdxs.erase (s.chunkIdx p)
  queues : SameQueues s s'

lemma joinsTo_activate (act : Activable G s p c) : JoinsTo G s (s.activate p c).2 p c := by
  refine ⟨act, act.rep_activate, act.agrees, act.chunkOf_activate, fun i => ?_, rfl, ?_⟩
  · rw [Activable.chunkIdx_eq G, chunkOf_part act.memP]
  · exact ⟨rfl, rfl, rfl, Nat.le_add_right _ _⟩

lemma JoinsTo.of_same (hj : JoinsTo G s' s'' p c) (rep : Rep G s)
  (hs : SameForest s s') (queues : SameQueues s s') : JoinsTo G s s'' p c := by
  cases s
  cases s'
  obtain ⟨rfl, rfl, rfl, rfl, rfl, rfl⟩ := hs
  exact { hj with act := { hj.act with rep }, queues := queues.trans hj.queues }

lemma findDependency_spec (bottom : Finset ℕ) :
  ∀ (l : List ℕ) (pick steps : ℕ), pick < (l.map fun i => (G.children i ∩ bottom).card).sum →
    ∃ p ∈ l, ∃ c ∈ G.children p ∩ bottom, ∃ n,
      findDependency G bottom l pick steps = some ((p, c), n) := by
  intro l
  induction l with
  | nil =>
    intro pick steps hs
    simp at hs
  | cons i l ih =>
    intro pick steps hs
    rw [List.map_cons, List.sum_cons] at hs
    rw [findDependency]
    split_ifs with hh
    · have bound : pick < (ascending (G.children i ∩ bottom)).length := by
        rw [length_ascending]
        exact hh
      refine ⟨i, .head _, (ascending (G.children i ∩ bottom))[pick],
        mem_ascending.mp (List.getElem_mem bound), steps + 1, ?_⟩
      rw [List.getElem?_eq_getElem bound, Option.map_some]
    · obtain ⟨p, mp, c, mc, n, eq⟩ := ih (pick - (G.children i ∩ bottom).card) (steps + 1)
        (by omega)
      exact ⟨p, .tail _ mp, c, mc, n, eq⟩

/-- `MergeChunks` activates a dependency from the bottom chunk to the top chunk, if there is
one. -/
lemma mergeChunks_spec (rep : Rep G s) {a b : ℕ} (ma : a ∈ G.positions) (mb : b ∈ G.positions) (ne : s.chunkIdx a ≠ s.chunkIdx b)
  (inA : p ∈ chunkOf G s a) (inB : c ∈ chunkOf G s b) (hc : c ∈ G.children p) :
  ∃ p' ∈ chunkOf G s a, ∃ c' ∈ chunkOf G s b, ∃ s',
    s.mergeChunks G (s.chunkIdx a) (s.chunkIdx b) = (some (s.chunkIdx b), s') ∧
      JoinsTo G s s' p' c' := by
  rw [chunkOf_eq ma] at inA ⊢
  rw [chunkOf_eq mb] at inB ⊢
  set top := (s.setInfo (s.chunkIdx a)).transactions
  set bottom := (s.setInfo (s.chunkIdx b)).transactions
  have count : 0 < ∑ i ∈ top, (G.children i ∩ bottom).card := by
    refine sum_pos' (fun _ _ => Nat.zero_le _) ⟨p, inA, ?_⟩
    exact card_pos.mpr ⟨c, mem_inter.mpr ⟨hc, inB⟩⟩
  have small : s.rng.answers s.rng.used % (∑ i ∈ top, (G.children i ∩ bottom).card) <
    ((ascending top).map fun i => (G.children i ∩ bottom).card).sum := by
    rw [sum_ascending]
    exact Nat.mod_lt _ count
  obtain ⟨p', mp', c', mc', n, eq⟩ := findDependency_spec bottom (ascending top) _ 0 small
  rw [mem_ascending] at mp'
  obtain ⟨hc', inB'⟩ := mem_inter.mp mc'
  have atP := rep.home a ma p' mp'
  have atC := rep.home b mb c' inB'
  let s₁ : SpanningForestState := ({ s with
    rng := (s.rng.randrange (∑ i ∈ top, (G.children i ∩ bottom).card)).2
    cost := s.cost + 2 * top.card } : SpanningForestState).charge (3 * n + 5)
  have same : SameForest s s₁ := ⟨rfl, rfl, rfl, rfl, rfl, rfl⟩
  have act : Activable G s₁ p' c' :=
    ⟨rep.congr same, hc', by rw [same.chunkIdx, atP, atC]; exact ne⟩
  refine ⟨p', mp', c', inB', (s₁.activate p' c').2, ?_, (joinsTo_activate act).of_same rep same
    ⟨rfl, rfl, rfl, (Nat.le_add_right _ _).trans (Nat.le_add_right _ _)⟩⟩
  simp only [mergeChunks, Rng.randrange]
  rw [eq]
  exact congrArg (fun idx => (some idx, (s₁.activate p' c').2)) atC

/-- A merge in a direction: the chunk becomes one with the closest chunk that is out of order. -/
structure Merges (G : DepGraph) (positive : G.Positive) (downWard : Bool)
  (s s' : SpanningForestState) (x : ℕ) : Prop where
  joins : ∃ p c, JoinsTo G s s' p c
  lowest : ∃ y z, Rising.Lowest (toward G positive downWard) (chunkOf G s) x y z ∧
    chunkOf G s' = merge (chunkOf G s) y z

lemma mergeStep_eq (down : Bool) (idx : ℕ) : s.mergeStep G down idx =
  match (s.pickMergeCandidate down idx).1 with
    | none => (none, (s.pickMergeCandidate down idx).2)
    | some m => (s.pickMergeCandidate down idx).2.mergeChunksDirected G down idx m := rfl

lemma mergeStep_spec (rep : Rep G s) (hp : G.Positive) (down : Bool) (mx : x ∈ G.positions) :
  (∃ s', s.mergeStep G down (s.chunkIdx x) = (none, s') ∧ SameForest s s' ∧
    SameQueues s s' ∧ Done G hp down s x) ∨
  ∃ s', s.mergeStep G down (s.chunkIdx x) = (some (s'.chunkIdx x), s') ∧
    Merges G hp down s s' x := by
  obtain ⟨hs, queues, hm, hf⟩ := pickMergeCandidate_spec rep hp down mx
  have partition := rep.partition
  rw [mergeStep_eq]
  cases candidate : (s.pickMergeCandidate down (s.chunkIdx x)).1 with
  | none => exact .inl ⟨_, rfl, hs, queues, hm candidate⟩
  | some m =>
    right
    obtain ⟨y, z, rfl, hl⟩ := hf m candidate
    obtain ⟨my, mz⟩ := toward_inside hl.isDep
    set s₁ := (s.pickMergeCandidate down (s.chunkIdx x)).2
    have inX : z ∈ chunkOf G s x := (partition.mem_iff mx mz).mpr hl.here
    have ne : s.chunkIdx y ≠ s.chunkIdx x := fun eq => hl.ne ((rep.chunkOf_eq_iff mx my).mpr eq)
    cases down with
    | false =>
      obtain ⟨p, inY, c, inX', s', eq, hj⟩ := mergeChunks_spec (rep.congr hs) my mx ne
        (partition.self y my) inX hl.isDep
      replace hj := hj.of_same rep hs queues
      have atP := partition.same y my p inY
      have out : x ∉ chunkOf G s p := by
        rw [atP]
        exact fun inside => hl.ne (partition.same y my x inside).symm
      refine ⟨s', ?_, ⟨p, c, hj⟩, p, c, ?_, hj.chunkOf_eq⟩
      · rw [hj.chunkIdx, if_neg out]
        exact eq
      · exact hl.congr hj.act.isChild (partition.same x mx c inX') atP
    | true =>
      obtain ⟨p, inX', c, inY, s', eq, hj⟩ := mergeChunks_spec (rep.congr hs) mx my ne.symm
        inX (partition.self y my) hl.isDep
      replace hj := hj.of_same rep hs queues
      have atC := partition.same y my c inY
      have inside : x ∈ chunkOf G s p := by
        rw [partition.same x mx p inX']
        exact partition.self x mx
      have atY : s.chunkIdx c = s.chunkIdx y :=
        (rep.chunkOf_eq_iff my (partition.sub y my inY)).mp atC
      refine ⟨s', ?_, ⟨p, c, hj⟩, c, p, ?_, ?_⟩
      · rw [hj.chunkIdx, if_pos inside, atY]
        exact eq
      · exact hl.congr hj.act.isChild (partition.same x mx p inX') atC
      · rw [hj.chunkOf_eq, Partition.merge_comm]

/-- The merges of a chunk as far as they go, for any property that merges keep. -/
lemma mergeAll_spec (hp : G.Positive) (down : Bool) (mx : x ∈ G.positions)
  (P : SpanningForestState → Prop) (congr : ∀ s s', SameForest s s' → SameQueues s s' → P s → P s')
  (step : ∀ s s', Merges G hp down s s' x → P s → P s') :
  ∀ (fuel : ℕ) (s : SpanningForestState), Rep G s → s.chunkIdxs.card ≤ fuel → P s →
    ∃ s', mergeAll G down fuel s (s.chunkIdx x) = (s'.chunkIdx x, s') ∧
      Rep G s' ∧ SameQueues s s' ∧ Done G hp down s' x ∧ P s' := by
  intro fuel
  induction fuel with
  | zero =>
    intro s rep card _
    have nonempty := card_pos.mpr ⟨_, rep.chunk x mx⟩
    omega
  | succ fuel ih =>
    intro s rep card hh
    rw [mergeAll]
    rcases mergeStep_spec rep hp down mx with
      ⟨s', eq, same, queues, hd⟩ | ⟨s', eq, merges⟩
    · refine ⟨s', ?_, rep.congr same, queues, ?_, congr s s' same queues hh⟩
      · rw [eq, same.chunkIdx]
      · rwa [Done, same.chunkOf_eq]
    obtain ⟨p, c, hj⟩ := merges.joins
    have card' : s'.chunkIdxs.card ≤ fuel := by
      rw [hj.chunkIdxs, card_erase_of_mem (rep.chunk p hj.act.memP)]
      omega
    obtain ⟨s'', eq', rep', queues, hd, hh'⟩ := ih s' hj.rep card' (step s s' merges hh)
    refine ⟨s'', ?_, rep', hj.queues.trans queues, hd, hh'⟩
    rw [eq]
    exact eq'

end SpanningForestState

end ClusterLinearize
