import Andaluzcoin.SpanningForestMinimize
import Andaluzcoin.SpanningForestOutput
import Andaluzcoin.LinearizationDiagram

/-!
# Linearize

What `Linearize` returns is read off a forest in layers: its chunks, each of them in a
topological order, by falling feerate. The diagram of the result is bounded by the potential of
the forest from below, and that is what loading, optimizing and minimizing never lower. Minimal
chunks are those of every optimal result.
-/

namespace ClusterLinearize

open StepDiagram RatedParts GreedyOrder SpanningForestState List DepGraph Partition Network Layered

variable {graph : DepGraph} {hpos : graph.Positive}

section
variable {K : Type*} {l : List K}

lemma isTopological_of_parents {l : List ℕ} (hk : ∀ i ∈ l, i ∈ graph.positions)
  (hpa : ∀ p i q, l = p ++ i :: q → ∀ a ∈ graph.getReducedParents i, a ∈ p) :
  IsTopological graph l := by
  intro p
  induction hn : p.length using Nat.strong_induction_on generalizing p with
  | _ n ih =>
    intro i q eq a ha ne
    have mi := hk i (by simp [eq])
    obtain ⟨b, hp, ha'⟩ := (reduced_cover i mi).2 a (Finset.mem_erase.mpr ⟨ne, ha⟩)
    have earlier := hpa p i q eq b hp
    by_cases hs : a = b
    · exact hs ▸ earlier
    · obtain ⟨p', q', rfl⟩ := append_of_mem earlier
      have inP := ih p'.length (by simp [← hn]) p' rfl b (q' ++ i :: q) (by simp [eq]) a ha' hs
      exact mem_append_left _ inP

lemma flatMap_split {f : K → List ℕ} {p q : List ℕ} {i : ℕ}
  (eq : l.flatMap f = p ++ i :: q) : ∃ P a Q p' q', l = P ++ a :: Q ∧ f a = p' ++ i :: q' ∧
    p = P.flatMap f ++ p' := by
  induction l generalizing p with
  | nil => simp at eq
  | cons a l ih =>
    rw [flatMap_cons] at eq
    rcases append_eq_append_iff.mp eq with ⟨c, rfl, rest⟩ | ⟨c, first, rest⟩
    · obtain ⟨P, b, Q, p', q', rfl, atB, rfl⟩ := ih rest
      exact ⟨a :: P, b, Q, p', q', rfl, atB, by simp⟩
    cases c with
    | nil =>
      obtain ⟨P, b, Q, p', q', rfl, atB, empty⟩ := ih (p := []) (by simpa using rest.symm)
      refine ⟨a :: P, b, Q, p', q', rfl, atB, ?_⟩
      rw [flatMap_cons, append_assoc, ← empty, append_nil, first, append_nil]
    | cons c c' =>
      obtain ⟨rfl, -⟩ := List.cons.inj rest
      exact ⟨[], a, l, p, c', rfl, first, by simp⟩

lemma mem_takeWhile_of_falling {f : K → ℚ}
  (falling : l.Pairwise fun a b => f b ≤ f a) {r : ℚ} {a : K} :
  a ∈ l.takeWhile (fun a => decide (r < f a)) ↔ a ∈ l ∧ r < f a := by
  induction l with
  | nil => simp
  | cons b l ih =>
    obtain ⟨first, falling'⟩ := pairwise_cons.mp falling
    by_cases up : r < f b
    · rw [takeWhile_cons_of_pos (by simpa using up), mem_cons, ih falling', mem_cons]
      constructor
      · rintro (rfl | ⟨ma, upA⟩)
        · exact ⟨.inl rfl, up⟩
        · exact ⟨.inr ma, upA⟩
      · rintro ⟨rfl | ma, upA⟩
        · exact .inl rfl
        · exact .inr ⟨ma, upA⟩
    rw [takeWhile_cons_of_neg (by simpa using up)]
    refine iff_of_false not_mem_nil ?_
    rintro ⟨hm, upA⟩
    rcases mem_cons.mp hm with rfl | ma
    · exact up upA
    · exact up (upA.trans_le (first a ma))

end

section

/-- A linearization of the parts of the transactions, by falling rate where the parts are in
layers. -/
structure Emitted (graph : DepGraph) (fallback : FallbackOrder graph) (part : ℕ → Finset ℕ)
  (chunks : List (Finset ℕ)) (order : Finset ℕ → List ℕ) : Prop where
  partition : Partition graph.positions part
  greedy : IsGreedy (parts graph.positions part) (ChunkNeeds graph) (ChunkFirst fallback) chunks
  inOrder : ∀ C ∈ chunks, IsGreedy C (TxNeeds graph) (TxFirst fallback) (order C)

variable {fallback : FallbackOrder graph} {s : SpanningForestState}

lemma txOrder_unique {C : Finset ℕ} (sub : C ⊆ graph.positions) {l l' : List ℕ}
  (hg : IsGreedy C (TxNeeds graph) (TxFirst fallback) l)
  (hg' : IsGreedy C (TxNeeds graph) (TxFirst fallback) l') : l = l' := by
  refine hg.unique (fun a ma b mb first => ?_) hg'
  have later : TxLater fallback b a := first
  exact later.asymm (sub mb) (sub ma)

lemma chunkOrder_unique {part : ℕ → Finset ℕ} (partition : Partition graph.positions part)
  {l l' : List (Finset ℕ)}
  (hg : IsGreedy (parts graph.positions part) (ChunkNeeds graph) (ChunkFirst fallback) l)
  (hg' : IsGreedy (parts graph.positions part) (ChunkNeeds graph) (ChunkFirst fallback) l') :
  l = l' := by
  have high : ∀ C ∈ parts graph.positions part, highest fallback C ∈ graph.positions := by
    intro C isPart
    obtain ⟨t, mt, rfl⟩ := mem_parts.mp isPart
    exact partition.sub t mt (highest_mem fallback (partition.nonempty mt))
  exact hg.unique (fun A mA B mB first => Later.asymm (high B mB) (high A mA) first) hg'

theorem getLinearization_emitted (fallback : FallbackOrder graph)
  (ha : graph.isAcyclic = true) (rep : Rep graph s) {level : Finset ℕ → ℕ}
  (hl : Layered (graph.network hpos) (chunkOf graph s) level) :
  ∃ (chunks : List (Finset ℕ)) (order : Finset ℕ → List ℕ),
    s.getLinearization fallback = chunks.flatMap order ∧
    Emitted graph fallback (chunkOf graph s) chunks order := by
  obtain ⟨chunks, lists, eq, greedy, each⟩ := getLinearization_spec fallback ha rep hl
  have partition := rep.partition
  have sub : ∀ C ∈ chunks, C ⊆ graph.positions := by
    intro C mC
    obtain ⟨t, mt, rfl⟩ := mem_parts.mp ((greedy.mem C).mp mC)
    exact partition.sub t mt
  have listed : ∀ {cs : List (Finset ℕ)} {ls : List (List ℕ)}, List.Forall₂
    (fun C l => IsGreedy C (TxNeeds graph) (TxFirst fallback) l) cs ls →
    ∀ C ∈ cs, ∃ l, IsGreedy C (TxNeeds graph) (TxFirst fallback) l := by
    intro cs ls each
    induction each with
    | nil => simp
    | cons first _ ih => exact forall_mem_cons.mpr ⟨⟨_, first⟩, ih⟩
  choose! order inOrder using listed each
  refine ⟨chunks, order, ?_, partition, greedy, inOrder⟩
  rw [eq, flatMap_def]
  congr 1
  clear eq greedy listed
  induction each with
  | nil => rfl
  | cons first _ ih =>
    rw [forall_mem_cons] at sub inOrder
    rw [map_cons, ← ih sub.2 inOrder.2, txOrder_unique sub.1 first inOrder.1]

namespace Emitted

variable {part : ℕ → Finset ℕ} {chunks : List (Finset ℕ)} {order : Finset ℕ → List ℕ}

section
variable (he : Emitted graph fallback part chunks order) {C : Finset ℕ} {i : ℕ}
include he

lemma mem_order (mC : C ∈ chunks) : i ∈ order C ↔ i ∈ C := (he.inOrder C mC).mem i

lemma mem_chunks : C ∈ chunks ↔ ∃ t ∈ graph.positions, part t = C :=
  (he.greedy.mem C).trans mem_parts

lemma mem_iff : i ∈ chunks.flatMap order ↔ i ∈ graph.positions := by
  rw [mem_flatMap]
  constructor
  · rintro ⟨C, mC, mi⟩
    rw [he.mem_order mC] at mi
    obtain ⟨t, mt, rfl⟩ := he.mem_chunks.mp mC
    exact he.partition.sub t mt mi
  · intro mi
    have mC := he.mem_chunks.mpr ⟨i, mi, rfl⟩
    exact ⟨part i, mC, (he.mem_order mC).mpr (he.partition.self i mi)⟩

lemma nodup : (chunks.flatMap order).Nodup := by
  rw [nodup_flatMap]
  refine ⟨fun C mC => (he.inOrder C mC).nodup, ?_⟩
  refine he.greedy.nodup.pairwise_of_forall_ne ?_
  intro C mC D mD ne i inC inD
  rw [he.mem_order mC] at inC
  rw [he.mem_order mD] at inD
  obtain ⟨t, mt, rfl⟩ := he.mem_chunks.mp mC
  obtain ⟨u, mu, rfl⟩ := he.mem_chunks.mp mD
  exact ne (he.partition.part_eq mt mu inC inD)

lemma perm : (chunks.flatMap order).Perm (ascending graph.positions) := by
  rw [perm_ext_iff_of_nodup he.nodup (nodup_ascending _)]
  intro i
  rw [he.mem_iff, mem_ascending]

lemma isTopological : IsTopological graph (chunks.flatMap order) := by
  refine isTopological_of_parents (fun i mi => he.mem_iff.mp mi) ?_
  intro p i q eq a hp
  obtain ⟨P, C, Q, p', q', split, atC, rfl⟩ := flatMap_split eq
  have mC : C ∈ chunks := by simp [split]
  have inC : i ∈ C := (he.mem_order mC).mp (by simp [atC])
  by_cases own : a ∈ C
  · exact mem_append_right _ ((he.inOrder C mC).needs_before atC own hp)
  have mi : i ∈ graph.positions := he.mem_iff.mp (by rw [eq]; simp)
  have ma := parent_mem (mem_children.mpr ⟨mi, hp⟩)
  have inA := he.partition.self a ma
  have isPart : part a ∈ parts graph.positions part := mem_parts.mpr ⟨a, ma, rfl⟩
  have earlier := he.greedy.needs_before split isPart ⟨fun hs => own (hs ▸ inA), i, inC, a, inA, hp⟩
  have mA : part a ∈ chunks := (he.greedy.mem _).mpr isPart
  exact mem_append_left _ (mem_flatMap.mpr ⟨part a, earlier, (he.mem_order mA).mpr inA⟩)

end

variable {level : Finset ℕ → ℕ}

variable (he : Emitted graph fallback part chunks order) (hl : Layered (graph.network hpos) part level)
include he hl

lemma falling : chunks.Pairwise fun C D =>
    (graph.network hpos).rate D ≤ (graph.network hpos).rate C := by
  refine he.greedy.falling level (fun _ => le_refl _) (fun _ _ _ first hse => hse.trans first) ?_ ?_
  · rintro A isA B isB ⟨ne, c, inA, p, inB, hp⟩
    obtain ⟨t, mt, rfl⟩ := mem_parts.mp isA
    obtain ⟨u, mu, rfl⟩ := mem_parts.mp isB
    have isDep := mem_children.mpr ⟨he.partition.sub t mt inA, hp⟩
    rw [← he.partition.same t mt c inA, ← he.partition.same u mu p inB] at ne ⊢
    exact ⟨hl.ascends p c isDep ne.symm, hl.falling p c isDep ne.symm⟩
  · intro A B first
    rw [← feeRate_rate, ← feeRate_rate]
    rcases first with lower | ⟨hs, -⟩
    · exact lower.le
    · exact hs.le

/-- Some beginning of the linearization is worth the potential of the parts. -/
lemma attained (r : ℚ) : ∃ p q, chunks.flatMap order = p ++ q ∧
    (graph.network hpos).weight r p.toFinset = (graph.network hpos).potential part r := by
  let high := chunks.takeWhile fun C => decide (r < (graph.network hpos).rate C)
  refine ⟨high.flatMap order, (chunks.dropWhile fun C =>
    decide (r < (graph.network hpos).rate C)).flatMap order, ?_, ?_⟩
  · rw [← flatMap_append, takeWhile_append_dropWhile]
  have mem_high : ∀ {t}, t ∈ (high.flatMap order).toFinset ↔
    t ∈ graph.positions ∧ r < (graph.network hpos).rate (part t) := by
    intro t
    simp only [mem_toFinset, mem_flatMap, high, mem_takeWhile_of_falling (he.falling hl)]
    constructor
    · rintro ⟨C, ⟨mC, up⟩, mt⟩
      rw [he.mem_order mC] at mt
      obtain ⟨u, mu, rfl⟩ := he.mem_chunks.mp mC
      rw [he.partition.same u mu t mt]
      exact ⟨he.partition.sub u mu mt, up⟩
    · rintro ⟨mt, up⟩
      have mC := he.mem_chunks.mpr ⟨t, mt, rfl⟩
      exact ⟨part t, ⟨mC, up⟩, (he.mem_order mC).mpr (he.partition.self t mt)⟩
  refine weight_eq_potential he.partition (fun t hi => (mem_high.mp hi).1) ?_ ?_ ?_
  · intro t mt u inT
    rw [mem_high, mem_high, he.partition.same t mt u inT]
    exact and_congr_left' (iff_of_true (he.partition.sub t mt inT) mt)
  · exact fun t hi => (mem_high.mp hi).2.le
  · exact fun t mt up => mem_high.mpr ⟨mt, up⟩

end Emitted

end

section
variable {l : List ℕ}

lemma size_pos (hpos : graph.Positive) {i : ℕ} (mi : i ∈ graph.positions) :
  0 < size graph i := Int.cast_pos.mpr (hpos i mi)

/-- What some transactions are worth, as a gain. -/
lemma weight_toFinset (nodup : l.Nodup) (r : ℚ) :
  (graph.network hpos).weight r l.toFinset = (stepOf graph l).gain r := by
  rw [weight_eq, sum_toFinset _ nodup, sum_toFinset _ nodup]
  rfl

lemma rate_toFinset (nodup : l.Nodup) :
  (graph.network hpos).rate l.toFinset = (stepOf graph l).slope := by
  rw [rate, sum_toFinset _ nodup, sum_toFinset _ nodup]
  rfl

/-- The diagram of an order of all transactions. -/
structure Drawn (graph : DepGraph) (positive : graph.Positive) (linearization : List ℕ) : Prop where
  forward : Forward (diagram graph linearization)
  falling : Falling (diagram graph linearization)
  runs : totalRun (diagram graph linearization) = ∑ i ∈ graph.positions, size graph i
  rises : totalRise (diagram graph linearization) = ∑ i ∈ graph.positions, fee graph i
  bounded : ∀ r p q, linearization = p ++ q → (graph.network positive).weight r p.toFinset ≤
    potential r (diagram graph linearization)
  attained : ∀ r, ∃ p q, linearization = p ++ q ∧
    (graph.network positive).weight r p.toFinset = potential r (diagram graph linearization)

lemma drawn (hpos : graph.Positive) {linearization : List ℕ}
  (perm : linearization.Perm (ascending graph.positions)) : Drawn graph hpos linearization := by
  have nodup := perm.nodup_iff.mpr (nodup_ascending _)
  obtain ⟨segments, eq, flat, hc⟩ := chunkLinearizationInfo_spec graph linearization
    fun i mi => size_pos hpos (mem_ascending.mp (perm.mem_iff.mp mi))
  have drawing := diagram_eq eq
  have sums : ∀ f : ℕ → ℚ, (segments.map fun l => (l.map f).sum).sum =
    ∑ i ∈ graph.positions, f i := by
    intro f
    rw [← sum_ascending, ← (perm.map f).sum_eq, ← flat, map_flatten, sum_flatten, map_map]
    rfl
  constructor
  · rw [drawing]
    exact hc.forward
  · rw [drawing]
    exact hc.falling
  · rw [drawing, totalRun, map_map, ← sums]
    rfl
  · rw [drawing, totalRise, map_map, ← sums]
    rfl
  · intro r p q split
    rw [drawing, weight_toFinset (nodup.sublist (split ▸ sublist_append_left p q))]
    exact hc.gain_le (flat.trans split) r
  · intro r
    obtain ⟨p, q, split, gain⟩ := hc.gain_attained r
    rw [flat] at split
    refine ⟨p, q, split, ?_⟩
    rw [drawing, weight_toFinset (nodup.sublist (split ▸ sublist_append_left p q))]
    exact gain

/-- A linearization is at least as good as another where one of its beginnings is worth whatever
a beginning of the other is worth. -/
lemma diagram_le {old new : List ℕ} (drawn : Drawn graph hpos old) (hd' : Drawn graph hpos new)
  (hb : ∀ r p q, old = p ++ q → ∃ p' q', new = p' ++ q' ∧ (graph.network hpos).weight r p.toFinset ≤
      (graph.network hpos).weight r p'.toFinset) {x : ℚ} (hs : 0 ≤ x) :
  height (diagram graph old) x ≤ height (diagram graph new) x := by
  refine height_le_height drawn.forward hd'.forward hd'.falling
    (drawn.runs.trans hd'.runs.symm) (drawn.rises.trans hd'.rises.symm).le ?_ hs
  intro r
  obtain ⟨p, q, split, worth⟩ := drawn.attained r
  obtain ⟨p', q', split', more⟩ := hb r p q split
  calc potential r (diagram graph old) = (graph.network hpos).weight r p.toFinset := worth.symm
    _ ≤ (graph.network hpos).weight r p'.toFinset := more
    _ ≤ potential r (diagram graph new) := hd'.bounded r p' q' split'

variable {fallback : FallbackOrder graph} {part : ℕ → Finset ℕ} {chunks : List (Finset ℕ)}
  {order : Finset ℕ → List ℕ} {level : Finset ℕ → ℕ}

lemma Emitted.chunked (he : Emitted graph fallback part chunks order)
  (hl : Layered (graph.network hpos) part level)
  (minimal : ∀ i ∈ graph.positions, (graph.network hpos).Minimal (part i)) :
  Chunked graph (chunks.map order) := by
  have whole : ∀ C ∈ chunks, (order C).toFinset = C := by
    intro C mC
    ext i
    rw [mem_toFinset, he.mem_order mC]
  have rate : ∀ C ∈ chunks, (stepOf graph (order C)).slope = (graph.network hpos).rate C := by
    intro C mC
    rw [← rate_toFinset (he.inOrder C mC).nodup, whole C mC]
  have pos : ∀ C ∈ chunks, ∀ i ∈ order C, 0 < size graph i := by
    intro C mC i mi
    exact size_pos hpos (he.mem_iff.mp (mem_flatMap.mpr ⟨C, mC, mi⟩))
  constructor
  · intro l ml empty
    obtain ⟨C, mC, rfl⟩ := mem_map.mp ml
    obtain ⟨t, mt, rfl⟩ := he.mem_chunks.mp mC
    have listed := (he.mem_order mC).mpr (he.partition.self t mt)
    rw [empty] at listed
    cases listed
  · intro l ml
    obtain ⟨C, mC, rfl⟩ := mem_map.mp ml
    exact pos C mC
  · intro l ml p q split hnp hnq
    obtain ⟨C, mC, rfl⟩ := mem_map.mp ml
    have nodup := (he.inOrder C mC).nodup
    have sub : p.toFinset ⊆ C := by
      intro i mi
      rw [← he.mem_order mC, split]
      exact mem_append_left _ (mem_toFinset.mp mi)
    -- a parent of what is listed is listed before
    have closed : (graph.network hpos).ClosedIn C p.toFinset := by
      refine ⟨sub, fun a c hd hi own => ?_⟩
      obtain ⟨p₁, p₂, rfl⟩ := append_of_mem (mem_toFinset.mp hi)
      have earlier := (he.inOrder C mC).needs_before
        (split.trans (append_assoc p₁ (c :: p₂) q)) own (mem_children.mp hd).2
      exact mem_toFinset.mpr (mem_append_left _ earlier)
    have proper : p.toFinset ≠ C := by
      obtain ⟨i, mi⟩ := exists_mem_of_ne_nil q hnq
      intro all
      have inC : i ∈ C := (he.mem_order mC).mp (split ▸ mem_append_right p mi)
      rw [split, nodup_append] at nodup
      exact nodup.2.2 i (mem_toFinset.mp (all ▸ inC)) i mi rfl
    obtain ⟨t, mt, rfl⟩ := he.mem_chunks.mp mC
    have low := minimal t mt _ closed (by simpa using hnp) proper
    rw [weight_toFinset (nodup.sublist (split ▸ sublist_append_left p q)), ← rate _ mC,
      Step.gain_neg] at low
    · exact low
    · exact whole_run_pos (fun i mi => pos _ mC i (split ▸ mem_append_left q mi)) hnp
  · rw [Falling, map_map, pairwise_map]
    refine (he.falling hl).imp_of_mem fun {C D} mC mD lower => ?_
    change (stepOf graph (order D)).slope ≤ (stepOf graph (order C)).slope
    rw [rate C mC, rate D mD]
    exact lower

end

section
variable {isTopological : Bool} {old : List ℕ}

/-- An old linearization that `Linearize` can be given. -/
structure ValidOld (graph : DepGraph) (old : List ℕ) (isTopological : Bool) : Prop where
  ordering : old = [] ∨ old.Perm (ascending graph.positions)
  topological : isTopological = true → IsTopological graph old

/-- The forest for an old linearization is in order, and worth as much as any beginning of it. -/
lemma loadForest_spec (hpos : graph.Positive) (rng : Rng) (hv : ValidOld graph old isTopological) :
  Rep graph (loadForest graph rng old isTopological) ∧
    (loadForest graph rng old isTopological).suboptimalChunks = [] ∧
    (graph.network hpos).Ordered (chunkOf graph (loadForest graph rng old isTopological)) ∧
    (IsTopological graph old → ∀ r p q, old = p ++ q →
      (graph.network hpos).weight r p.toFinset ≤ (graph.network hpos).potential
        (chunkOf graph (loadForest graph rng old isTopological)) r) := by
  have rep := rep_init graph rng
  have single : ∀ i ∈ graph.positions, chunkOf graph (init graph rng) i = {i} := by
    intro i mi
    rw [chunkOf_eq mi, setInfo_init rng mi]
    rfl
  rw [loadForest]
  by_cases empty : old = []
  · rw [if_neg (not_not.mpr empty)]
    obtain ⟨rep', ho, -, queue⟩ := makeTopological_spec hpos rep rfl
    refine ⟨rep', queue, ho, fun _ r p q split => ?_⟩
    have emptyP : p = [] := (append_eq_nil_iff.mp (split.symm.trans empty)).1
    rw [emptyP, toFinset_nil, weight_empty]
    exact Finset.sum_nonneg fun C _ => le_max_left _ _
  rw [if_pos empty]
  have perm := hv.ordering.resolve_left empty
  have all : ∀ i, i ∈ old ↔ i ∈ graph.positions := fun i =>
    perm.mem_iff.trans mem_ascending
  have loaded := fun ht => load_topological hpos
    (perm.nodup_iff.mpr (nodup_ascending _)) all ht rep single
  simp only
  split_ifs with hto
  · obtain ⟨rep', ho, worth, queues⟩ := loaded (hv.topological hto)
    exact ⟨rep', queues.suboptimalChunks, ho, fun _ r p q split => worth p q r split⟩
  obtain ⟨rep', queues⟩ := load_rep hpos (fun i mi => (all i).mp mi) rep
  obtain ⟨rep'', ho, hk, queue⟩ := makeTopological_spec hpos rep' queues.suboptimalChunks
  refine ⟨rep'', queue, ho, fun ht r p q split => ?_⟩
  obtain ⟨-, ho', worth, -⟩ := loaded ht
  rw [(hk ho').chunkOf_eq]
  exact worth p q r split

/-- What `Linearize` returns is read off a forest in layers, worth as much as the first one. If it
is reported as optimal, all chunks are minimal. -/
theorem linearize_forest (hpos : graph.Positive) (maxCost : ℕ) (rng : Rng)
  (fallback : FallbackOrder graph) (hv : ValidOld graph old isTopological) :
  ∃ s level, (linearize graph maxCost rng fallback old isTopological).linearization =
      s.getLinearization fallback ∧
    Rep graph s ∧ Layered (graph.network hpos) (chunkOf graph s) level ∧
    (∀ r, (graph.network hpos).potential
        (chunkOf graph (loadForest graph rng old isTopological)) r ≤
      (graph.network hpos).potential (chunkOf graph s) r) ∧
    ((linearize graph maxCost rng fallback old isTopological).optimal = true →
      ∀ i ∈ graph.positions, (graph.network hpos).Minimal (chunkOf graph s i)) := by
  obtain ⟨rep, queue, ho, -⟩ := loadForest_spec hpos rng hv
  rw [linearize]
  generalize loadForest graph rng old isTopological = forest at rep queue ho ⊢
  by_cases start : forest.cost < maxCost
  · simp only [if_pos start]
    obtain ⟨opt, hd⟩ := optimizeLoop_spec maxCost maxCost forest.startOptimizing
      (startOptimizing_spec rep queue ho) (Nat.le_add_right _ _)
    generalize optimizeLoop graph maxCost maxCost forest.startOptimizing = best at opt hd ⊢
    by_cases left : best.cost < maxCost
    · simp only [if_pos left]
      obtain ⟨min, hf⟩ := minimizeLoop_spec maxCost maxCost best.startMinimizing
        (startMinimizing_spec opt (hd left))
      generalize minimizeLoop graph maxCost maxCost best.startMinimizing = result at min hf ⊢
      obtain ⟨level, hl⟩ := min.layered
      refine ⟨result.2, level, rfl, min.rep, hl, min.keeps, fun optimal i mi => ?_⟩
      rcases min.waiting i mi with minimal | ⟨entry, hw, -⟩
      · exact minimal
      · rw [hf optimal] at hw
        cases hw
    · simp only [if_neg left]
      exact ⟨best, _, rfl, opt.rep, of_ordered opt.inOrder, opt.keeps,
        fun optimal => by cases optimal⟩
  · simp only [if_neg start]
    exact ⟨forest, _, rfl, rep, of_ordered ho, fun _ => le_refl _,
      fun optimal => by cases optimal⟩

end

variable {old old' : List ℕ} {isTopological isTopological' : Bool}

lemma closed_of_isTopological (hpos : graph.Positive) {l p q : List ℕ}
  (perm : l.Perm (ascending graph.positions)) (ht : IsTopological graph l)
  (split : l = p ++ q) : (graph.network hpos).Closed p.toFinset := by
  constructor
  · intro i mi
    have listed : i ∈ l := split ▸ mem_append_left q (mem_toFinset.mp mi)
    exact mem_ascending.mp (perm.mem_iff.mp listed)
  intro a c hd hi
  obtain ⟨mc, hp⟩ := mem_children.mp hd
  obtain ⟨ha, ne⟩ := parent_ancestor mc hp
  obtain ⟨p₁, p₂, rfl⟩ := append_of_mem (mem_toFinset.mp hi)
  have earlier := ht p₁ c (p₂ ++ q) (by simp [split]) a ha ne
  exact mem_toFinset.mpr (mem_append_left _ earlier)

/-- A parent, and a child that pays for it. -/
def payingChild : DepGraph where
  entries i := if i = 0 then ⟨⟨1, 2⟩, {0}, {0, 1}⟩ else ⟨⟨3, 1⟩, {0, 1}, {1}⟩
  used := {0, 1}
  self := by decide
  inUse := by decide
  trans := by decide
  inUse' := by decide
  converse := by decide

lemma payingChild_positive : payingChild.Positive := by
  unfold DepGraph.Positive
  decide

lemma payingChild_valid (old : List ℕ) (ho : old = [] ∨ old.Perm [0, 1]) :
  ValidOld payingChild old false :=
  ⟨ho, fun no => by cases no⟩

def byPosition (graph : DepGraph) : FallbackOrder graph where
  compare := compare
  refl i _ := compare_eq_iff_eq.mpr rfl
  eq i _ j _ := compare_eq_iff_eq.mp
  swap i _ j _ := (Nat.compare_swap j i).symm
  trans i _ j _ k _ first second := by
    rw [compare_lt_iff_lt] at first second ⊢
    exact first.trans second

/-- `Linearize` returns a topological order of the transactions, and its diagram is nowhere below
that of a topological old linearization. -/
theorem linearize_sound (acyclic : graph.isAcyclic = true) (positive : graph.Positive) (maxCost : ℕ)
  (rng : Rng) (fallback : FallbackOrder graph) (valid : ValidOld graph old isTopological) :
  let new := (linearize graph maxCost rng fallback old isTopological).linearization
  new.Perm (ascending graph.positions) ∧ IsTopological graph new ∧
    (old.Perm (ascending graph.positions) → IsTopological graph old → ∀ x, 0 ≤ x →
      height (diagram graph old) x ≤ height (diagram graph new) x) := by
  obtain ⟨s, level, eq, rep, hl, hk, -⟩ := linearize_forest positive maxCost rng fallback valid
  obtain ⟨chunks, order, flat, emitted⟩ := getLinearization_emitted fallback acyclic rep hl
  rw [flat] at eq
  simp only [eq]
  refine ⟨emitted.perm, emitted.isTopological, fun perm ht x start => ?_⟩
  refine diagram_le (drawn positive perm) (drawn positive emitted.perm) ?_ start
  intro r p q split
  obtain ⟨-, -, -, worth⟩ := loadForest_spec positive rng valid
  obtain ⟨p', q', split', attained⟩ := emitted.attained hl r
  refine ⟨p', q', split', ?_⟩
  rw [attained]
  exact (worth ht r p q split).trans (hk r)

theorem linearize_sound_payingChild :
  let new := (linearize payingChild 1000 ⟨id, 0⟩ (byPosition _) [0, 1] false).linearization
  new.Perm [0, 1] ∧ IsTopological payingChild new ∧
    ∀ x, 0 ≤ x → height (diagram payingChild [0, 1]) x ≤ height (diagram payingChild new) x := by
  obtain ⟨perm, order, better⟩ := linearize_sound (by decide) payingChild_positive 1000 ⟨id, 0⟩
    (byPosition _) (payingChild_valid [0, 1] (.inr (.refl _)))
  refine ⟨perm, order, better (.refl _) fun p i q split a mem ne => ?_⟩
  rcases p with _ | ⟨_, _ | ⟨_, p⟩⟩
  · cases split
    exact absurd (Finset.mem_singleton.mp mem) ne
  · cases split
    have either : a = 0 ∨ a = 1 := by
      simpa using show a ∈ ({0, 1} : Finset ℕ) from mem
    simpa [ne] using either
  · simp at split

/-- If no sum overflows, a result that is reported as optimal has the best diagram of all topological
orders, and its chunks are minimal. -/
theorem linearize_optimal (acyclic : graph.isAcyclic = true) (positive : graph.Positive)
  (maxCost : ℕ) (rng : Rng) (fallback : FallbackOrder graph)
  (valid : ValidOld graph old isTopological)
  (optimal : (linearize graph maxCost rng fallback old isTopological).optimal = true) :
  let new := (linearize graph maxCost rng fallback old isTopological).linearization
  (∀ other, other.Perm (ascending graph.positions) → IsTopological graph other → ∀ x, 0 ≤ x →
      height (diagram graph other) x ≤ height (diagram graph new) x) ∧
    ∀ chunk ∈ chunkLinearizationInfo graph new, ∀ S ⊆ chunk.transactions, S.Nonempty →
      S ≠ chunk.transactions →
      (∀ i ∈ S, ∀ a ∈ graph.ancestors i, a ∈ chunk.transactions → a ∈ S) →
      (graph.feeRate S).rate < chunk.feerate.rate := by
  obtain ⟨s, level, eq, rep, hl, -, min⟩ := linearize_forest positive maxCost rng fallback valid
  have minimal := min optimal
  obtain ⟨chunks, order, flat, emitted⟩ := getLinearization_emitted fallback acyclic rep hl
  rw [flat] at eq
  simp only [eq]
  constructor
  · intro other perm ht x start
    refine diagram_le (drawn positive perm) (drawn positive emitted.perm) ?_ start
    intro r p q split
    obtain ⟨p', q', split', attained⟩ := emitted.attained hl r
    refine ⟨p', q', split', ?_⟩
    rw [attained]
    exact (Network.tight_of_minimal emitted.partition minimal).weight_le emitted.partition
      (closed_of_isTopological positive perm ht split) r
  intro chunk hch S sub nonempty hp hc
  obtain ⟨segments, infos, flat', hchu⟩ := chunkLinearizationInfo_spec graph
    (chunks.flatMap order) fun i mi => size_pos positive (emitted.mem_iff.mp mi)
  have segments_eq : segments = chunks.map order :=
    hchu.unique (emitted.chunked hl minimal) (flat'.trans (flatMap_def ..))
  rw [infos, segments_eq, map_map] at hch
  obtain ⟨C, mC, rfl⟩ := mem_map.mp hch
  have transactions : (infoOf graph (order C)).transactions = C := by
    ext i
    rw [infoOf, mem_toFinset, emitted.mem_order mC]
  simp only [Function.comp_apply, transactions] at sub hp hc ⊢
  obtain ⟨t, mt, rfl⟩ := emitted.mem_chunks.mp mC
  have mem := emitted.partition.sub t mt
  have closedIn : (graph.network positive).ClosedIn (chunkOf graph s t) S := by
    refine ⟨sub, fun a c hd hi own => ?_⟩
    obtain ⟨mc, hpa⟩ := mem_children.mp hd
    exact hc c hi a (parent_ancestor mc hpa).1 own
  have low := minimal t mt S closedIn nonempty hp
  rw [Network.weight_neg (sub.trans mem) nonempty] at low
  rw [infoOf_rate, ← rate_toFinset (emitted.inOrder _ mC).nodup, feeRate_rate positive]
  change _ < (graph.network positive).rate (infoOf graph (order _)).transactions
  rwa [transactions]

theorem linearize_optimal_payingChild :
  (linearize payingChild 1000 ⟨id, 0⟩ (byPosition _) [1, 0] false).optimal = true ∧
    ∀ other, other.Perm [0, 1] → IsTopological payingChild other → ∀ x, 0 ≤ x →
      height (diagram payingChild other) x ≤ height (diagram payingChild
        (linearize payingChild 1000 ⟨id, 0⟩ (byPosition _) [1, 0] false).linearization) x := by
  have optimal : (linearize payingChild 1000 ⟨id, 0⟩ (byPosition _) [1, 0] false).optimal =
    true := by decide +kernel
  exact ⟨optimal, (linearize_optimal (by decide) payingChild_positive 1000 ⟨id, 0⟩ (byPosition _)
    (payingChild_valid [1, 0] (.inr (.swap 0 1 []))) optimal).1⟩

/-- If no sum overflows, any two results that are reported as optimal are the same. -/
theorem linearize_canonical (acyclic : graph.isAcyclic = true) (positive : graph.Positive)
  (fallback : FallbackOrder graph) (maxCost maxCost' : ℕ) (rng rng' : Rng)
  (valid : ValidOld graph old isTopological) (valid' : ValidOld graph old' isTopological')
  (optimal : (linearize graph maxCost rng fallback old isTopological).optimal = true)
  (optimal' : (linearize graph maxCost' rng' fallback old' isTopological').optimal = true) :
  (linearize graph maxCost rng fallback old isTopological).linearization =
    (linearize graph maxCost' rng' fallback old' isTopological').linearization := by
  obtain ⟨s, level, eq, rep, hl, -, min⟩ := linearize_forest positive maxCost rng fallback valid
  obtain ⟨s', level', eq', rep', hl', -, min'⟩ :=
    linearize_forest positive maxCost' rng' fallback valid'
  obtain ⟨chunks, order, flat, emitted⟩ := getLinearization_emitted fallback acyclic rep hl
  obtain ⟨chunks', order', flat', he'⟩ := getLinearization_emitted fallback acyclic rep' hl'
  have same : ∀ i ∈ graph.positions, chunkOf graph s i = chunkOf graph s' i := fun i mi =>
    hl.unique hl' emitted.partition he'.partition (min optimal) (min' optimal') mi
  have parts_eq : parts graph.positions (chunkOf graph s') =
    parts graph.positions (chunkOf graph s) := by
    ext C
    rw [mem_parts, mem_parts]
    exact exists_congr fun i => and_congr_right fun mi => by rw [same i mi]
  have chunks_eq : chunks = chunks' :=
    chunkOrder_unique emitted.partition emitted.greedy (parts_eq ▸ he'.greedy)
  rw [eq, eq', flat, flat', ← chunks_eq]
  refine flatMap_congr fun C mC => ?_
  obtain ⟨t, mt, rfl⟩ := emitted.mem_chunks.mp mC
  exact txOrder_unique (emitted.partition.sub t mt) (emitted.inOrder _ mC)
    (he'.inOrder _ (chunks_eq ▸ mC))

theorem linearize_canonical_payingChild :
  (linearize payingChild 1000 ⟨id, 0⟩ (byPosition _) [1, 0] false).linearization =
    (linearize payingChild 2000 ⟨fun _ => 7, 3⟩ (byPosition _) [] false).linearization :=
  linearize_canonical (by decide) payingChild_positive (byPosition _) 1000 2000 ⟨id, 0⟩
    ⟨fun _ => 7, 3⟩ (payingChild_valid [1, 0] (.inr (.swap 0 1 [])))
    (payingChild_valid [] (.inl rfl)) (by decide +kernel) (by decide +kernel)

end ClusterLinearize
