import Andaluzcoin.SpanningForest
import Andaluzcoin.CutForest

/-!
# What a spanning-forest state represents

The chunks of a state and the top sets of its active dependencies make a forest given by its
cuts. `Activate` joins two of its parts and `Deactivate` cuts an edge, and both keep the indexes,
the feerates and the reachable transactions that the state stores with the sets.
-/

namespace ClusterLinearize

open CutForest List Function DepGraph Cuts SetInfo
open Finset (sum_union sum_sdiff mem_insert union_comm mem_union mem_sdiff mem_erase)

namespace DepGraph

variable {G : DepGraph} {A B : Finset ℕ} {c p : ℕ}

lemma mem_children : c ∈ G.children p ↔ c ∈ G.positions ∧ p ∈ G.getReducedParents c :=
  Finset.mem_filter

lemma parent_mem (hc : c ∈ G.children p) : p ∈ G.positions := by
  obtain ⟨mc, hp⟩ := mem_children.mp hc
  exact G.inUse c mc (parent_ancestor mc hp).1

lemma feeRate_union (disjoint : Disjoint A B) : G.feeRate (A ∪ B) = G.feeRate A + G.feeRate B := by
  rw [feeRate_eq, feeRate_eq, feeRate_eq, sum_union disjoint, sum_union disjoint]
  rfl

lemma feeRate_sdiff (sub : B ⊆ A) : G.feeRate (A \ B) = G.feeRate A - G.feeRate B := by
  rw [feeRate_eq, feeRate_eq, feeRate_eq]
  ext
  · exact eq_sub_of_add_eq (sum_sdiff sub)
  · exact eq_sub_of_add_eq (sum_sdiff sub)

section
variable {a b : SetInfo} (ha : a.feerate = G.feeRate a.transactions)
  (hb : b.feerate = G.feeRate b.transactions)
include ha hb

lemma feerate_union (disjoint : Disjoint a.transactions b.transactions) :
  (a.union b).feerate = G.feeRate (a.union b).transactions := by
  change _ + _ = G.feeRate (_ ∪ _)
  rw [feeRate_union disjoint, ha, hb]

lemma feerate_sdiff (sub : b.transactions ⊆ a.transactions) :
  (a.sdiff b).feerate = G.feeRate (a.sdiff b).transactions := by
  change _ - _ = G.feeRate (_ \ _)
  rw [feeRate_sdiff sub, ha, hb]

end

lemma feeRate_single (i : ℕ) : G.feeRate {i} = G.feerate i := by
  rw [feeRate_eq, Finset.sum_singleton, Finset.sum_singleton]

end DepGraph

namespace SpanningForestState

variable {G : DepGraph} {s : SpanningForestState} {i : ℕ} {e : ℕ × ℕ}

/-- The forest of the active dependencies. -/
def cuts (G : DepGraph) (s : SpanningForestState) : Cuts ℕ where
  edges := G.positions.biUnion fun p => (s.activeChildren p).image fun c => (p, c)
  part i := (s.setInfo (s.chunkIdx i)).transactions
  top e := (s.setInfo (s.depTopIdx e.1 e.2)).transactions

lemma mem_edges : e ∈ (cuts G s).edges ↔ e.1 ∈ G.positions ∧ e.2 ∈ s.activeChildren e.1 := by
  simp only [cuts, Finset.mem_biUnion, Finset.mem_image]
  constructor
  · rintro ⟨p, mp, c, mc, rfl⟩
    exact ⟨mp, mc⟩
  · rintro ⟨mp, mc⟩
    exact ⟨e.1, mp, e.2, mc, rfl⟩

/-- The stored sets are those of the forest. -/
structure Rep (G : DepGraph) (s : SpanningForestState) : Prop where
  span : Spanning G.positions (cuts G s)
  active : ∀ e ∈ (cuts G s).edges, e.2 ∈ G.children e.1
  chunk : ∀ i ∈ G.positions, s.chunkIdx i ∈ s.chunkIdxs
  owner : ∀ idx ∈ s.chunkIdxs, ∃ i ∈ G.positions, s.chunkIdx i = idx
  home : ∀ i ∈ G.positions, ∀ j ∈ (cuts G s).part i, s.chunkIdx j = s.chunkIdx i
  fresh : ∀ e ∈ (cuts G s).edges, s.depTopIdx e.1 e.2 ∉ s.chunkIdxs
  inj : ∀ e ∈ (cuts G s).edges, ∀ d ∈ (cuts G s).edges,
    s.depTopIdx e.1 e.2 = s.depTopIdx d.1 d.2 → e = d
  chunkRate : ∀ idx ∈ s.chunkIdxs,
    (s.setInfo idx).feerate = G.feeRate (s.setInfo idx).transactions
  topRate : ∀ e ∈ (cuts G s).edges,
    (s.setInfo (s.depTopIdx e.1 e.2)).feerate = G.feeRate ((cuts G s).top e)
  reach : ∀ idx ∈ s.chunkIdxs, s.reachable idx = getReachable G (s.setInfo idx).transactions

lemma mem_activeDeps {T : Finset ℕ} :
  e ∈ s.activeDeps T ↔ e.1 ∈ T ∧ e.2 ∈ s.activeChildren e.1 := by
  simp only [activeDeps, mem_flatMap, mem_map, mem_ascending]
  constructor
  · rintro ⟨i, mi, c, mc, rfl⟩
    exact ⟨mi, mc⟩
  · rintro ⟨mi, mc⟩
    exact ⟨e.1, mi, e.2, mc, rfl⟩

lemma nodup_activeDeps (T : Finset ℕ) : (s.activeDeps T).Nodup := by
  rw [activeDeps, nodup_flatMap]
  constructor
  · intro i _
    exact (nodup_ascending _).map fun a b eq => (Prod.mk.inj eq).2
  refine (nodup_ascending T).imp fun {a b} ne => ?_
  rw [onFun, disjoint_left]
  intro e inA inB
  obtain ⟨c, -, rfl⟩ := mem_map.mp inA
  obtain ⟨c', -, eq⟩ := mem_map.mp inB
  exact ne (Prod.mk.inj eq).1.symm

section
variable {deps : List (ℕ × ℕ)} {pivot : ℕ} {change : SetInfo → SetInfo} {setInfo : ℕ → SetInfo}

lemma changeTops_other {idx : ℕ} (ho : ∀ d ∈ deps, s.depTopIdx d.1 d.2 ≠ idx) :
  s.changeTops deps pivot change setInfo idx = setInfo idx := by
  induction deps generalizing setInfo with
  | nil => rfl
  | cons d deps ih =>
    have ne := ho d (.head _)
    rw [changeTops, foldl_cons, ← changeTops, ih fun d md => ho d (.tail _ md)]
    split_ifs
    · rw [update_of_ne (Ne.symm ne)]
    · rfl

/-- Each dependency has an index of its own, so that its top set is changed once. -/
lemma changeTops_mem (nodup : deps.Nodup)
  (inj : ∀ e ∈ deps, ∀ d ∈ deps, s.depTopIdx e.1 e.2 = s.depTopIdx d.1 d.2 → e = d)
  {e : ℕ × ℕ} (me : e ∈ deps) : s.changeTops deps pivot change setInfo (s.depTopIdx e.1 e.2) =
    if pivot ∈ (setInfo (s.depTopIdx e.1 e.2)).transactions
      then change (setInfo (s.depTopIdx e.1 e.2)) else setInfo (s.depTopIdx e.1 e.2) := by
  induction deps generalizing setInfo with
  | nil => cases me
  | cons d deps ih =>
    obtain ⟨hi, hn'⟩ := nodup_cons.mp nodup
    have inj' : ∀ e ∈ deps, ∀ d ∈ deps, s.depTopIdx e.1 e.2 = s.depTopIdx d.1 d.2 → e = d :=
      fun e me d md => inj e (.tail _ me) d (.tail _ md)
    rw [changeTops, foldl_cons, ← changeTops]
    by_cases isHead : e = d
    · subst isHead
      rw [changeTops_other]
      · split_ifs with inTop
        · rw [update_self]
        · rfl
      · intro f mf eq
        exact hi (inj f (.tail _ mf) e (.head _) eq ▸ mf)
    have rest := (mem_cons.mp me).resolve_left isHead
    have ne : s.depTopIdx e.1 e.2 ≠ s.depTopIdx d.1 d.2 := fun eq =>
      isHead (inj e me d (.head _) eq)
    have same : (if pivot ∈ (setInfo (s.depTopIdx d.1 d.2)).transactions
      then update setInfo (s.depTopIdx d.1 d.2)
        (change (setInfo (s.depTopIdx d.1 d.2))) else setInfo) (s.depTopIdx e.1 e.2) =
      setInfo (s.depTopIdx e.1 e.2) := by
      split_ifs
      · exact update_of_ne ne _ _
      · rfl
    rw [ih hn' inj' rest, same]

end

namespace Rep

lemma chunk_sub (rep : Rep G s) {i : ℕ} (mi : i ∈ G.positions) :
  (s.setInfo (s.chunkIdx i)).transactions ⊆ G.positions := rep.span.sub i mi

lemma mem_part (rep : Rep G s) {i j : ℕ} (mi : i ∈ G.positions) (mj : j ∈ G.positions) :
  j ∈ (cuts G s).part i ↔ s.chunkIdx j = s.chunkIdx i := by
  constructor
  · exact rep.home i mi j
  · intro hs
    have self : j ∈ (s.setInfo (s.chunkIdx j)).transactions := rep.span.self j mj
    rwa [hs] at self

/-- The loop over some of the dependencies changes the top sets of these only. -/
lemma changeTops_eq (rep : Rep G s) {deps : List (ℕ × ℕ)} {pivot : ℕ} {change : SetInfo → SetInfo}
  {setInfo : ℕ → SetInfo} (nodup : deps.Nodup) (sub : ∀ d ∈ deps, d ∈ (cuts G s).edges)
  (me : e ∈ (cuts G s).edges) : s.changeTops deps pivot change setInfo (s.depTopIdx e.1 e.2) =
    if e ∈ deps ∧ pivot ∈ (setInfo (s.depTopIdx e.1 e.2)).transactions
      then change (setInfo (s.depTopIdx e.1 e.2)) else setInfo (s.depTopIdx e.1 e.2) := by
  by_cases hi : e ∈ deps
  · rw [changeTops_mem nodup (fun a ma b mb => rep.inj a (sub a ma) b (sub b mb)) hi]
    simp only [hi, true_and]
  · rw [changeTops_other fun d md eq => hi (rep.inj d (sub d md) e me eq ▸ md)]
    simp only [hi, false_and, if_false]

end Rep

/-- Two chunks and an inactive dependency between them. -/
structure Activable (G : DepGraph) (s : SpanningForestState) (p c : ℕ) : Prop where
  rep : Rep G s
  isChild : c ∈ G.children p
  ne : s.chunkIdx p ≠ s.chunkIdx c

namespace Activable

variable {p c : ℕ}

section
variable (act : Activable G s p c)
include act

lemma memP : p ∈ G.positions := parent_mem act.isChild

lemma memC : c ∈ G.positions := (mem_children.mp act.isChild).1

lemma joinable : Joinable G.positions (cuts G s) p c where
  span := act.rep.span
  memP := act.memP
  memC := act.memC
  apart inside := act.ne ((act.rep.mem_part act.memP act.memC).mp inside).symm

lemma edges : (cuts G (s.activate p c).2).edges = insert (p, c) (cuts G s).edges := by
  ext e
  rw [mem_edges, mem_insert, mem_edges]
  simp only [activate]
  by_cases hs : e.1 = p
  · rw [hs, update_self, mem_insert, Prod.ext_iff, hs]
    have := act.memP
    tauto
  · rw [update_of_ne hs, Prod.ext_iff]
    tauto

/-- The set at the index of a chunk or of a top set, after the loops over both chunks. -/
lemma setInfo_top {e : ℕ × ℕ} (me : e ∈ (cuts G s).edges) :
  (s.activate p c).2.setInfo (s.depTopIdx e.1 e.2) = if e.1 ∈ (cuts G s).part p then
      (if p ∈ (cuts G s).top e
        then (s.setInfo (s.depTopIdx e.1 e.2)).union (s.setInfo (s.chunkIdx c))
        else s.setInfo (s.depTopIdx e.1 e.2)) else if e.1 ∈ (cuts G s).part c then
      (if c ∈ (cuts G s).top e
        then (s.setInfo (s.depTopIdx e.1 e.2)).union (s.setInfo (s.chunkIdx p))
        else s.setInfo (s.depTopIdx e.1 e.2)) else s.setInfo (s.depTopIdx e.1 e.2) := by
  have rep := act.rep
  have disjoint := act.joinable.disjoint
  have isActive := (mem_edges.mp me).2
  have notChunk : s.depTopIdx e.1 e.2 ≠ s.chunkIdx c := fun eq =>
    rep.fresh e me (eq ▸ rep.chunk c act.memC)
  have edges : ∀ {i}, i ∈ G.positions → ∀ d ∈ s.activeDeps (s.setInfo (s.chunkIdx i)).transactions,
    d ∈ (cuts G s).edges := by
    intro i mi d md
    obtain ⟨hi, ha⟩ := mem_activeDeps.mp md
    exact mem_edges.mpr ⟨rep.chunk_sub mi hi, ha⟩
  simp only [activate]
  -- a dependency is met by the loop over the chunk of its parent only
  rw [update_of_ne notChunk, rep.changeTops_eq (nodup_activeDeps _) (edges act.memC) me,
    rep.changeTops_eq (nodup_activeDeps _) (edges act.memP) me]
  simp only [mem_activeDeps, isActive, and_true]
  by_cases inP : e.1 ∈ (cuts G s).part p
  · simp only [show e.1 ∉ (s.setInfo (s.chunkIdx c)).transactions from disjoint _ inP,
      show e.1 ∈ (s.setInfo (s.chunkIdx p)).transactions from inP, true_and, false_and, if_false,
      if_pos inP]
    rfl
  · simp only [show e.1 ∉ (s.setInfo (s.chunkIdx p)).transactions from inP, false_and, if_false,
      if_neg inP, ite_and]
    rfl

/-- The other chunks, and the chunk that becomes the top set, keep their sets. -/
lemma setInfo_chunk {idx : ℕ} (hc : idx ∈ s.chunkIdxs)
  (ne : idx ≠ s.chunkIdx c) : (s.activate p c).2.setInfo idx = s.setInfo idx := by
  have rep := act.rep
  have other : ∀ {T : Finset ℕ}, T ⊆ G.positions → ∀ d ∈ s.activeDeps T,
    s.depTopIdx d.1 d.2 ≠ idx := by
    intro T sub d md eq
    obtain ⟨inT, ha⟩ := mem_activeDeps.mp md
    exact rep.fresh d (mem_edges.mpr ⟨sub inT, ha⟩) (eq ▸ hc)
  simp only [activate]
  rw [update_of_ne ne, changeTops_other (other (rep.chunk_sub act.memC)),
    changeTops_other (other (rep.chunk_sub act.memP))]

end

lemma setInfo_merged : (s.activate p c).2.setInfo (s.chunkIdx c) =
  (s.setInfo (s.chunkIdx c)).union (s.setInfo (s.chunkIdx p)) := by
  simp only [activate]
  rw [update_self]

lemma depTopIdx_old (act : Activable G s p c) {e : ℕ × ℕ} (me : e ∈ (cuts G s).edges) :
  (s.activate p c).2.depTopIdx e.1 e.2 = s.depTopIdx e.1 e.2 := by
  have ne := act.joinable.fresh me
  simp only [activate]
  by_cases hs : e.1 = p
  · have ne' : e.2 ≠ c := fun eq => ne (Prod.ext hs eq)
    rw [hs, update_self, update_of_ne ne']
  · rw [update_of_ne hs]

lemma depTopIdx_new : (s.activate p c).2.depTopIdx p c = s.chunkIdx p := by
  simp only [activate]
  rw [update_self, update_self]

lemma chunkIdx_eq (G : DepGraph) (i : ℕ) : (s.activate p c).2.chunkIdx i =
  if i ∈ (cuts G s).part p then s.chunkIdx c else s.chunkIdx i := rfl

variable (act : Activable G s p c)
include act

lemma agrees : Agrees G.positions ((cuts G s).join p c) (cuts G (s.activate p c).2) := by
  have rep := act.rep
  constructor
  · exact act.edges.symm
  · intro i mi
    have chunk := rep.chunk i mi
    change _ = ((s.activate p c).2.setInfo ((s.activate p c).2.chunkIdx i)).transactions
    rw [chunkIdx_eq G]
    by_cases inP : i ∈ (cuts G s).part p
    · rw [if_pos inP, setInfo_merged, join_part (Finset.mem_union_left _ inP)]
      exact union_comm _ _
    rw [if_neg inP]
    by_cases inC : i ∈ (cuts G s).part c
    · rw [rep.home c act.memC i inC, setInfo_merged, join_part (Finset.mem_union_right _ inC)]
      exact union_comm _ _
    have ne : s.chunkIdx i ≠ s.chunkIdx c := fun eq => inC ((rep.mem_part act.memC mi).mpr eq)
    rw [act.setInfo_chunk chunk ne, join_part_away]
    · rfl
    · rw [mem_union, not_or]
      exact ⟨inP, inC⟩
  · intro e me
    change _ = ((s.activate p c).2.setInfo ((s.activate p c).2.depTopIdx e.1 e.2)).transactions
    rcases mem_insert.mp me with rfl | me
    · rw [depTopIdx_new, act.setInfo_chunk (rep.chunk p act.memP) act.ne, join_top_new]
      rfl
    · rw [act.depTopIdx_old me, act.setInfo_top me]
      simp only [join, if_neg (act.joinable.fresh me)]
      split_ifs <;> rfl

lemma chunkIdx_joined {i : ℕ} (hi : i ∈ (cuts G s).part p ∪ (cuts G s).part c) :
  (s.activate p c).2.chunkIdx i = s.chunkIdx c := by
  rw [chunkIdx_eq G]
  split_ifs with inP
  · rfl
  · exact act.rep.home c act.memC i ((mem_union.mp hi).resolve_left inP)

lemma feeRate_merged : ((s.setInfo (s.chunkIdx c)).union (s.setInfo (s.chunkIdx p))).feerate =
    G.feeRate ((s.setInfo (s.chunkIdx c)).union (s.setInfo (s.chunkIdx p))).transactions := by
  have rep := act.rep
  exact feerate_union (rep.chunkRate _ (rep.chunk c act.memC))
    (rep.chunkRate _ (rep.chunk p act.memP)) (Finset.disjoint_right.mpr act.joinable.disjoint)

lemma feeRate_top {e : ℕ × ℕ} (me : e ∈ (cuts G s).edges) :
  ((s.activate p c).2.setInfo (s.depTopIdx e.1 e.2)).feerate =
    G.feeRate ((s.activate p c).2.setInfo (s.depTopIdx e.1 e.2)).transactions := by
  have rep := act.rep
  have rate := rep.topRate e me
  have within := rep.span.topSub e me
  have disjoint := act.joinable.disjoint
  -- the part added to a top set is the one that the top set is not in
  have added : ∀ {q r}, q ∈ G.positions → r ∈ G.positions → e.1 ∈ (cuts G s).part q →
    (∀ u ∈ (cuts G s).part q, u ∉ (cuts G s).part r) →
    ((s.setInfo (s.depTopIdx e.1 e.2)).union (s.setInfo (s.chunkIdx r))).feerate = G.feeRate
        ((s.setInfo (s.depTopIdx e.1 e.2)).union (s.setInfo (s.chunkIdx r))).transactions := by
    intro q r mq mr inQ ha
    rw [rep.span.same q mq _ inQ] at within
    refine feerate_union rate (rep.chunkRate _ (rep.chunk r mr)) ?_
    exact Finset.disjoint_left.mpr fun u ht => ha u (within ht)
  rw [act.setInfo_top me]
  split_ifs with inP _ inC _
  · exact added act.memP act.memC inP disjoint
  · exact rate
  · exact added act.memC act.memP inC fun u inC inP => disjoint u inP inC
  · exact rate
  · exact rate

lemma reachable_merged : (s.activate p c).2.reachable (s.chunkIdx c) = getReachable G
    ((s.setInfo (s.chunkIdx c)).union (s.setInfo (s.chunkIdx p))).transactions := by
  have rep := act.rep
  have reachC := rep.reach _ (rep.chunk c act.memC)
  have reachP := rep.reach _ (rep.chunk p act.memP)
  simp only [activate]
  rw [update_self, reachC, reachP]
  simp only [getReachable, union, Finset.union_biUnion]
  congr 1 <;>
  · ext i
    simp only [mem_sdiff, mem_union]
    tauto

lemma rep_activate : Rep G (s.activate p c).2 := by
  have rep := act.rep
  have agrees := act.agrees
  have chunkC := rep.chunk c act.memC
  have chunks : (s.activate p c).2.chunkIdxs = s.chunkIdxs.erase (s.chunkIdx p) := rfl
  have edgeCases : ∀ {e}, e ∈ (cuts G (s.activate p c).2).edges →
    e = (p, c) ∨ e ∈ (cuts G s).edges := by
    intro e me
    rw [act.edges] at me
    exact mem_insert.mp me
  have outside : ∀ {i}, i ∈ G.positions → i ∉ (cuts G s).part p →
    s.chunkIdx i ≠ s.chunkIdx p := fun mi out eq => out ((rep.mem_part act.memP mi).mpr eq)
  constructor
  · exact act.joinable.join.congr agrees
  · intro e me
    rcases edgeCases me with rfl | me
    · exact act.isChild
    · exact rep.active e me
  · intro i mi
    rw [chunks, mem_erase, chunkIdx_eq G]
    split_ifs with inP
    · exact ⟨act.ne.symm, chunkC⟩
    · exact ⟨outside mi inP, rep.chunk i mi⟩
  · intro idx hc
    rw [chunks, mem_erase] at hc
    obtain ⟨i, mi, rfl⟩ := rep.owner idx hc.2
    refine ⟨i, mi, ?_⟩
    rw [chunkIdx_eq G, if_neg]
    exact fun inP => hc.1 (rep.home p act.memP i inP)
  · intro i mi j hi
    rw [← agrees.part i mi] at hi
    by_cases inI : i ∈ (cuts G s).part p ∪ (cuts G s).part c
    · rw [join_part inI] at hi
      rw [act.chunkIdx_joined inI, act.chunkIdx_joined hi]
    rw [join_part_away inI] at hi
    have inJ := act.joinable.part_away mi inI hi
    rw [mem_union, not_or] at inI inJ
    rw [chunkIdx_eq G, if_neg inJ.1, chunkIdx_eq G, if_neg inI.1]
    exact rep.home i mi j hi
  · intro e me
    rw [chunks, mem_erase]
    rintro ⟨ne, hc⟩
    rcases edgeCases me with rfl | me
    · exact ne depTopIdx_new
    · rw [act.depTopIdx_old me] at hc
      exact rep.fresh e me hc
  · intro e me d md eq
    have old : ∀ {e}, e ∈ (cuts G s).edges →
      (s.activate p c).2.depTopIdx e.1 e.2 ≠ s.chunkIdx p := by
      intro e me eq
      rw [act.depTopIdx_old me] at eq
      exact rep.fresh e me (eq ▸ rep.chunk p act.memP)
    rcases edgeCases me with rfl | me <;> rcases edgeCases md with rfl | md
    · rfl
    · exact absurd (eq.symm.trans depTopIdx_new) (old md)
    · exact absurd (eq.trans depTopIdx_new) (old me)
    · rw [act.depTopIdx_old me, act.depTopIdx_old md] at eq
      exact rep.inj e me d md eq
  · intro idx hc
    rw [chunks, mem_erase] at hc
    by_cases isC : idx = s.chunkIdx c
    · rw [isC, setInfo_merged]
      exact act.feeRate_merged
    · rw [act.setInfo_chunk hc.2 isC]
      exact rep.chunkRate idx hc.2
  · intro e me
    change _ = G.feeRate
      ((s.activate p c).2.setInfo ((s.activate p c).2.depTopIdx e.1 e.2)).transactions
    rcases edgeCases me with rfl | me
    · have chunkP := rep.chunk p act.memP
      rw [depTopIdx_new, act.setInfo_chunk chunkP act.ne]
      exact rep.chunkRate _ chunkP
    · rw [act.depTopIdx_old me]
      exact act.feeRate_top me
  · intro idx hc
    rw [chunks, mem_erase] at hc
    by_cases isC : idx = s.chunkIdx c
    · rw [isC, setInfo_merged]
      exact act.reachable_merged
    · rw [act.setInfo_chunk hc.2 isC, ← rep.reach idx hc.2]
      simp only [activate]
      rw [update_of_ne isC]

end Activable

/-- An active dependency. -/
structure Deactivable (G : DepGraph) (s : SpanningForestState) (p c : ℕ) : Prop where
  rep : Rep G s
  edge : (p, c) ∈ (cuts G s).edges

namespace Deactivable

variable {p c : ℕ}

lemma memP (hd : Deactivable G s p c) : p ∈ G.positions := (mem_edges.mp hd.edge).1

lemma edges : (cuts G (s.deactivate G p c).2).edges = (cuts G s).edges.erase (p, c) := by
  ext e
  rw [mem_edges, mem_erase, mem_edges]
  simp only [deactivate]
  by_cases hs : e.1 = p
  · rw [hs, update_self, mem_erase, ne_eq, ne_eq, Prod.ext_iff, hs]
    tauto
  · rw [update_of_ne hs, ne_eq, Prod.ext_iff]
    tauto

lemma mem_edge {e : ℕ × ℕ} : e ∈ (cuts G (s.deactivate G p c).2).edges ↔
  e ≠ (p, c) ∧ e ∈ (cuts G s).edges := by
  rw [edges, mem_erase]

/-- The bottom set of the dependency. -/
def bottom (s : SpanningForestState) (p c : ℕ) : SetInfo :=
  (s.setInfo (s.chunkIdx p)).sdiff (s.setInfo (s.depTopIdx p c))

lemma setInfo_eq : (s.deactivate G p c).2.setInfo =
  s.changeTops ((s.deactivate G p c).2.activeDeps (bottom s p c).transactions) c
    (fun info => info.sdiff (s.setInfo (s.depTopIdx p c)))
    (s.changeTops ((s.deactivate G p c).2.activeDeps (s.setInfo (s.depTopIdx p c)).transactions) p
      (fun info => info.sdiff (bottom s p c))
      (update s.setInfo (s.chunkIdx p) (bottom s p c))) := rfl

section
variable (hd : Deactivable G s p c) {idx : ℕ}
include hd

lemma top_sub :
  (s.setInfo (s.depTopIdx p c)).transactions ⊆ (s.setInfo (s.chunkIdx p)).transactions :=
  hd.rep.span.topSub _ hd.edge

lemma top_positions : (s.setInfo (s.depTopIdx p c)).transactions ⊆ G.positions :=
  hd.top_sub.trans (hd.rep.chunk_sub hd.memP)

lemma bottom_positions : (bottom s p c).transactions ⊆ G.positions :=
  Finset.sdiff_subset.trans (hd.rep.chunk_sub hd.memP)

/-- The loops change no set at an index other than those of the remaining dependencies. -/
lemma setInfo_other (ho : ∀ e ∈ (cuts G s).edges, e ≠ (p, c) → s.depTopIdx e.1 e.2 ≠ idx) :
  (s.deactivate G p c).2.setInfo idx = update s.setInfo (s.chunkIdx p) (bottom s p c) idx := by
  have notMet : ∀ {S : Finset ℕ}, S ⊆ G.positions →
    ∀ d ∈ (s.deactivate G p c).2.activeDeps S, s.depTopIdx d.1 d.2 ≠ idx := by
    intro S sub d md
    obtain ⟨inS, ha⟩ := mem_activeDeps.mp md
    have edge := mem_edge.mp (mem_edges.mpr ⟨sub inS, ha⟩)
    exact ho d edge.2 edge.1
  rw [setInfo_eq, changeTops_other (notMet hd.bottom_positions),
    changeTops_other (notMet hd.top_positions)]

lemma setInfo_chunk (hc : idx ∈ s.chunkIdxs)
  (ne : idx ≠ s.chunkIdx p) : (s.deactivate G p c).2.setInfo idx = s.setInfo idx := by
  rw [hd.setInfo_other, update_of_ne ne]
  intro e me _ eq
  exact hd.rep.fresh e me (eq ▸ hc)

lemma setInfo_bottom : (s.deactivate G p c).2.setInfo (s.chunkIdx p) = bottom s p c := by
  rw [hd.setInfo_other, update_self]
  intro e me _ eq
  exact hd.rep.fresh e me (eq ▸ hd.rep.chunk p hd.memP)

lemma top_ne : s.depTopIdx p c ≠ s.chunkIdx p := fun eq =>
  hd.rep.fresh _ hd.edge (eq ▸ hd.rep.chunk p hd.memP)

lemma setInfo_top :
  (s.deactivate G p c).2.setInfo (s.depTopIdx p c) = s.setInfo (s.depTopIdx p c) := by
  rw [hd.setInfo_other, update_of_ne hd.top_ne]
  intro e me ne eq
  exact ne (hd.rep.inj e me _ hd.edge eq)

lemma setInfo_dep {e : ℕ × ℕ} (me : e ∈ (cuts G s).edges) (ne : e ≠ (p, c)) :
  (s.deactivate G p c).2.setInfo (s.depTopIdx e.1 e.2) = if e.1 ∈ (cuts G s).top (p, c) then
      (if p ∈ (cuts G s).top e then (s.setInfo (s.depTopIdx e.1 e.2)).sdiff (bottom s p c)
        else s.setInfo (s.depTopIdx e.1 e.2)) else if e.1 ∈ (cuts G s).part p then
      (if c ∈ (cuts G s).top e
        then (s.setInfo (s.depTopIdx e.1 e.2)).sdiff (s.setInfo (s.depTopIdx p c))
        else s.setInfo (s.depTopIdx e.1 e.2)) else s.setInfo (s.depTopIdx e.1 e.2) := by
  have rep := hd.rep
  have isActive : e.2 ∈ (s.deactivate G p c).2.activeChildren e.1 :=
    (mem_edges.mp (mem_edge.mpr ⟨ne, me⟩)).2
  have notChunk : s.depTopIdx e.1 e.2 ≠ s.chunkIdx p := fun eq =>
    rep.fresh e me (eq ▸ rep.chunk p hd.memP)
  have start : update s.setInfo (s.chunkIdx p) (bottom s p c) (s.depTopIdx e.1 e.2) =
    s.setInfo (s.depTopIdx e.1 e.2) := update_of_ne notChunk _ _
  have edges : ∀ {S : Finset ℕ}, S ⊆ G.positions → ∀ d ∈ (s.deactivate G p c).2.activeDeps S,
    d ∈ (cuts G s).edges := by
    intro S sub d md
    obtain ⟨inS, ha⟩ := mem_activeDeps.mp md
    exact (mem_edge.mp (mem_edges.mpr ⟨sub inS, ha⟩)).2
  have inBottom : e.1 ∈ (bottom s p c).transactions ↔
    e.1 ∈ (cuts G s).part p ∧ e.1 ∉ (cuts G s).top (p, c) := mem_sdiff
  rw [setInfo_eq, rep.changeTops_eq (nodup_activeDeps _) (edges hd.bottom_positions) me,
    rep.changeTops_eq (nodup_activeDeps _) (edges hd.top_positions) me, start]
  simp only [mem_activeDeps, isActive, and_true, inBottom]
  by_cases inT : e.1 ∈ (cuts G s).top (p, c)
  · simp only [show e.1 ∈ (s.setInfo (s.depTopIdx p c)).transactions from inT, inT, not_true_eq_false,
      and_false, false_and, true_and, if_false, if_true]
    rfl
  · simp only [show e.1 ∉ (s.setInfo (s.depTopIdx p c)).transactions from inT, inT,
      not_false_eq_true, and_true, false_and, if_false, ite_and]
    rfl

end

lemma chunkIdx_eq (G : DepGraph) (i : ℕ) : (s.deactivate G p c).2.chunkIdx i =
  if i ∈ (cuts G s).top (p, c) then s.depTopIdx p c else s.chunkIdx i := rfl

variable (hd : Deactivable G s p c)
include hd

lemma agrees : Agrees G.positions ((cuts G s).cut (p, c)) (cuts G (s.deactivate G p c).2) := by
  have rep := hd.rep
  constructor
  · exact edges.symm
  · intro i mi
    change _ = ((s.deactivate G p c).2.setInfo ((s.deactivate G p c).2.chunkIdx i)).transactions
    rw [chunkIdx_eq]
    simp only [cut]
    split_ifs with inT inX
    · rw [hd.setInfo_top]
      rfl
    · rw [rep.home p hd.memP i inX, hd.setInfo_bottom]
      rfl
    · rw [hd.setInfo_chunk (rep.chunk i mi)]
      · rfl
      · exact fun eq => inX ((rep.mem_part hd.memP mi).mpr eq)
  · intro e me
    have edge := mem_erase.mp me
    change _ = ((s.deactivate G p c).2.setInfo (s.depTopIdx e.1 e.2)).transactions
    rw [hd.setInfo_dep edge.2 edge.1]
    simp only [cut]
    split_ifs <;> rfl

lemma feeRate_bottom : (bottom s p c).feerate = G.feeRate (bottom s p c).transactions := by
  have rep := hd.rep
  exact feerate_sdiff (rep.chunkRate _ (rep.chunk p hd.memP)) (rep.topRate _ hd.edge) hd.top_sub

lemma feeRate_dep {e : ℕ × ℕ} (me : e ∈ (cuts G s).edges) (ne : e ≠ (p, c)) :
  ((s.deactivate G p c).2.setInfo (s.depTopIdx e.1 e.2)).feerate = G.feeRate
    ((s.deactivate G p c).2.setInfo (s.depTopIdx e.1 e.2)).transactions := by
  have rep := hd.rep
  have rate := rep.topRate e me
  rw [hd.setInfo_dep me ne]
  split_ifs with inT leads inX leads
  · exact feerate_sdiff rate hd.feeRate_bottom (rep.span.beyond_sub_top hd.edge me ne inT leads)
  · exact rate
  · exact feerate_sdiff rate (rep.topRate _ hd.edge)
      (rep.span.top_sub_top hd.edge me ne inX inT leads)
  · exact rate
  · exact rate

lemma rep_deactivate : Rep G (s.deactivate G p c).2 := by
  have rep := hd.rep
  have agrees := hd.agrees
  have memP := hd.memP
  have chunks : (s.deactivate G p c).2.chunkIdxs = insert (s.depTopIdx p c) s.chunkIdxs := rfl
  have ofTop : ∀ {i}, i ∈ (cuts G s).top (p, c) → s.chunkIdx i = s.chunkIdx p :=
    fun inT => rep.home p memP _ (hd.top_sub inT)
  constructor
  · exact (rep.span.cut hd.edge).congr agrees
  · exact fun e me => rep.active e (mem_edge.mp me).2
  · intro i mi
    rw [chunks, mem_insert, chunkIdx_eq]
    split_ifs
    · exact .inl rfl
    · exact .inr (rep.chunk i mi)
  · intro idx hc
    rw [chunks, mem_insert] at hc
    rcases hc with rfl | hc
    · exact ⟨p, memP, by rw [chunkIdx_eq, if_pos (rep.span.first _ hd.edge).2]⟩
    by_cases isX : idx = s.chunkIdx p
    · obtain ⟨hp, notTop⟩ := rep.span.second _ hd.edge
      refine ⟨c, rep.span.sub p memP hp, ?_⟩
      rw [chunkIdx_eq, if_neg notTop, isX, rep.home p memP c hp]
    · obtain ⟨i, mi, rfl⟩ := rep.owner idx hc
      exact ⟨i, mi, by rw [chunkIdx_eq, if_neg (fun inT => isX (ofTop inT))]⟩
  · intro i mi j hi
    rw [← agrees.part i mi] at hi
    have sides := rep.span.cut_together hd.edge mi hi
    have old := rep.home i mi j (rep.span.cut_part_sub hd.edge hi)
    rw [chunkIdx_eq, chunkIdx_eq]
    split_ifs with inJ inI inI
    · rfl
    · exact absurd (sides.mpr inJ) inI
    · exact absurd (sides.mp inI) inJ
    · exact old
  · intro e me
    have edge := mem_edge.mp me
    rw [chunks, mem_insert, not_or]
    exact ⟨fun eq => edge.1 (rep.inj e edge.2 _ hd.edge eq), rep.fresh e edge.2⟩
  · exact fun e me d md eq => rep.inj e (mem_edge.mp me).2 d (mem_edge.mp md).2 eq
  · intro idx hc
    rw [chunks, mem_insert] at hc
    rcases hc with rfl | hc
    · rw [hd.setInfo_top]
      exact rep.topRate _ hd.edge
    by_cases isX : idx = s.chunkIdx p
    · rw [isX, hd.setInfo_bottom]
      exact hd.feeRate_bottom
    · rw [hd.setInfo_chunk hc isX]
      exact rep.chunkRate idx hc
  · intro e me
    have edge := mem_edge.mp me
    exact hd.feeRate_dep edge.2 edge.1
  · intro idx hc
    rw [chunks, mem_insert] at hc
    rcases hc with rfl | hc
    · rw [hd.setInfo_top]
      simp only [deactivate]
      rw [update_of_ne hd.top_ne, update_self]
    by_cases isX : idx = s.chunkIdx p
    · rw [isX, hd.setInfo_bottom]
      simp only [deactivate]
      rw [update_self]
      rfl
    · have notTop : idx ≠ s.depTopIdx p c := fun eq => rep.fresh _ hd.edge (eq ▸ hc)
      rw [hd.setInfo_chunk hc isX, ← rep.reach idx hc]
      simp only [deactivate]
      rw [update_of_ne isX, update_of_ne notTop]

end Deactivable

lemma getElem?_idxOf_ascending {S : Finset ℕ} (mi : i ∈ S) :
  (ascending S)[(ascending S).idxOf i]? = some i := by
  have mem := mem_ascending.mpr mi
  rw [getElem?_eq_getElem (idxOf_lt_length_of_mem mem), getElem_idxOf]

lemma setInfo_init {G : DepGraph} (rng : Rng) (mi : i ∈ G.positions) :
  (init G rng).setInfo ((init G rng).chunkIdx i) = single G i := by
  simp only [init, getElem?_idxOf_ascending mi, Option.map_some, Option.getD_some]

lemma rep_init (G : DepGraph) (rng : Rng) : Rep G (init G rng) := by
  have nodup := nodup_ascending G.positions
  have found : ∀ {i}, i ∈ G.positions →
    (ascending G.positions)[(ascending G.positions).idxOf i]? = some i :=
    getElem?_idxOf_ascending
  have info : ∀ {i}, i ∈ G.positions →
    (init G rng).setInfo ((init G rng).chunkIdx i) = SetInfo.single G i :=
    setInfo_init rng
  have noEdges : (cuts G (init G rng)).edges = ∅ := by
    ext e
    rw [mem_edges]
    simp [init]
  have agrees : Agrees G.positions (Cuts.single ℕ) (cuts G (init G rng)) := by
    constructor
    · exact noEdges.symm
    · intro i mi
      exact (congrArg SetInfo.transactions (info mi)).symm
    · simp [Cuts.single]
  have isChunk : ∀ idx, idx ∈ (init G rng).chunkIdxs ↔
    idx < (ascending G.positions).length := fun idx => Finset.mem_range
  have owner : ∀ idx ∈ (init G rng).chunkIdxs, ∃ i ∈ G.positions,
    (init G rng).chunkIdx i = idx := by
    intro idx chunk
    have small := (isChunk idx).mp chunk
    refine ⟨(ascending G.positions)[idx], mem_ascending.mp (getElem_mem _), ?_⟩
    exact nodup.idxOf_getElem idx small
  constructor
  · exact Spanning.single.congr agrees
  · simp [noEdges]
  · intro i mi
    exact (isChunk _).mpr (idxOf_lt_length_of_mem (mem_ascending.mpr mi))
  · exact owner
  · intro i mi j hi
    rw [← agrees.part i mi] at hi
    rw [Finset.mem_singleton.mp hi]
  · simp [noEdges]
  · simp [noEdges]
  · intro idx chunk
    obtain ⟨i, mi, rfl⟩ := owner idx chunk
    rw [info mi]
    exact (feeRate_single i).symm
  · simp [noEdges]
  · intro idx chunk
    obtain ⟨i, mi, rfl⟩ := owner idx chunk
    rw [info mi]
    have notSelf : i ∉ G.getReducedParents i := fun hp =>
      (parent_ancestor mi hp).2 rfl
    have notChild : i ∉ G.children i := fun hc =>
      notSelf (mem_children.mp hc).2
    simp only [init, found mi, Option.map_some, Option.getD_some, getReachable, SetInfo.single,
      Finset.singleton_biUnion, Finset.sdiff_singleton_eq_erase, Finset.erase_eq_of_notMem notSelf,
      Finset.erase_eq_of_notMem notChild]

end SpanningForestState

end ClusterLinearize
