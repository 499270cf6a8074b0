import Andaluzcoin.SpanningForestTopology
import Andaluzcoin.RatedForest

/-!
# Optimizing the chunks

Improving a topological state gives a topological one in which the chunks are worth no less above
any slope. A chunk that is not queued has no active dependency with a top set of higher feerate,
so that once the queue is empty the forest certifies that the chunks are optimal.
-/

namespace ClusterLinearize

open CutForest RatedParts List DepGraph Network
open Finset (mem_sdiff mem_insert)

namespace SpanningForestState

variable {G : DepGraph} {hpos : G.Positive} {s s' : SpanningForestState} {p c : ℕ}
  {busy : Finset ℕ} {x : ℕ}

/-- The transactions of the child's chunk that the parent's chunk depends on. -/
def blockers (G : DepGraph) (s : SpanningForestState) (p c : ℕ) : Finset ℕ :=
  ((s.deactivate G p c).2.reachable (s.depTopIdx p c)).1 ∩
    ((s.deactivate G p c).2.setInfo (s.chunkIdx p)).transactions

namespace Deactivable

variable (deact : Deactivable G s p c)

include deact

lemma parent_top : p ∈ (cuts G s).top (p, c) := (deact.rep.span.first _ deact.edge).2

lemma child_notTop : c ∉ (cuts G s).top (p, c) := (deact.rep.span.second _ deact.edge).2

lemma child_chunk : c ∈ chunkOf G s p := by
  rw [chunkOf_part deact.memP]
  exact (deact.rep.span.second _ deact.edge).1

lemma memC : c ∈ G.positions := deact.rep.partition.sub p deact.memP deact.child_chunk

lemma top_chunk : (cuts G s).top (p, c) ⊆ chunkOf G s p := by
  rw [chunkOf_part deact.memP]
  exact deact.rep.span.topSub _ deact.edge

lemma chunkIdx_parent : (s.deactivate G p c).2.chunkIdx p = s.depTopIdx p c := by
  rw [chunkIdx_eq, if_pos deact.parent_top]

lemma chunkIdx_child : (s.deactivate G p c).2.chunkIdx c = s.chunkIdx p := by
  rw [chunkIdx_eq, if_neg deact.child_notTop]
  exact deact.rep.home p deact.memP c (deact.rep.span.second _ deact.edge).1

lemma chunkOf_parent : chunkOf G (s.deactivate G p c).2 p = (cuts G s).top (p, c) := by
  rw [deact.chunkOf_deactivate, split, if_pos deact.parent_top]

lemma chunkOf_child : chunkOf G (s.deactivate G p c).2 c =
    chunkOf G s p \ (cuts G s).top (p, c) := by
  rw [deact.chunkOf_deactivate, split, if_neg deact.child_notTop, if_pos deact.child_chunk]

/-- A chunk other than the one divided is as before. -/
lemma away {i : ℕ} (ne : s.chunkIdx i ≠ s.chunkIdx p) :
  i ∉ (cuts G s).part p ∧ (s.deactivate G p c).2.chunkIdx i = s.chunkIdx i ∧
    chunkOf G (s.deactivate G p c).2 i = chunkOf G s i := by
  have out : i ∉ (cuts G s).part p := fun hi => ne (deact.rep.home p deact.memP i hi)
  have notTop : i ∉ (cuts G s).top (p, c) :=
    fun ht => out (deact.rep.span.topSub _ deact.edge ht)
  refine ⟨out, ?_, ?_⟩
  · rw [chunkIdx_eq, if_neg notTop]
  · rw [deact.chunkOf_deactivate, split, if_neg notTop, chunkOf_part deact.memP, if_neg out]

omit deact in
lemma queues (_ : Deactivable G s p c) : SameQueues s (s.deactivate G p c).2 :=
  ⟨rfl, rfl, rfl, Nat.le_add_right _ _⟩

lemma mem_blockers {q : ℕ} : q ∈ s.blockers G p c ↔ q ∈ chunkOf G s p \ (cuts G s).top (p, c) ∧
      ∃ t ∈ (cuts G s).top (p, c), t ∈ G.children q := by
  have rep := deact.rep_deactivate
  have above : (s.deactivate G p c).2.reachable (s.depTopIdx p c) =
    getReachable G ((cuts G s).top (p, c)) := by
    rw [← deact.chunkIdx_parent, rep.reach _ (rep.chunk p deact.memP), ← chunkOf_eq deact.memP,
      deact.chunkOf_parent]
  have rest : ((s.deactivate G p c).2.setInfo (s.chunkIdx p)).transactions =
    chunkOf G s p \ (cuts G s).top (p, c) := by
    rw [← deact.chunkIdx_child, ← chunkOf_eq deact.memC, deact.chunkOf_child]
  rw [blockers, above, rest, Finset.mem_inter, getReachable, mem_sdiff, Finset.mem_biUnion]
  constructor
  · rintro ⟨⟨⟨t, ht, hp⟩, -⟩, hr⟩
    exact ⟨hr, t, ht, mem_children.mpr ⟨deact.top_positions ht, hp⟩⟩
  · rintro ⟨hr, t, ht, hc⟩
    exact ⟨⟨⟨t, ht, (mem_children.mp hc).2⟩, (mem_sdiff.mp hr).2⟩, hr⟩

/-- If the parent's chunk depends on the child's, the two are merged again. -/
lemma rejoin (blocked : (s.blockers G p c).Nonempty) :
  ∃ p' ∈ chunkOf G s p \ (cuts G s).top (p, c), ∃ c' ∈ (cuts G s).top (p, c), ∃ s',
    (s.deactivate G p c).2.mergeChunks G (s.chunkIdx p) (s.depTopIdx p c) =
      (some (s'.chunkIdx p), s') ∧
    JoinsTo G (s.deactivate G p c).2 s' p' c' ∧ chunkOf G s' = chunkOf G s ∧
    s'.chunkIdx p = (s.deactivate G p c).2.chunkIdx c' := by
  have rep := deact.rep_deactivate
  obtain ⟨q, mem⟩ := blocked
  obtain ⟨hr, t, ht, hc⟩ := deact.mem_blockers.mp mem
  have ne : (s.deactivate G p c).2.chunkIdx c ≠ (s.deactivate G p c).2.chunkIdx p := by
    rw [deact.chunkIdx_child, deact.chunkIdx_parent]
    exact deact.top_ne.symm
  obtain ⟨p', inC, c', inP, s', eq, hj⟩ := mergeChunks_spec rep deact.memC deact.memP ne
    (by rw [deact.chunkOf_child]; exact hr) (by rw [deact.chunkOf_parent]; exact ht) hc
  rw [deact.chunkOf_child] at inC
  rw [deact.chunkOf_parent] at inP
  have atP : s'.chunkIdx p = s.depTopIdx p c := by
    rw [hj.chunkIdx, if_neg, deact.chunkIdx_parent]
    intro hi
    have atP := rep.partition.same c deact.memC p' (by rw [deact.chunkOf_child]; exact inC)
    rw [atP, deact.chunkOf_child] at hi
    exact (mem_sdiff.mp hi).2 deact.parent_top
  refine ⟨p', inC, c', inP, s', ?_, hj, ?_, ?_⟩
  · rw [deact.chunkIdx_child, deact.chunkIdx_parent] at eq
    rw [atP]
    exact eq
  · rw [hj.chunkOf_eq, deact.chunkOf_deactivate]
    exact deact.rep.partition.merge_split deact.memP deact.top_chunk inC inP
  · rw [atP, chunkIdx_eq, if_pos inP]

end Deactivable

/-- Outside the chunks of the given transactions and the queued ones, no top set has a higher
rate than its chunk. -/
def Settled (G : DepGraph) (positive : G.Positive) (busy : Finset ℕ)
  (s : SpanningForestState) : Prop :=
  ∀ e ∈ (cuts G s).edges, (∀ x ∈ busy, s.chunkIdx e.1 ≠ s.chunkIdx x) →
    s.chunkIdx e.1 ∉ s.suboptimalChunks →
    (G.network positive).weight ((G.network positive).rate (chunkOf G s e.1))
      ((cuts G s).top e) ≤ 0

lemma SameQueues.subset (queues : SameQueues s s') : s.suboptimalChunks ⊆ s'.suboptimalChunks := by
  rw [queues.suboptimalChunks]
  exact List.Subset.refl _

lemma Settled.congr (hse : Settled G hpos busy s)
  (hs : SameForest s s') (hque : s.suboptimalChunks ⊆ s'.suboptimalChunks) :
  Settled G hpos busy s' := by
  intro e me away hq
  rw [hs.cuts_eq] at me ⊢
  rw [hs.chunkIdx] at away hq
  rw [hs.chunkOf_eq]
  exact hse e me away fun hqu => hq (hque hqu)

/-- A queued chunk need not be busy. -/
lemma Settled.of_queued (hs : Settled G hpos (insert x busy) s)
  (hqu : s.chunkIdx x ∈ s.suboptimalChunks) : Settled G hpos busy s := by
  intro e me away hq
  refine hs e me ?_ hq
  intro y my
  rcases mem_insert.mp my with rfl | old
  · exact fun eq => hq (eq ▸ hqu)
  · exact away y old

lemma Settled.push (ok : QueueOk s) (hse : Settled G hpos (insert x busy) s) :
  Settled G hpos busy (s.pushSuboptimal (s.chunkIdx x)) := by
  obtain ⟨hs, -, mem, -⟩ := pushSuboptimal_spec ok (s.chunkIdx x)
  refine (hse.congr hs fun idx old => (mem idx).mpr (.inr old)).of_queued ?_
  rw [hs.chunkIdx]
  exact (mem _).mpr (.inl rfl)

/-- Joining the chunk of a busy transaction with another one. -/
lemma Settled.join (hs : Settled G hpos busy s)
  (hj : JoinsTo G s s' p c) (hb : x ∈ busy) (atX : s'.chunkIdx x = s.chunkIdx c) :
  Settled G hpos busy s' := by
  have act := hj.act
  intro e me away hq
  have notX := atX ▸ away x hb
  have me' : e ∈ insert (p, c) (cuts G s).edges := by
    rw [← hj.agrees.edges] at me
    exact me
  rcases mem_insert.mp me' with rfl | old
  · refine absurd ?_ notX
    rw [hj.chunkIdx, if_pos (act.rep.partition.self p act.memP)]
  have mi := (mem_edges.mp old).1
  obtain ⟨chunk, idx⟩ := hj.away mi notX
  have out : e.1 ∉ (cuts G s).part p ∪ (cuts G s).part c := by
    rw [← chunkOf_part act.memP, ← chunkOf_part act.memC]
    exact hj.outside mi notX
  have top : (cuts G s').top e = (cuts G s).top e := by
    rw [← hj.agrees.top e me', act.joinable.top_away old out]
  rw [chunk, top]
  refine hs e old ?_ ?_
  · intro y my eq
    -- the chunk of another busy transaction may be one of the joined ones, but not this one
    refine away y my ?_
    rw [idx, eq, hj.chunkIdx, if_neg]
    intro inP
    refine hj.outside mi notX (Finset.mem_union_left _ ?_)
    have my' := act.rep.partition.sub p act.memP inP
    rw [act.rep.partition.mem_iff act.memP mi, ← act.rep.partition.same p act.memP y inP]
    exact (act.rep.chunkOf_eq_iff my' mi).mpr eq
  · rw [idx, hj.queues.suboptimalChunks] at hq
    exact hq

/-- Both sides of a removed dependency are busy. -/
lemma Settled.cut (hs : Settled G hpos {p} s) (deact : Deactivable G s p c) :
  Settled G hpos {p, c} (s.deactivate G p c).2 := by
  have rep := deact.rep
  have memP := deact.memP
  intro e me away hq
  obtain ⟨ne, old⟩ := Deactivable.mem_edge.mp me
  have mi := (mem_edges.mp old).1
  have other : s.chunkIdx e.1 ≠ s.chunkIdx p := by
    intro eq
    have inP : e.1 ∈ (cuts G s).part p := (rep.mem_part memP mi).mpr eq
    by_cases ht : e.1 ∈ (cuts G s).top (p, c)
    · refine away p (by simp) ?_
      rw [deact.chunkIdx_parent, Deactivable.chunkIdx_eq, if_pos ht]
    · refine away c (by simp) ?_
      rw [deact.chunkIdx_child, Deactivable.chunkIdx_eq, if_neg ht, eq]
  obtain ⟨out, idx, chunk⟩ := deact.away other
  rw [idx] at hq
  have top : (cuts G (s.deactivate G p c).2).top e = (cuts G s).top e := by
    have notTop : e.1 ∉ (cuts G s).top (p, c) :=
      fun ht => out (rep.span.topSub _ deact.edge ht)
    rw [← deact.agrees.top e (Finset.mem_erase.mpr ⟨ne, old⟩)]
    simp only [Cuts.cut, if_neg notTop, if_neg out]
  rw [chunk, top]
  refine hs e old ?_ hq
  intro x isP
  rw [Finset.mem_singleton.mp isP]
  exact other

/-- What the optimization keeps. -/
structure Optimizing (G : DepGraph) (positive : G.Positive) (base : ℚ → ℚ)
  (busy : Finset ℕ) (s : SpanningForestState) : Prop where
  rep : Rep G s
  ok : QueueOk s
  inOrder : (G.network positive).Ordered (chunkOf G s)
  keeps : ∀ r, base r ≤ (G.network positive).potential (chunkOf G s) r
  settled : Settled G positive busy s

section
variable {base : ℚ → ℚ} {B : Finset ℕ} {low : ℚ} {idx : ℕ}

/-- What is kept while the parent's chunk is merged upwards. -/
structure Lifting (G : DepGraph) (positive : G.Positive) (base : ℚ → ℚ) (B : Finset ℕ)
  (low : ℚ) (p c idx : ℕ) (s : SpanningForestState) : Prop where
  rising : ∃ mark, Rising (G.network positive) (chunkOf G s) p B low mark ∧
    Holding (G.network positive) (chunkOf G s) p B low mark base
  settled : Settled G positive {p, c} s
  chunkIdx : s.chunkIdx c = idx

lemma Lifting.congr (hl : Lifting G hpos base B low p c idx s)
  (hs : SameForest s s') (queues : SameQueues s s') : Lifting G hpos base B low p c idx s' :=
  ⟨by rw [hs.chunkOf_eq]; exact hl.rising,
    hl.settled.congr hs queues.subset, by rw [hs.chunkIdx]; exact hl.chunkIdx⟩

lemma Lifting.step (hli : Lifting G hpos base B low p c idx s) (inB : c ∈ B)
  (hm : Merges G hpos false s s' p) : Lifting G hpos base B low p c idx s' := by
  obtain ⟨mark, hr, holding⟩ := hli.rising
  obtain ⟨y, z, hl, chunks⟩ := hm.lowest
  obtain ⟨p', c', hj⟩ := hm.joins
  have rising' : Rising (G.network hpos) (chunkOf G s') p B low _ := chunks ▸ hr.step hl
  have holding' : Holding (G.network hpos) (chunkOf G s') p B low _ base :=
    chunks ▸ hr.step_holding hl holding
  refine ⟨⟨_, rising', holding'⟩, hli.settled.join hj (by simp) (hm.chunkIdx_eq hr.memX hj), ?_⟩
  -- the child's chunk is the one left behind, and no part of the merge
  rw [hj.chunkIdx, if_neg, hli.chunkIdx]
  intro hi
  have act := hj.act
  have before := (hr.whole c inB).2
  have after := (rising'.whole c inB).2
  rw [hj.chunkOf_eq, Partition.merge_of_mem (Finset.mem_union_left _ hi)] at after
  have atP := act.rep.partition.same p' act.memP c hi
  have inP : c' ∈ chunkOf G s p' := by
    rw [← atP, before, ← after]
    exact Finset.mem_union_right _ (act.rep.partition.self c' act.memC)
  exact act.ne ((act.rep.chunkOf_eq_iff act.memP act.memC).mp
    (act.rep.partition.same p' act.memP c' inP)).symm

/-- What is kept while the child's chunk is merged downwards. -/
structure Lowering (G : DepGraph) (positive : G.Positive) (base : ℚ → ℚ)
  (c : ℕ) (s : SpanningForestState) : Prop where
  rising : ∃ low mark, Rising (G.network positive).dual (chunkOf G s) c ∅ low mark ∧
    Holding (G.network positive).dual (chunkOf G s) c ∅ low mark
      (fun r => base (-r) - (G.network positive).weight (-r) G.positions)
  settled : Settled G positive {c} s

/-- The parent's chunk is queued at its place, and the child's chunk is the next to move. -/
lemma Lifting.turn (hl : Lifting G hpos base B low p c idx s) (done : Done G hpos false s p)
  (inB : c ∈ B) (lower : (G.network hpos).rate B ≤ low) (ok : QueueOk s) :
  Lowering G hpos base c (s.pushSuboptimal (s.chunkIdx p)) := by
  obtain ⟨mark, hr, holding⟩ := hl.rising
  obtain ⟨hs, -⟩ := pushSuboptimal_spec ok (s.chunkIdx p)
  refine ⟨⟨-low - 1, -low, ?_⟩, hl.settled.push ok⟩
  rw [hs.chunkOf_eq]
  exact ⟨hr.turn done inB lower, hr.turn_holding holding inB⟩

lemma Lowering.step (hlo : Lowering G hpos base c s)
  (hm : Merges G hpos true s s' c) : Lowering G hpos base c s' := by
  obtain ⟨low, mark, hr, holding⟩ := hlo.rising
  obtain ⟨y, z, hl, chunks⟩ := hm.lowest
  obtain ⟨p', c', hj⟩ := hm.joins
  refine ⟨⟨low, _, chunks ▸ hr.step hl, chunks ▸ hr.step_holding hl holding⟩,
    hlo.settled.join hj (by simp) (hm.chunkIdx_eq hr.memX hj)⟩

/-- Once neither chunk moves any more, the state is topological again. -/
lemma Lowering.finish (hl : Lowering G hpos base c s) (rep : Rep G s)
  (done : Done G hpos true s c) : (G.network hpos).Ordered (chunkOf G s) ∧
    ∀ r, base r ≤ (G.network hpos).potential (chunkOf G s) r := by
  obtain ⟨low, mark, hr, holding⟩ := hl.rising
  constructor
  · refine Network.Ordered.of_dual fun a b hd ne => ?_
    exact hr.ordered done a b hd ne (Finset.notMem_empty _)
  intro r
  have kept := holding.keeps (-r)
  rw [dual_potential rep.partition, neg_neg] at kept
  exact (sub_le_sub_iff_right _).mp kept

lemma improve_eq : s.improve G p c =
  if (s.blockers G p c).Nonempty then
    match (s.deactivate G p c).2.mergeChunks G (s.chunkIdx p) (s.depTopIdx p c) with
    | (some merged, s) => s.pushSuboptimal merged
    | (none, s) => s
  else ((s.deactivate G p c).2.mergeSequence G false (s.depTopIdx p c)).mergeSequence G
    true (s.chunkIdx p) := rfl

lemma mergeSequence_eq (downWard : Bool) (idx : ℕ) : s.mergeSequence G downWard idx =
  (mergeAll G downWard s.chunkIdxs.card s idx).2.pushSuboptimal
    (mergeAll G downWard s.chunkIdxs.card s idx).1 := rfl

variable (opt : Optimizing G hpos base {p} s)
include opt

variable (deact : Deactivable G s p c)
include deact

/-- `Improve` where the parent's chunk depends on the child's: the chunk stays as it is. -/
lemma improve_blocked (blocked : (s.blockers G p c).Nonempty) :
  Optimizing G hpos base ∅ (s.improve G p c) ∧ s.cost ≤ (s.improve G p c).cost := by
  obtain ⟨p', -, c', -, s₁, eq, hj, chunks, atP⟩ := deact.rejoin blocked
  have ok₁ := opt.ok.congr (deact.queues.trans hj.queues)
  obtain ⟨hs, ok₂, mem, -, -, cost⟩ := pushSuboptimal_spec ok₁ (s₁.chunkIdx p)
  have chunks₂ := hs.chunkOf_eq.trans chunks
  have together : s₁.chunkIdx c = s₁.chunkIdx p := by
    refine (hj.rep.chunkOf_eq_iff deact.memP deact.memC).mp ?_
    rw [chunks]
    exact opt.rep.partition.same p deact.memP c deact.child_chunk
  have settled := ((opt.settled.cut deact).join hj (by simp) atP).push ok₁
  rw [improve_eq, if_pos blocked, eq]
  refine ⟨⟨hj.rep.congr hs, ok₂, ?_, ?_, settled.of_queued ?_⟩, ?_⟩
  · rw [chunks₂]
    exact opt.inOrder
  · rw [chunks₂]
    exact opt.keeps
  · rw [hs.chunkIdx, mem, together]
    exact .inl rfl
  · rw [cost]
    exact deact.queues.cost.trans hj.queues.cost

/-- `Improve` where it does not: the parent's chunk goes up, and then the child's chunk down. -/
lemma improve_free (hst : (G.network hpos).rate (chunkOf G s p) <
    (G.network hpos).rate ((cuts G s).top (p, c))) (free : ¬ (s.blockers G p c).Nonempty) :
  Optimizing G hpos base ∅ (s.improve G p c) ∧ s.cost ≤ (s.improve G p c).cost := by
  set N := G.network hpos
  set s₁ := (s.deactivate G p c).2
  have ok₁ := opt.ok.congr deact.queues
  obtain ⟨mark, hr, holding, lower⟩ := Rising.of_split opt.rep.partition deact.memP
    deact.parent_top deact.top_chunk opt.inOrder hst
    (fun a b hd hre ht => free ⟨a, deact.mem_blockers.mpr ⟨hre, b, ht, hd⟩⟩)
  rw [← deact.chunkOf_deactivate] at hr holding
  have inB := mem_sdiff.mpr ⟨deact.child_chunk, deact.child_notTop⟩
  have start : Lifting G hpos (N.potential (chunkOf G s)) _ _ p c (s.chunkIdx p) s₁ :=
    ⟨⟨mark, hr, holding⟩, opt.settled.cut deact, deact.chunkIdx_child⟩
  obtain ⟨s₂, up, rep₂, queues₂, hdo, lifting⟩ := mergeAll_spec hpos false deact.memP
    _ (fun _ _ hs queues lifting => lifting.congr hs queues)
    (fun _ _ hm lifting => lifting.step inB hm)
    s₁.chunkIdxs.card s₁ deact.rep_deactivate (le_refl _) start
  rw [deact.chunkIdx_parent] at up
  have ok₂ := ok₁.congr queues₂
  obtain ⟨same₃, ok₃, -, -, -, cost₃⟩ := pushSuboptimal_spec ok₂ (s₂.chunkIdx p)
  have start' := lifting.turn hdo inB lower ok₂
  set s₃ := s₂.pushSuboptimal (s₂.chunkIdx p)
  have atC : s₃.chunkIdx c = s.chunkIdx p := by rw [same₃.chunkIdx, lifting.chunkIdx]
  obtain ⟨s₄, down, rep₄, queues₄, hd', hl⟩ := mergeAll_spec hpos true deact.memC
    _ (fun _ _ hs queues hl => ⟨by rw [hs.chunkOf_eq]; exact hl.rising,
      hl.settled.congr hs queues.subset⟩)
    (fun _ _ hm hl => hl.step hm)
    s₃.chunkIdxs.card s₃ (rep₂.congr same₃) (le_refl _) start'
  rw [atC] at down
  have ok₄ := ok₃.congr queues₄
  obtain ⟨same₅, ok₅, -, -, -, cost₅⟩ := pushSuboptimal_spec ok₄ (s₄.chunkIdx c)
  obtain ⟨ho, hk⟩ := hl.finish rep₄ hd'
  have result : s.improve G p c = s₄.pushSuboptimal (s₄.chunkIdx c) := by
    rw [improve_eq, if_neg free, mergeSequence_eq false, up, mergeSequence_eq true, down]
  rw [result]
  refine ⟨⟨rep₄.congr same₅, ok₅, ?_, ?_, Settled.push ok₄ hl.settled⟩, ?_⟩
  · rw [same₅.chunkOf_eq]
    exact ho
  · intro r
    rw [same₅.chunkOf_eq]
    exact (opt.keeps r).trans (hk r)
  · rw [cost₅]
    exact deact.queues.cost.trans (queues₂.cost.trans (cost₃ ▸ queues₄.cost))

/-- `Improve` at a dependency whose top set has a higher rate than the chunk. -/
lemma improve_spec
  (hs : (G.network hpos).rate (chunkOf G s p) < (G.network hpos).rate ((cuts G s).top (p, c))) :
  Optimizing G hpos base ∅ (s.improve G p c) ∧ s.cost ≤ (s.improve G p c).cost := by
  by_cases blocked : (s.blockers G p c).Nonempty
  · exact improve_blocked opt deact blocked
  · exact improve_free opt deact hs blocked

end

variable {base : ℚ → ℚ}

/-- Popping an entry: its chunk, if it is still one, is busy. -/
lemma Optimizing.pop {idx : ℕ} {rest : List ℕ} {busy : Finset ℕ} (opt : Optimizing G hpos base ∅ s)
  (hp : s.suboptimalChunks = idx :: rest) (hs : SameForest s s')
  (hqu : s'.suboptimalChunks = rest) (idxs : s'.suboptimalIdxs = s.suboptimalIdxs.erase idx)
  (hb : idx ∈ s.chunkIdxs → ∃ x ∈ busy, s.chunkIdx x = idx) : Optimizing G hpos base busy s' := by
  refine ⟨opt.rep.congr hs, opt.ok.pop hp hqu idxs, ?_, ?_, ?_⟩
  · rw [hs.chunkOf_eq]
    exact opt.inOrder
  · rw [hs.chunkOf_eq]
    exact opt.keeps
  · intro e me away hq
    rw [hs.cuts_eq] at me ⊢
    rw [hs.chunkIdx] at away hq
    rw [hs.chunkOf_eq]
    refine opt.settled e me (by simp) ?_
    rw [hp, mem_cons, not_or]
    refine ⟨fun eq => ?_, hqu ▸ hq⟩
    obtain ⟨x, mx, atX⟩ := hb (eq ▸ opt.rep.chunk e.1 (mem_edges.mp me).1)
    exact away x mx (eq.trans atX.symm)

lemma pickChunkLoop_spec : ∀ (l : List ℕ) (s : SpanningForestState) (steps : ℕ),
  Optimizing G hpos base ∅ s → s.suboptimalChunks = l →
  (∃ s', pickChunkLoop l s steps = (none, s') ∧ Optimizing G hpos base ∅ s' ∧
    s'.suboptimalChunks = [] ∧ s.cost < s'.cost) ∨
  ∃ s', ∃ x ∈ G.positions, pickChunkLoop l s steps = (some (s'.chunkIdx x), s') ∧
    Optimizing G hpos base {x} s' ∧ s.cost < s'.cost := by
  intro l
  induction l with
  | nil =>
    intro s steps opt empty
    refine .inl ⟨_, rfl, ⟨?_, ?_, opt.inOrder, opt.keeps, ?_⟩, rfl, ?_⟩
    · exact opt.rep.congr ⟨rfl, rfl, rfl, rfl, rfl, rfl⟩
    · exact opt.ok.congr ⟨rfl, empty.symm, rfl, Nat.le_add_right _ _⟩
    · exact opt.settled.congr ⟨rfl, rfl, rfl, rfl, rfl, rfl⟩ (empty ▸ List.Subset.refl _)
    · exact Nat.lt_add_of_pos_right (Nat.succ_pos _)
  | cons idx rest ih =>
    intro s steps opt hp
    rw [pickChunkLoop]
    split_ifs with hc
    · obtain ⟨x, mx, rfl⟩ := opt.rep.owner idx hc
      refine .inr ⟨({ s with
        suboptimalIdxs := s.suboptimalIdxs.erase (s.chunkIdx x)
        suboptimalChunks := rest } : SpanningForestState).charge (steps + 1 + 4), x, mx, rfl, ?_, ?_⟩
      · exact opt.pop hp ⟨rfl, rfl, rfl, rfl, rfl, rfl⟩ rfl rfl
          fun _ => ⟨x, Finset.mem_singleton_self x, rfl⟩
      · exact Nat.lt_add_of_pos_right (Nat.succ_pos _)
    · exact ih _ (steps + 1) (opt.pop hp ⟨rfl, rfl, rfl, rfl, rfl, rfl⟩ rfl rfl
        fun hc' => absurd hc' hc) rfl

/-- The search ends with a dependency of higher top set, unless there is none. -/
lemma splitCandidate_spec (s : SpanningForestState) (idx : ℕ) :
  let higher (d : ℕ × ℕ) := (s.setInfo (s.depTopIdx d.1 d.2)).feerate.feeRateCompare
    (s.setInfo idx).feerate = .gt
  let deps := s.activeDeps (s.setInfo idx).transactions
  ((s.pickDependencyToSplit idx).1 = none → ∀ d ∈ deps, ¬ higher d) ∧
    ∀ d, (s.pickDependencyToSplit idx).1 = some d → d ∈ deps ∧ higher d := by
  intro higher deps
  let Found (seen : List (ℕ × ℕ)) (best : SplitCandidate) :=
    (best.dep = none → best.tiebreak = 0 ∧ ∀ d ∈ seen, ¬ higher d) ∧
      ∀ d, best.dep = some d → d ∈ seen ∧ higher d
  obtain ⟨best, isBest, hm, found⟩ :
    ∃ best, (s.pickDependencyToSplit idx).1 = best.dep ∧ Found deps best := by
    refine ⟨_, rfl, foldl_inv Found ⟨fun _ => ⟨rfl, by simp⟩, by simp⟩ ?_⟩
    intro seen d _ best _ ⟨hm, found⟩
    have earlier : ∀ e, best.dep = some e → e ∈ seen ++ [d] ∧ higher e := fun e hb =>
      (found e hb).imp_left (mem_append_left _)
    dsimp only
    split_ifs with hh lost
    · refine ⟨fun none_ => ?_, earlier⟩
      -- a tie is not lost to nothing
      rw [(hm none_).1] at lost
      exact absurd lost (Nat.not_lt_zero _)
    · refine ⟨by simp, fun e hb => ?_⟩
      obtain rfl := Option.some.inj hb
      exact ⟨by simp, hh⟩
    · refine ⟨fun none_ => ⟨(hm none_).1, ?_⟩, earlier⟩
      exact forall_mem_append.mpr ⟨(hm none_).2, forall_mem_singleton.mpr hh⟩
  rw [isBest]
  exact ⟨fun none_ => (hm none_).2, found⟩

lemma top_steeper (rep : Rep G s) (hpos : G.Positive) {e : ℕ × ℕ} (me : e ∈ (cuts G s).edges) :
  (s.setInfo (s.depTopIdx e.1 e.2)).feerate.feeRateCompare
      (s.setInfo (s.chunkIdx e.1)).feerate = .gt ↔
    (G.network hpos).rate (chunkOf G s e.1) < (G.network hpos).rate ((cuts G s).top e) := by
  obtain ⟨mi, -⟩ := rep.span.first e me
  rw [FeeFrac.feeRateCompare_eq_gt (rep.top_size_pos hpos me) (rep.size_pos hpos mi),
    rep.rate_chunk hpos mi, rep.topRate e me, feeRate_rate hpos]

/-- `PickDependencyToSplit` picks a dependency whose top set has a higher rate than the chunk. -/
lemma pickDependencyToSplit_spec (rep : Rep G s) (hpos : G.Positive) {x : ℕ}
  (mx : x ∈ G.positions) : ((s.pickDependencyToSplit (s.chunkIdx x)).1 = none →
    ∀ e ∈ (cuts G s).edges, s.chunkIdx e.1 = s.chunkIdx x →
      (G.network hpos).rate ((cuts G s).top e) ≤ (G.network hpos).rate (chunkOf G s e.1)) ∧
  ∀ e, (s.pickDependencyToSplit (s.chunkIdx x)).1 = some e →
    e ∈ (cuts G s).edges ∧ s.chunkIdx e.1 = s.chunkIdx x ∧
      (G.network hpos).rate (chunkOf G s e.1) < (G.network hpos).rate ((cuts G s).top e) := by
  obtain ⟨hm, hf⟩ := splitCandidate_spec s (s.chunkIdx x)
  dsimp only at hm hf
  have isChunk : (s.setInfo (s.chunkIdx x)).transactions = (cuts G s).part x := rfl
  constructor
  · intro none_ e me atX
    have mi := (mem_edges.mp me).1
    have inX : e.1 ∈ (s.setInfo (s.chunkIdx x)).transactions := (rep.mem_part mx mi).mpr atX
    have notHigher := hm none_ e (mem_activeDeps.mpr ⟨inX, (mem_edges.mp me).2⟩)
    rw [← atX, top_steeper rep hpos me, not_lt] at notHigher
    exact notHigher
  intro e hb
  obtain ⟨md, hh⟩ := hf e hb
  obtain ⟨inX, ha⟩ := mem_activeDeps.mp md
  have me := mem_edges.mpr ⟨rep.chunk_sub mx inX, ha⟩
  have atX := rep.home x mx e.1 inX
  rw [← atX, top_steeper rep hpos me] at hh
  exact ⟨me, atX, hh⟩

lemma optimizeStep_eq : s.optimizeStep G = match s.pickChunkToOptimize.1 with
    | none => (false, s.pickChunkToOptimize.2)
    | some idx =>
      match (s.pickChunkToOptimize.2.pickDependencyToSplit idx).1 with
      | none => (!(s.pickChunkToOptimize.2.pickDependencyToSplit idx).2.suboptimalChunks.isEmpty,
          (s.pickChunkToOptimize.2.pickDependencyToSplit idx).2)
      | some e =>
        (true, (s.pickChunkToOptimize.2.pickDependencyToSplit idx).2.improve G e.1 e.2) := by
  rw [optimizeStep]
  rcases s.pickChunkToOptimize with ⟨_ | idx, s₁⟩
  · rfl
  · dsimp only
    rcases s₁.pickDependencyToSplit idx with ⟨_ | ⟨p, c⟩, s₂⟩ <;> rfl

/-- A step keeps the invariant at a cost, and fails only with nothing left to improve. -/
lemma optimizeStep_spec (opt : Optimizing G hpos base ∅ s) :
  Optimizing G hpos base ∅ (s.optimizeStep G).2 ∧ s.cost < (s.optimizeStep G).2.cost ∧
    ((s.optimizeStep G).1 = false → (s.optimizeStep G).2.suboptimalChunks = []) := by
  rw [optimizeStep_eq]
  rcases pickChunkLoop_spec _ s 0 opt rfl with
    ⟨s₁, eq, opt₁, empty, cost⟩ | ⟨s₁, x, mx, eq, opt₁, cost⟩
  · rw [pickChunkToOptimize, eq]
    exact ⟨opt₁, cost, fun _ => empty⟩
  rw [pickChunkToOptimize, eq]
  dsimp only
  obtain ⟨hm, hf⟩ := pickDependencyToSplit_spec opt₁.rep hpos mx
  set s₂ := (s₁.pickDependencyToSplit (s₁.chunkIdx x)).2
  have same : SameForest s₁ s₂ := ⟨rfl, rfl, rfl, rfl, rfl, rfl⟩
  have queues : SameQueues s₁ s₂ := ⟨rfl, rfl, rfl, Nat.le_add_right _ _⟩
  have cost₂ := cost.trans_le queues.cost
  cases picked : (s₁.pickDependencyToSplit (s₁.chunkIdx x)).1 with
  | none =>
    refine ⟨⟨opt₁.rep.congr same, opt₁.ok.congr queues, opt₁.inOrder, opt₁.keeps, ?_⟩, cost₂, ?_⟩
    · intro e me _ hq
      by_cases atX : s₁.chunkIdx e.1 = s₁.chunkIdx x
      · obtain ⟨mi, inTop⟩ := opt₁.rep.span.first e me
        have sub := (opt₁.rep.span.topSub e me).trans (opt₁.rep.span.sub e.1 mi)
        exact (weight_nonpos sub ⟨e.1, inTop⟩).mpr (hm picked e me atX)
      · refine opt₁.settled e me (fun y my => ?_) hq
        rw [Finset.mem_singleton.mp my]
        exact atX
    · intro hd
      exact isEmpty_iff.mp (by simpa using hd)
  | some e =>
    obtain ⟨me, atX, hh⟩ := hf e picked
    have settled : Settled G hpos {e.1} s₂ := by
      intro d md away hq
      refine opt₁.settled d md (fun y my => ?_) hq
      rw [Finset.mem_singleton.mp my, ← atX]
      exact away e.1 (Finset.mem_singleton_self _)
    obtain ⟨opt', cost'⟩ := improve_spec (c := e.2)
      ⟨opt₁.rep.congr same, opt₁.ok.congr queues, opt₁.inOrder, opt₁.keeps, settled⟩
      ⟨opt₁.rep.congr same, me⟩ hh
    exact ⟨opt', cost₂.trans_le cost', fun no => by cases no⟩

/-- The loop ends with nothing left to improve, or at the cost limit. -/
lemma optimizeLoop_spec (maxCost : ℕ) : ∀ (fuel : ℕ) (s : SpanningForestState),
  Optimizing G hpos base ∅ s → maxCost ≤ fuel + s.cost →
  Optimizing G hpos base ∅ (optimizeLoop G maxCost fuel s) ∧
    ((optimizeLoop G maxCost fuel s).cost < maxCost →
      (optimizeLoop G maxCost fuel s).suboptimalChunks = []) := by
  intro fuel
  induction fuel with
  | zero =>
    intro s opt hb
    refine ⟨opt, fun below => ?_⟩
    rw [optimizeLoop] at below
    omega
  | succ fuel ih =>
    intro s opt hb
    obtain ⟨opt', cost, hf⟩ := optimizeStep_spec opt
    rw [optimizeLoop]
    split
    · next s' eq =>
      rw [eq] at opt' hf
      exact ⟨opt', fun _ => hf rfl⟩
    · next s' eq =>
      rw [eq] at opt' cost
      change s.cost < s'.cost at cost
      split_ifs with below
      · exact ih s' opt' (by omega)
      · exact ⟨opt', fun hb' => absurd hb' below⟩

lemma startOptimizing_spec (rep : Rep G s) (empty : s.suboptimalChunks = [])
  (inOrder : (G.network hpos).Ordered (chunkOf G s)) :
  Optimizing G hpos ((G.network hpos).potential (chunkOf G s)) ∅ s.startOptimizing := by
  obtain ⟨hs, ok, mem, -⟩ := queueAll_spec empty
  have charged : SameForest s.queueAll s.startOptimizing := ⟨rfl, rfl, rfl, rfl, rfl, rfl⟩
  have same' := hs.trans charged
  refine ⟨rep.congr same', ok.congr ⟨rfl, rfl, rfl, Nat.le_add_right _ _⟩, ?_, ?_, ?_⟩
  · rw [same'.chunkOf_eq]
    exact inOrder
  · intro r
    rw [same'.chunkOf_eq]
  · intro e me _ hq
    rw [same'.cuts_eq] at me
    refine absurd ((mem _).mpr ?_) hq
    rw [same'.chunkIdx]
    exact rep.chunk e.1 (mem_edges.mp me).1

/-- Once the queue is empty, the forest certifies the rates of the chunks. -/
lemma Optimizing.certified (opt : Optimizing G hpos base ∅ s)
  (empty : s.suboptimalChunks = []) : Certified (G.network hpos) (cuts G s) := by
  refine ⟨opt.rep.span, opt.rep.active, fun e me => ?_⟩
  rw [← chunkOf_part (mem_edges.mp me).1]
  refine opt.settled e me (by simp) ?_
  rw [empty]
  exact not_mem_nil

end SpanningForestState

end ClusterLinearize
