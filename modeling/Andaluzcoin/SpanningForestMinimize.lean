import Andaluzcoin.SpanningForestOptimize

/-!
# Minimizing the chunks

A minimization step splits a chunk at a dependency with top and bottom sets of equal feerate, or
activates another dependency instead. A chunk whose entry has left the queue is minimal: for its
pivot, no split with the pivot in the top set was possible, and none with the pivot in the bottom
set.
-/

namespace ClusterLinearize

open RatedParts List Network
open Finset (mem_sdiff)

namespace SpanningForestState

variable {G : DepGraph} {hpos : G.Positive} {s s' : SpanningForestState} {p c : ℕ}

/-- An entry of the queue: its pivot is in its chunk, and in the second stage there is no split
with the pivot on the other side. -/
structure Entered (G : DepGraph) (positive : G.Positive) (s : SpanningForestState)
  (entry : NonminimalChunk) : Prop where
  pivot : entry.pivotIdx ∈ G.positions
  chunkIdx : s.chunkIdx entry.pivotIdx = entry.chunkIdx
  known : entry.secondStage = true → (G.network positive).Unsplit
    (chunkOf G s entry.pivotIdx) entry.pivotIdx (!entry.movePivotDown)

/-- What the minimization keeps: a chunk that is not minimal has its entry in the queue. -/
structure Minimizing (G : DepGraph) (positive : G.Positive) (base : ℚ → ℚ)
  (s : SpanningForestState) (queue : List NonminimalChunk) : Prop where
  rep : Rep G s
  cert : Certified (G.network positive) (cuts G s)
  layered : ∃ level, Layered (G.network positive) (chunkOf G s) level
  keeps : ∀ r, base r ≤ (G.network positive).potential (chunkOf G s) r
  nodup : (queue.map NonminimalChunk.chunkIdx).Nodup
  valid : ∀ entry ∈ queue, Entered G positive s entry
  waiting : ∀ x ∈ G.positions, (G.network positive).Minimal (chunkOf G s x) ∨
    ∃ entry ∈ queue, entry.chunkIdx = s.chunkIdx x

section
variable {base : ℚ → ℚ} {entry : NonminimalChunk} {queue rest new : List NonminimalChunk}

lemma Minimizing.congr (min : Minimizing G hpos base s queue) (hs : SameForest s s') :
  Minimizing G hpos base s' queue := by
  have chunks : chunkOf G s' = chunkOf G s := hs.chunkOf_eq
  refine ⟨min.rep.congr hs, ?_, ?_, ?_, min.nodup, fun entry me => ?_, ?_⟩
  · rw [hs.cuts_eq]
    exact min.cert
  · rw [chunks]
    exact min.layered
  · rw [chunks]
    exact min.keeps
  · obtain ⟨pivot, idx, hk⟩ := min.valid entry me
    exact ⟨pivot, by rw [hs.chunkIdx]; exact idx, by rw [chunks]; exact hk⟩
  · rw [chunks, hs.chunkIdx]
    exact min.waiting

/-- The chunk of the first entry is dealt with, and the entries that come of it are queued. -/
lemma Minimizing.replace (min : Minimizing G hpos base s (entry :: rest))
  (rep : Rep G s') (cert : Certified (G.network hpos) (cuts G s'))
  (hl : ∃ level, Layered (G.network hpos) (chunkOf G s') level)
  (hk : ∀ r, base r ≤ (G.network hpos).potential (chunkOf G s') r)
  (away : ∀ i ∈ G.positions, s.chunkIdx i ≠ entry.chunkIdx →
    s'.chunkIdx i = s.chunkIdx i ∧ chunkOf G s' i = chunkOf G s i)
  (nodup : (new.map NonminimalChunk.chunkIdx).Nodup)
  (fresh : ∀ e ∈ new, e.chunkIdx = entry.chunkIdx ∨ e.chunkIdx ∉ s.chunkIdxs)
  (hv : ∀ e ∈ new, Entered G hpos s' e) (hc : ∀ i ∈ G.positions, s.chunkIdx i = entry.chunkIdx →
    (G.network hpos).Minimal (chunkOf G s' i) ∨ ∃ e ∈ new, e.chunkIdx = s'.chunkIdx i) :
  Minimizing G hpos base s' (rest ++ new) := by
  have distinct := min.nodup
  rw [map_cons, nodup_cons] at distinct
  have old : ∀ e ∈ rest, Entered G hpos s e ∧ e.chunkIdx ≠ entry.chunkIdx := by
    intro e me
    refine ⟨min.valid e (.tail _ me), fun eq => distinct.1 ?_⟩
    rw [← eq]
    exact mem_map_of_mem me
  refine ⟨rep, cert, hl, hk, ?_, ?_, ?_⟩
  · rw [map_append, nodup_append]
    refine ⟨distinct.2, nodup, ?_⟩
    rintro a hr b inNew rfl
    obtain ⟨e, me, rfl⟩ := mem_map.mp hr
    obtain ⟨e', me', eq⟩ := mem_map.mp inNew
    obtain ⟨he, ne⟩ := old e me
    rcases fresh e' me' with hs | notChunk
    · exact ne (eq.symm.trans hs)
    · rw [eq, ← he.chunkIdx] at notChunk
      exact notChunk (min.rep.chunk _ he.pivot)
  · intro e me
    rcases mem_append.mp me with hr | inNew
    · obtain ⟨he, ne⟩ := old e hr
      rw [← he.chunkIdx] at ne
      obtain ⟨idx, chunk⟩ := away e.pivotIdx he.pivot ne
      refine ⟨he.pivot, idx.trans he.chunkIdx, ?_⟩
      rw [chunk]
      exact he.known
    · exact hv e inNew
  · intro x mx
    by_cases atX : s.chunkIdx x = entry.chunkIdx
    · refine (hc x mx atX).imp_right ?_
      rintro ⟨e, me, eq⟩
      exact ⟨e, mem_append_right _ me, eq⟩
    obtain ⟨idx, chunk⟩ := away x mx atX
    rw [idx, chunk]
    refine (min.waiting x mx).imp_right ?_
    rintro ⟨e, me, eq⟩
    rcases mem_cons.mp me with rfl | hr
    · exact absurd eq.symm atX
    · exact ⟨e, mem_append_left _ hr, eq⟩

/-- A minimal chunk leaves the queue. -/
lemma Minimizing.drop (min : Minimizing G hpos base s (entry :: rest))
  (minimal : (G.network hpos).Minimal (chunkOf G s entry.pivotIdx)) :
  Minimizing G hpos base s rest := by
  have entered := min.valid entry (.head _)
  have left : Minimizing G hpos base s (rest ++ []) :=
    min.replace min.rep min.cert min.layered min.keeps (fun _ _ _ => ⟨rfl, rfl⟩) nodup_nil
      (by simp) (by simp) fun i mi atI => .inl ?_
  · rwa [append_nil] at left
  · rw [(min.rep.chunkOf_eq_iff entered.pivot mi).mpr (atI.trans entered.chunkIdx.symm)]
    exact minimal

end

section
variable {entry : NonminimalChunk}

/-- The search ends with a dependency of equal feerates and the pivot on the wanted side, unless
there is none. -/
lemma equalCandidate_spec (s : SpanningForestState) (entry : NonminimalChunk) :
  let info := s.setInfo entry.chunkIdx
  let lower (d : ℕ × ℕ) :=
    (s.setInfo (s.depTopIdx d.1 d.2)).feerate.lowerFeeRate info.feerate = true
  let wrong (d : ℕ × ℕ) := entry.movePivotDown =
    decide (entry.pivotIdx ∈ (s.setInfo (s.depTopIdx d.1 d.2)).transactions)
  let Found (seen : List (ℕ × ℕ)) (found : EqualCandidate) :=
    (found.haveAny = false → ∀ d ∈ seen, lower d) ∧
    (found.tiebreak = 0 → ∀ d ∈ seen, lower d ∨ wrong d) ∧
    (found.tiebreak ≠ 0 → found.dep ∈ seen ∧ ¬ lower found.dep ∧ ¬ wrong found.dep)
  Found (s.activeDeps info.transactions) (s.findEqual entry) := by
  intro info lower wrong Found
  refine foldl_inv Found ⟨by simp, by simp, by simp⟩ fun seen d _ best _ ⟨hm, lost, found⟩ => ?_
  have earlier : best.tiebreak ≠ 0 → best.dep ∈ seen ++ [d] ∧ ¬ lower best.dep ∧ ¬ wrong best.dep :=
    fun pos => (found pos).imp_left (mem_append_left _)
  simp only [Found, forall_mem_append, forall_mem_singleton]
  split_ifs with low side hb
  · exact ⟨fun no => ⟨hm no, low⟩, fun hz => ⟨lost hz, .inl low⟩, earlier⟩
  · exact ⟨by simp, fun hz => ⟨lost hz, .inr side⟩, earlier⟩
  · have pos : best.rng.rand64.1 ||| 1 ≠ 0 := by omega
    exact ⟨by simp, fun hz => absurd hz pos, fun _ => ⟨by simp, low, side⟩⟩
  · have pos : 0 < best.rng.rand64.1 ||| 1 := lt_of_lt_of_le zero_lt_one Nat.right_le_or
    have pos' : best.tiebreak ≠ 0 := by omega
    exact ⟨by simp, fun hz => absurd hz pos', earlier⟩

lemma wanted_side {down : Bool} {inTop : Prop} [Decidable inTop] :
  down ≠ decide inTop ↔ (inTop ↔ down = false) := by
  cases down <;> simp

lemma top_lower (rep : Rep G s) (hpos : G.Positive) {e : ℕ × ℕ} (me : e ∈ (cuts G s).edges) :
  (s.setInfo (s.depTopIdx e.1 e.2)).feerate.lowerFeeRate
      (s.setInfo (s.chunkIdx e.1)).feerate = true ↔
    (G.network hpos).weight ((G.network hpos).rate (chunkOf G s e.1)) ((cuts G s).top e) < 0 := by
  obtain ⟨mi, inTop⟩ := rep.span.first e me
  have sub := (rep.span.topSub e me).trans (rep.span.sub e.1 mi)
  rw [FeeFrac.lowerFeeRate_iff (rep.top_size_pos hpos me) (rep.size_pos hpos mi),
    rep.rate_chunk hpos mi, rep.topRate e me, DepGraph.feeRate_rate hpos,
    weight_neg sub ⟨e.1, inTop⟩]

/-- What the search for an equal-feerate dependency says about the chunk. -/
lemma findEqual_spec (rep : Rep G s) (he : Entered G hpos s entry) :
  ((s.findEqual entry).haveAny = false → ∀ e ∈ (cuts G s).edges, e.1 ∈ chunkOf G s entry.pivotIdx →
      (G.network hpos).weight ((G.network hpos).rate (chunkOf G s e.1)) ((cuts G s).top e) < 0) ∧
  ((s.findEqual entry).tiebreak = 0 → ∀ e ∈ (cuts G s).edges, e.1 ∈ chunkOf G s entry.pivotIdx →
      (entry.pivotIdx ∈ (cuts G s).top e ↔ entry.movePivotDown = false) →
      (G.network hpos).weight ((G.network hpos).rate (chunkOf G s e.1)) ((cuts G s).top e) < 0) ∧
  ((s.findEqual entry).tiebreak ≠ 0 → (s.findEqual entry).dep ∈ (cuts G s).edges ∧
      (s.findEqual entry).dep.1 ∈ chunkOf G s entry.pivotIdx ∧
      0 ≤ (G.network hpos).weight ((G.network hpos).rate (chunkOf G s (s.findEqual entry).dep.1))
        ((cuts G s).top (s.findEqual entry).dep) ∧
      (entry.pivotIdx ∈ (cuts G s).top (s.findEqual entry).dep ↔ entry.movePivotDown = false)) := by
  obtain ⟨hm, lost, hf⟩ := equalCandidate_spec s entry
  dsimp only at hm lost hf
  have chunk : chunkOf G s entry.pivotIdx = (s.setInfo entry.chunkIdx).transactions := by
    rw [chunkOf_eq he.pivot, he.chunkIdx]
  have home : ∀ i ∈ (s.setInfo entry.chunkIdx).transactions, s.chunkIdx i = entry.chunkIdx := by
    rw [← he.chunkIdx]
    exact rep.home _ he.pivot
  rw [chunk]
  have listed : ∀ e ∈ (cuts G s).edges, e.1 ∈ (s.setInfo entry.chunkIdx).transactions →
    e ∈ s.activeDeps (s.setInfo entry.chunkIdx).transactions :=
    fun e me hi => mem_activeDeps.mpr ⟨hi, (mem_edges.mp me).2⟩
  refine ⟨fun no e me hi => ?_, fun hz e me hi side => ?_, fun pos => ?_⟩
  · have lower := hm no e (listed e me hi)
    rwa [← home e.1 hi, top_lower rep hpos me] at lower
  · rcases lost hz e (listed e me hi) with lower | wrong
    · rwa [← home e.1 hi, top_lower rep hpos me] at lower
    · exact absurd wrong (wanted_side.mpr side)
  · obtain ⟨md, notLower, side⟩ := hf pos
    obtain ⟨hi, ha⟩ := mem_activeDeps.mp md
    have sub : (s.setInfo entry.chunkIdx).transactions ⊆ G.positions := by
      rw [← chunk]
      exact rep.partition.sub _ he.pivot
    have me := mem_edges.mpr ⟨sub hi, ha⟩
    rw [← home _ hi, top_lower rep hpos me, not_lt] at notLower
    exact ⟨me, hi, notLower, wanted_side.mp side⟩

end

section
variable {base : ℚ → ℚ} {entry : NonminimalChunk} {rest : List NonminimalChunk}

/-- An active dependency with top and bottom sets of equal feerate. -/
structure EqualCut (G : DepGraph) (positive : G.Positive) (s : SpanningForestState)
  (p c : ℕ) : Prop where
  deact : Deactivable G s p c
  zero : (G.network positive).weight ((G.network positive).rate (chunkOf G s p))
    ((cuts G s).top (p, c)) = 0

namespace EqualCut

variable (cut : EqualCut G hpos s p c)

include cut

lemma rate_top : (G.network hpos).rate ((cuts G s).top (p, c)) =
  (G.network hpos).rate (chunkOf G s p) :=
  (weight_eq_zero cut.deact.top_positions ⟨p, cut.deact.parent_top⟩).mp cut.zero

lemma rate_rest : (G.network hpos).rate (chunkOf G s p \ (cuts G s).top (p, c)) =
  (G.network hpos).rate (chunkOf G s p) := by
  have partition := cut.deact.rep.partition
  have sub := partition.sub p cut.deact.memP
  rw [← weight_eq_zero (Finset.sdiff_subset.trans sub)
    ⟨c, mem_sdiff.mpr ⟨cut.deact.child_chunk, cut.deact.child_notTop⟩⟩,
    weight_sdiff cut.deact.top_chunk, cut.zero, sub_zero]
  exact weight_rate sub (partition.nonempty cut.deact.memP)

lemma cert (cert : Certified (G.network hpos) (cuts G s)) :
  Certified (G.network hpos) (cuts G (s.deactivate G p c).2) := by
  have part := chunkOf_part (s := s) cut.deact.memP
  have top := cut.rate_top
  have rest := cut.rate_rest
  rw [part] at top rest
  exact (cert.cut cut.deact.edge top rest).congr cut.deact.agrees

end EqualCut

section
variable (min : Minimizing G hpos base s (entry :: rest)) (cut : EqualCut G hpos s p c)
include min cut

/-- The chunk is divided and joined again at another dependency. -/
lemma Minimizing.rejoined (hi : p ∈ chunkOf G s entry.pivotIdx) {p' c' : ℕ}
  (hr : p' ∈ chunkOf G s p \ (cuts G s).top (p, c)) (ht : c' ∈ (cuts G s).top (p, c))
  (hj : JoinsTo G (s.deactivate G p c).2 s' p' c') (chunks : chunkOf G s' = chunkOf G s)
  (atP : s'.chunkIdx p = (s.deactivate G p c).2.chunkIdx c') :
  Minimizing G hpos base s' (rest ++ [{ entry with chunkIdx := s'.chunkIdx p }]) := by
  have deact := cut.deact
  have entered := min.valid entry (.head _)
  have atV : s.chunkIdx p = entry.chunkIdx := by
    rw [← entered.chunkIdx]
    exact (min.rep.chunkOf_eq_iff entered.pivot deact.memP).mp
      (min.rep.partition.same _ entered.pivot p hi)
  have idx : s'.chunkIdx p = s.depTopIdx p c := by
    rw [atP, Deactivable.chunkIdx_eq, if_pos ht]
  have rest₁ : chunkOf G (s.deactivate G p c).2 p' = chunkOf G s p \ (cuts G s).top (p, c) := by
    rw [deact.chunkOf_deactivate, split, if_neg (mem_sdiff.mp hr).2, if_pos (mem_sdiff.mp hr).1]
  have top₁ : chunkOf G (s.deactivate G p c).2 c' = (cuts G s).top (p, c) := by
    rw [deact.chunkOf_deactivate, split, if_pos ht]
  refine min.replace hj.rep ?_ ?_ ?_ ?_ (by simp) ?_ ?_ ?_
  · refine ((cut.cert min.cert).join hj.act.isChild hj.act.joinable.apart ?_).congr hj.agrees
    rw [← chunkOf_part hj.act.memP, ← chunkOf_part hj.act.memC, rest₁, top₁, cut.rate_rest,
      cut.rate_top]
  · rw [chunks]
    exact min.layered
  · rw [chunks]
    exact min.keeps
  · intro i mi ne
    rw [← atV] at ne
    obtain ⟨out, idx', -⟩ := deact.away ne
    rw [← chunkOf_part deact.memP] at out
    refine ⟨?_, by rw [chunks]⟩
    rw [hj.chunkIdx, if_neg, idx']
    rw [rest₁]
    exact fun hr => out (mem_sdiff.mp hr).1
  · intro e me
    rw [mem_singleton.mp me]
    right
    rw [idx]
    exact min.rep.fresh _ deact.edge
  · intro e me
    rw [mem_singleton.mp me]
    refine ⟨entered.pivot, ?_, ?_⟩
    · refine (hj.rep.chunkOf_eq_iff deact.memP entered.pivot).mp ?_
      rw [chunks]
      exact (min.rep.partition.same _ entered.pivot p hi).symm
    · rw [chunks]
      exact entered.known
  · intro i mi atI
    refine .inr ⟨_, mem_singleton_self _, ?_⟩
    refine ((hj.rep.chunkOf_eq_iff deact.memP mi).mp ?_).symm
    rw [chunks]
    exact (min.rep.chunkOf_eq_iff deact.memP mi).mpr (atI.trans atV.symm)

lemma Minimizing.halved (atV : s.chunkIdx p = entry.chunkIdx)
  (free : ∀ a b, b ∈ G.children a → a ∈ chunkOf G s p \ (cuts G s).top (p, c) →
    b ∉ (cuts G s).top (p, c)) {upper lower : NonminimalChunk}
  (heu : Entered G hpos (s.deactivate G p c).2 upper)
  (hel : Entered G hpos (s.deactivate G p c).2 lower)
  (idxU : upper.chunkIdx = s.depTopIdx p c) (idxL : lower.chunkIdx = s.chunkIdx p)
  {new : List NonminimalChunk} (perm : new.Perm [upper, lower]) :
  Minimizing G hpos base (s.deactivate G p c).2 (rest ++ new) := by
  have deact := cut.deact
  have partition := min.rep.partition
  have proper : (chunkOf G s p \ (cuts G s).top (p, c)).Nonempty :=
    ⟨c, mem_sdiff.mpr ⟨deact.child_chunk, deact.child_notTop⟩⟩
  refine min.replace deact.rep_deactivate (cut.cert min.cert) ?_ ?_ ?_ ?_ ?_ ?_ ?_
  · obtain ⟨level, hl⟩ := min.layered
    rw [deact.chunkOf_deactivate]
    exact ⟨_, hl.split_layers partition deact.memP deact.top_chunk ⟨p, deact.parent_top⟩
      cut.rate_top cut.rate_rest free⟩
  · intro r
    rw [deact.chunkOf_deactivate]
    exact (min.keeps r).trans (potential_le_split partition deact.memP deact.top_chunk
      ⟨p, deact.parent_top⟩ proper r)
  · intro i _ ne
    rw [← atV] at ne
    exact (deact.away ne).2
  · rw [(perm.map _).nodup_iff]
    simp only [map_cons, map_nil, idxU, idxL]
    simpa using deact.top_ne
  · intro e me
    rcases mem_pair.mp (perm.mem_iff.mp me) with rfl | rfl
    · right
      rw [idxU]
      exact min.rep.fresh _ deact.edge
    · left
      rw [idxL, atV]
  · intro e me
    rcases mem_pair.mp (perm.mem_iff.mp me) with rfl | rfl
    · exact heu
    · exact hel
  · intro i _ atI
    right
    rw [Deactivable.chunkIdx_eq]
    split_ifs
    · exact ⟨upper, perm.mem_iff.mpr (by simp), idxU⟩
    · exact ⟨lower, perm.mem_iff.mpr (by simp), idxL.trans (atV.trans atI.symm)⟩

end

lemma pickRandomTx_mem {T : Finset ℕ} (nonempty : T.Nonempty) : (s.pickRandomTx T).1 ∈ T := by
  have bound : s.rng.answers s.rng.used % T.card < (ascending T).length := by
    rw [length_ascending]
    exact Nat.mod_lt _ (Finset.card_pos.mpr nonempty)
  change (ascending T).getD (s.rng.answers s.rng.used % T.card) 0 ∈ T
  rw [getD_eq_getElem _ _ bound]
  exact mem_ascending.mp (getElem_mem bound)

/-- The entries of the two chunks: the one with the pivot goes on with it. -/
lemma queueSplit_spec (s : SpanningForestState) (entry : NonminimalChunk) (parentIdx childIdx : ℕ) :
  ∃ pivot down, pivot = (s.pickRandomTx
      (s.setInfo (if entry.movePivotDown then parentIdx else childIdx)).transactions).1 ∧
    SameForest s (s.queueSplit entry parentIdx childIdx) ∧
    ∃ new, (s.queueSplit entry parentIdx childIdx).nonminimalChunks = s.nonminimalChunks ++ new ∧
      new.Perm (if entry.movePivotDown
        then [⟨parentIdx, pivot, down, false⟩, { entry with chunkIdx := childIdx }]
        else [{ entry with chunkIdx := parentIdx }, ⟨childIdx, pivot, down, false⟩]) := by
  refine ⟨_, ((s.pickRandomTx (s.setInfo (if entry.movePivotDown then parentIdx
    else childIdx)).transactions).2.rng.randbool).1, rfl, ⟨rfl, rfl, rfl, rfl, rfl, rfl⟩, _, rfl, ?_⟩
  cases entry.movePivotDown
  · simp only [Bool.false_eq_true, if_false]
    split
    · exact List.Perm.swap _ _ _
    · exact List.Perm.refl _
  · simp only [if_true]
    split
    · exact List.Perm.swap _ _ _
    · exact List.Perm.refl _

end

variable {base : ℚ → ℚ} {entry : NonminimalChunk} {rest : List NonminimalChunk}

/-- The state after the search for an equal-feerate dependency. -/
def searched (s : SpanningForestState) (entry : NonminimalChunk) (rest : List NonminimalChunk) :
  SpanningForestState :=
  { s with
    nonminimalChunks := rest
    rng := (s.findEqual entry).rng
    cost := s.cost + (11 * (s.setInfo entry.chunkIdx).transactions.card + 11) }

lemma minimizeStep_cons (hq : s.nonminimalChunks = entry :: rest) : s.minimizeStep G =
    if !(s.findEqual entry).haveAny then (true, s.searched entry rest)
    else if (s.findEqual entry).tiebreak = 0 then
      if entry.secondStage then (true, s.searched entry rest)
      else (true, { s.searched entry rest with nonminimalChunks := rest ++
          [{ entry with movePivotDown := !entry.movePivotDown, secondStage := true }] })
    else
      let dep := (s.findEqual entry).dep
      let s := s.searched entry rest
      let s₁ := (s.deactivate G dep.1 dep.2).2
      if ((s₁.reachable (s.depTopIdx dep.1 dep.2)).1 ∩
          (s₁.setInfo (s.chunkIdx dep.1)).transactions).Nonempty then
        match s₁.mergeChunks G (s.chunkIdx dep.1) (s.depTopIdx dep.1 dep.2) with
        | (some merged, s) => (true, { s with
            nonminimalChunks := s.nonminimalChunks ++ [{ entry with chunkIdx := merged }]
            cost := s.cost + 7 })
        | (none, s) => (true, s)
      else (true, s₁.queueSplit entry (s.depTopIdx dep.1 dep.2) (s.chunkIdx dep.1)) := by
  rw [minimizeStep, hq]
  rfl

section
variable (min : Minimizing G hpos base s (entry :: rest))
include min

/-- A chunk without a split on the wanted side of the pivot. -/
lemma unsplit_of_lost (lost : (s.findEqual entry).tiebreak = 0) :
  (G.network hpos).Unsplit (chunkOf G s entry.pivotIdx) entry.pivotIdx entry.movePivotDown := by
  have entered := min.valid entry (.head _)
  have low := (findEqual_spec min.rep entered).2.1 lost
  have part : chunkOf G s entry.pivotIdx = (cuts G s).part entry.pivotIdx :=
    chunkOf_part entered.pivot
  rw [part]
  refine min.cert.unsplit entered.pivot (min.rep.span.self _ entered.pivot) fun e me hi side => ?_
  rw [← part] at hi ⊢
  have below := low e me hi side
  rwa [min.rep.partition.same _ entered.pivot e.1 hi] at below

lemma minimal_of_missing (hm : (s.findEqual entry).haveAny = false) :
  (G.network hpos).Minimal (chunkOf G s entry.pivotIdx) := by
  have entered := min.valid entry (.head _)
  have low := (findEqual_spec min.rep entered).1 hm
  have part : chunkOf G s entry.pivotIdx = (cuts G s).part entry.pivotIdx :=
    chunkOf_part entered.pivot
  rw [part]
  refine min.cert.minimal entered.pivot fun e me hi => ?_
  rw [← part] at hi ⊢
  have below := low e me hi
  rwa [min.rep.partition.same _ entered.pivot e.1 hi] at below

/-- The first stage has failed, and the pivot is moved in the other direction. -/
lemma Minimizing.flip
  (unsplit : (G.network hpos).Unsplit (chunkOf G s entry.pivotIdx) entry.pivotIdx
    entry.movePivotDown) : Minimizing G hpos base s
    (rest ++ [{ entry with movePivotDown := !entry.movePivotDown, secondStage := true }]) := by
  have entered := min.valid entry (.head _)
  refine min.replace min.rep min.cert min.layered min.keeps (fun _ _ _ => ⟨rfl, rfl⟩) (by simp)
    ?_ ?_ ?_
  · intro e me
    rw [mem_singleton.mp me]
    exact .inl rfl
  · intro e me
    rw [mem_singleton.mp me]
    refine ⟨entered.pivot, entered.chunkIdx, fun _ => ?_⟩
    rw [Bool.not_not]
    exact unsplit
  · intro i _ atI
    exact .inr ⟨_, mem_singleton_self _, atI.symm⟩

lemma Minimizing.split (cut : EqualCut G hpos s p c) (hi : p ∈ chunkOf G s entry.pivotIdx)
  (side : entry.pivotIdx ∈ (cuts G s).top (p, c) ↔ entry.movePivotDown = false)
  (free : ∀ a b, b ∈ G.children a → a ∈ chunkOf G s p \ (cuts G s).top (p, c) →
    b ∉ (cuts G s).top (p, c)) {pivot : ℕ} {down : Bool}
  (hp : pivot ∈ ((s.deactivate G p c).2.setInfo (if entry.movePivotDown
    then s.depTopIdx p c else s.chunkIdx p)).transactions)
  {new : List NonminimalChunk} (perm : new.Perm (if entry.movePivotDown
    then [⟨s.depTopIdx p c, pivot, down, false⟩, { entry with chunkIdx := s.chunkIdx p }]
    else [{ entry with chunkIdx := s.depTopIdx p c }, ⟨s.chunkIdx p, pivot, down, false⟩])) :
  Minimizing G hpos base (s.deactivate G p c).2 (rest ++ new) := by
  have deact := cut.deact
  have rep₁ := deact.rep_deactivate
  have entered := min.valid entry (.head _)
  have same := min.rep.partition.same _ entered.pivot p hi
  have atV : s.chunkIdx p = entry.chunkIdx := by
    rw [← entered.chunkIdx]
    exact (min.rep.chunkOf_eq_iff entered.pivot deact.memP).mp same
  have inChunk : entry.pivotIdx ∈ chunkOf G s p := by
    rw [same]
    exact min.rep.partition.self _ entered.pivot
  have closed : (G.network hpos).ClosedIn (chunkOf G s p) ((cuts G s).top (p, c)) := by
    refine ⟨deact.top_chunk, fun a b hd isTop inC => ?_⟩
    by_contra notTop
    exact free a b hd (mem_sdiff.mpr ⟨inC, notTop⟩) isTop
  -- the chunk without the pivot gets one of its own transactions
  have newEntered : ∀ {i : ℕ}, i ∈ G.positions → pivot ∈ ((s.deactivate G p c).2.setInfo
      ((s.deactivate G p c).2.chunkIdx i)).transactions →
    Entered G hpos (s.deactivate G p c).2
      ⟨(s.deactivate G p c).2.chunkIdx i, pivot, down, false⟩ := by
    intro i mi hp
    exact ⟨rep₁.chunk_sub mi hp, rep₁.home i mi pivot hp, fun hs => by cases hs⟩
  by_cases isDown : entry.movePivotDown = true
  · have notTop : entry.pivotIdx ∉ (cuts G s).top (p, c) := by
      rw [side, isDown]
      simp
    rw [if_pos isDown] at perm hp
    have enteredU := newEntered deact.memP (by rw [deact.chunkIdx_parent]; exact hp)
    rw [deact.chunkIdx_parent] at enteredU
    have enteredL : Entered G hpos (s.deactivate G p c).2
      { entry with chunkIdx := s.chunkIdx p } := by
      refine ⟨entered.pivot, ?_, fun hs => ?_⟩
      · change (s.deactivate G p c).2.chunkIdx entry.pivotIdx = s.chunkIdx p
        rw [Deactivable.chunkIdx_eq, if_neg notTop, atV, entered.chunkIdx]
      have known := entered.known hs
      rw [← same, isDown] at known
      rw [isDown, deact.chunkOf_deactivate, RatedParts.split, if_neg notTop, if_pos inChunk]
      exact known.rest closed cut.zero cut.rate_rest
    exact min.halved cut atV free enteredU enteredL rfl rfl perm
  · have isUp := Bool.not_eq_true _ ▸ isDown
    have isTop := side.mpr isUp
    rw [if_neg isDown] at perm hp
    have enteredL := newEntered deact.memC (by rw [deact.chunkIdx_child]; exact hp)
    rw [deact.chunkIdx_child] at enteredL
    have enteredU : Entered G hpos (s.deactivate G p c).2
      { entry with chunkIdx := s.depTopIdx p c } := by
      refine ⟨entered.pivot, ?_, fun hs => ?_⟩
      · change (s.deactivate G p c).2.chunkIdx entry.pivotIdx = s.depTopIdx p c
        rw [Deactivable.chunkIdx_eq, if_pos isTop]
      have known := entered.known hs
      rw [← same, isUp] at known
      rw [isUp, deact.chunkOf_deactivate, RatedParts.split, if_pos isTop]
      exact known.top closed cut.rate_top isTop
    exact min.halved cut atV free enteredU enteredL rfl rfl perm

end

/-- The invariant as the state has it. -/
abbrev Minimizes (G : DepGraph) (positive : G.Positive) (base : ℚ → ℚ)
  (s : SpanningForestState) : Prop :=
  Minimizing G positive base s s.nonminimalChunks

/-- The chunk can be divided at the dependency. -/
lemma Minimizing.queueSplit (min : Minimizing G hpos base s (entry :: s.nonminimalChunks))
  (cut : EqualCut G hpos s p c) (hi : p ∈ chunkOf G s entry.pivotIdx)
  (side : entry.pivotIdx ∈ (cuts G s).top (p, c) ↔ entry.movePivotDown = false)
  (free : ¬ (s.blockers G p c).Nonempty) : Minimizes G hpos base
    ((s.deactivate G p c).2.queueSplit entry (s.depTopIdx p c) (s.chunkIdx p)) := by
  have deact := cut.deact
  have rep₁ := deact.rep_deactivate
  obtain ⟨pivot, down, isPivot, hs, new, queue, perm⟩ :=
    queueSplit_spec (s.deactivate G p c).2 entry (s.depTopIdx p c) (s.chunkIdx p)
  rw [Minimizes, queue, deact.queues.nonminimalChunks]
  refine (min.split cut hi side (fun a b hc hr ht => ?_) ?_ perm).congr hs
  · exact free ⟨a, deact.mem_blockers.mpr ⟨hr, b, ht, hc⟩⟩
  rw [isPivot]
  refine pickRandomTx_mem ?_
  split_ifs
  · rw [← deact.chunkIdx_parent]
    exact ⟨p, rep₁.span.self p deact.memP⟩
  · rw [← deact.chunkIdx_child]
    exact ⟨c, rep₁.span.self c deact.memC⟩

/-- A step keeps the invariant, and the last one leaves nothing in the queue. -/
lemma minimizeStep_spec (min : Minimizes G hpos base s) :
  Minimizes G hpos base (s.minimizeStep G).2 ∧
    ((s.minimizeStep G).1 = false → (s.minimizeStep G).2.nonminimalChunks = []) := by
  cases queued : s.nonminimalChunks with
  | nil =>
    have none_ : s.minimizeStep G = (false, s) := by rw [minimizeStep, queued]
    rw [none_]
    exact ⟨min, fun _ => queued⟩
  | cons entry rest =>
    rw [Minimizes, queued] at min
    have same : SameForest s (s.searched entry rest) := ⟨rfl, rfl, rfl, rfl, rfl, rfl⟩
    have entered := min.valid entry (.head _)
    rw [minimizeStep_cons queued]
    split_ifs with hm lost hs
    · rw [Bool.not_eq_true'] at hm
      exact ⟨(min.drop (minimal_of_missing min hm)).congr same, by simp⟩
    · have minimal := (unsplit_of_lost min lost).minimal (entered.known hs)
      exact ⟨(min.drop minimal).congr same, by simp⟩
    · have flipped := (min.flip (unsplit_of_lost min lost)).congr same
      exact ⟨flipped.congr ⟨rfl, rfl, rfl, rfl, rfl, rfl⟩, by simp⟩
    · obtain ⟨edge, hi, hh, side⟩ := (findEqual_spec min.rep entered).2.2 lost
      have low := min.cert.tops _ edge
      rw [← chunkOf_part (mem_edges.mp edge).1] at low
      have min₀ := min.congr same
      have cut : EqualCut G hpos (s.searched entry rest) (s.findEqual entry).dep.1
        (s.findEqual entry).dep.2 :=
        ⟨⟨min₀.rep, edge⟩, le_antisymm low hh⟩
      dsimp only
      split_ifs with blocked
      · obtain ⟨p', hr, c', ht, s₂, eq, hj, chunks, atP⟩ := cut.deact.rejoin blocked
        have queues := cut.deact.queues.trans hj.queues
        rw [eq]
        refine ⟨?_, by simp⟩
        change Minimizing G hpos base _ (s₂.nonminimalChunks ++ _)
        rw [queues.nonminimalChunks]
        exact (min₀.rejoined cut hi hr ht hj chunks atP).congr ⟨rfl, rfl, rfl, rfl, rfl, rfl⟩
      · exact ⟨min₀.queueSplit cut hi side blocked, by simp⟩

/-- The loop reports success only with all chunks minimal. -/
lemma minimizeLoop_spec (maxCost : ℕ) : ∀ (fuel : ℕ) (s : SpanningForestState),
  Minimizes G hpos base s → Minimizes G hpos base (minimizeLoop G maxCost fuel s).2 ∧
    ((minimizeLoop G maxCost fuel s).1 = true →
      (minimizeLoop G maxCost fuel s).2.nonminimalChunks = []) := by
  intro fuel
  induction fuel with
  | zero => exact fun s min => ⟨min, fun no => by cases no⟩
  | succ fuel ih =>
    intro s min
    obtain ⟨min', hf⟩ := minimizeStep_spec min
    rw [minimizeLoop]
    split
    · next s' eq =>
      rw [eq] at min' hf
      exact ⟨min', fun _ => hf rfl⟩
    · next s' eq =>
      rw [eq] at min'
      split_ifs
      · exact ih s' min'
      · exact ⟨min', fun no => by cases no⟩

/-- The queue has an entry for each of the chunks. -/
structure Queued (s : SpanningForestState) (idxs : List ℕ) (s' : SpanningForestState) : Prop where
  same : SameForest s s'
  all : (s'.nonminimalChunks.map NonminimalChunk.chunkIdx).Perm idxs
  entries : ∀ e ∈ s'.nonminimalChunks,
    e.secondStage = false ∧ e.pivotIdx ∈ (s.setInfo e.chunkIdx).transactions

lemma startMinimizing_queued
  (nonempty : ∀ idx ∈ s.chunkIdxs, (s.setInfo idx).transactions.Nonempty) :
  Queued s (ascending s.chunkIdxs) s.startMinimizing := by
  have charged : ∀ {idxs s'}, Queued s idxs s' → ∀ cost, Queued s idxs (s'.charge cost) :=
    fun queued _ => ⟨{ queued.same with }, queued.all, queued.entries⟩
  refine charged (foldl_inv (Queued s) ?_ ?_) _
  · exact ⟨⟨rfl, rfl, rfl, rfl, rfl, rfl⟩, .nil, by simp⟩
  intro idxs idx _ s' eq ⟨same, all, entries⟩
  have isPivot : (s'.pickRandomTx (s'.setInfo idx).transactions).1 ∈ (s.setInfo idx).transactions := by
    rw [same.setInfo]
    exact pickRandomTx_mem (nonempty idx (mem_ascending.mp (by simp [eq])))
  refine ⟨{ same with }, ?_, fun e me => ?_⟩
  · refine ((pushRandom_perm _ _ _).map _).trans ?_
    exact (all.cons idx).trans (perm_append_singleton idx idxs).symm
  · rcases mem_cons.mp ((pushRandom_perm _ _ _).mem_iff.mp me) with rfl | me
    · exact ⟨rfl, isPivot⟩
    · exact entries e me

lemma startMinimizing_spec (opt : Optimizing G hpos base ∅ s)
  (empty : s.suboptimalChunks = []) : Minimizes G hpos base s.startMinimizing := by
  have rep := opt.rep
  obtain ⟨same, all, entries⟩ := startMinimizing_queued (s := s) fun idx mem => by
    obtain ⟨i, mi, rfl⟩ := rep.owner idx mem
    exact ⟨i, rep.span.self i mi⟩
  refine Minimizing.congr ?_ same
  refine ⟨rep, opt.certified empty, ⟨_, Layered.of_ordered opt.inOrder⟩, opt.keeps, ?_, ?_, ?_⟩
  · exact all.nodup_iff.mpr (nodup_ascending _)
  · intro entry me
    obtain ⟨stage, isPivot⟩ := entries entry me
    obtain ⟨i, mi, atI⟩ := rep.owner _ (mem_ascending.mp (all.mem_iff.mp (mem_map_of_mem me)))
    rw [← atI] at isPivot
    refine ⟨rep.chunk_sub mi isPivot, (rep.home i mi _ isPivot).trans atI, fun hse => ?_⟩
    rw [stage] at hse
    cases hse
  · intro x mx
    exact .inr (mem_map.mp (all.mem_iff.mpr (mem_ascending.mpr (rep.chunk x mx))))

end SpanningForestState

end ClusterLinearize
