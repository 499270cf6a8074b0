import Andaluzcoin.BlockIndex
import Andaluzcoin.Outcome

/-!
# Facts about the block index

The entries form a tree, `CBlockIndexWorkComparator` orders them linearly, and each
operation on the chainstate changes the marks and candidates that its name says.
-/

namespace BlockIndex

open ParentTree Ranking List Ancestor BlockMap

namespace BlockMap

variable {index : BlockMap} {a b p : BlockId}

lemma edge_spec (edge : index.pprev b = some p) :
  b ∈ index.ids ∧ p ∈ index.ids ∧ index.nHeight b = index.nHeight p + 1 := by
  have hm : b ∈ index.ids := by
    by_contra outside
    rw [index.outside b outside] at edge
    cases edge
  rcases index.rooted b hm with ⟨none_, -, -⟩ | ⟨p', hi, edge', heights⟩
  · rw [none_] at edge
    cases edge
  · cases edge.symm.trans edge'
    exact ⟨hm, hi, heights⟩

lemma graded (index : BlockMap) : Graded index.pprev index.nHeight :=
  fun _ _ edge => (edge_spec edge).2.2

lemma parent_mem (edge : index.pprev b = some p) : p ∈ index.ids := (edge_spec edge).2.1

lemma mem_of_parent (edge : index.pprev b = some p) : b ∈ index.ids := (edge_spec edge).1

lemma Above.mem (ha : index.Above a b) (hm : b ∈ index.ids) : a ∈ index.ids := by
  obtain ⟨n, hs⟩ := ha
  induction n generalizing b with
  | zero =>
    cases hs
    exact hm
  | succ n ih =>
    obtain ⟨p, edge, rest⟩ := up_succ hs
    exact ih (parent_mem edge) rest

/-- Every entry descends from genesis. -/
lemma genesis_above (hm : b ∈ index.ids) : index.Above index.genesis b := by
  generalize height : index.nHeight b = n
  induction n generalizing b with
  | zero =>
    rcases index.rooted b hm with ⟨-, -, rfl⟩ | ⟨p, -, -, heights⟩
    · exact .refl _
    · omega
  | succ n ih =>
    rcases index.rooted b hm with ⟨-, zero, -⟩ | ⟨p, hi, edge, heights⟩
    · omega
    · exact .step edge (ih hi (by omega))

lemma descends_iff : index.descends b a = true ↔ index.Above a b := by
  rw [descends, beq_iff_eq]
  constructor
  · exact ancestor_of_getAncestor
  · exact getAncestor_of_ancestor index.graded

lemma not_above_parent (edge : index.pprev b = some p) : ¬ index.Above b p := by
  intro ha
  have higher := index.graded b p edge
  have lower := height_le index.graded ha
  omega

lemma above_cases (ha : index.Above a b) (edge : index.pprev b = some p) :
  a = b ∨ index.Above a p := by
  rcases eq_or_above ha with rfl | ⟨p', edge', ha⟩
  · exact .inl rfl
  · cases edge.symm.trans edge'
    exact .inr ha

/-- What holds of all ancestors holds of the block and of all ancestors of its parent. -/
lemma forall_above_iff {P : BlockId → Prop} : (∀ a, index.Above a b → P a) ↔
  P b ∧ ∀ p, index.pprev b = some p → ∀ a, index.Above a p → P a := by
  constructor
  · exact fun all => ⟨all b (.refl b), fun p edge a ha => all a (.step edge ha)⟩
  · rintro ⟨here, above⟩ a ha
    rcases eq_or_above ha with rfl | ⟨p, edge, ha⟩
    · exact here
    · exact above p edge a ha

end BlockMap

namespace Chainstate

variable {s : Chainstate} {a b : BlockId}

/-- More work ranks higher, then the smaller sequence number, then the smaller address. -/
def rank (s : Chainstate) (b : BlockId) : ℕ ×ₗ ℤ ×ₗ ℤ :=
  toLex (s.index.nChainWork b, toLex (-s.nSequenceId b, -(b : ℤ)))

lemma rank_lt_iff {a b : ℕ} : s.rank a < s.rank b ↔
  s.index.nChainWork a < s.index.nChainWork b ∨ (s.index.nChainWork a = s.index.nChainWork b ∧
    (s.nSequenceId b < s.nSequenceId a ∨ (s.nSequenceId a = s.nSequenceId b ∧ b < a))) := by
  simp only [rank, Prod.Lex.toLex_lt_toLex]
  omega

lemma rank_injective (s : Chainstate) : Function.Injective s.rank := by
  intro a b hs
  have address := congrArg (fun r => (ofLex (ofLex r).2).2) hs
  exact Int.ofNat_inj.mp (neg_inj.mp address)

lemma workLess_follows (s : Chainstate) : Follows s.workLess s.rank := by
  intro (a : ℕ) (b : ℕ)
  rw [rank_lt_iff]
  simp only [workLess]
  split_ifs <;> simp only [false_iff, true_iff] <;> omega

lemma work_le_of_rank_le (le : s.rank a ≤ s.rank b) :
  s.index.nChainWork a ≤ s.index.nChainWork b := by
  by_contra more
  exact absurd le (not_le.mpr (rank_lt_iff.mpr (.inl (by omega))))

lemma contains_iff : s.contains b = true ↔ s.index.Above b s.tip := descends_iff

lemma contains_eq_false : s.contains b = false ↔ ¬ s.index.Above b s.tip := by
  rw [← Bool.not_eq_true, contains_iff]

/-- What is left alone when blocks are connected, disconnected and marked. -/
structure Frame (s s' : Chainstate) : Prop where
  index : s'.index = s.index
  nTx : s'.nTx = s.nTx
  chainTxCount : s'.chainTxCount = s.chainTxCount
  haveData : s'.haveData = s.haveData
  nSequenceId : s'.nSequenceId = s.nSequenceId
  blocksUnlinked : s'.blocksUnlinked = s.blocksUnlinked

lemma Frame.refl (s : Chainstate) : Frame s s := ⟨rfl, rfl, rfl, rfl, rfl, rfl⟩

lemma Frame.trans {s s' s'' : Chainstate} (first : Frame s s') (hs : Frame s' s'') :
  Frame s s'' := by
  constructor
  · exact hs.index.trans first.index
  · exact hs.nTx.trans first.nTx
  · exact hs.chainTxCount.trans first.chainTxCount
  · exact hs.haveData.trans first.haveData
  · exact hs.nSequenceId.trans first.nSequenceId
  · exact hs.blocksUnlinked.trans first.blocksUnlinked

lemma Frame.rank {s s' : Chainstate} (frame : Frame s s') : s'.rank = s.rank := by
  funext b
  simp only [Chainstate.rank, frame.index, frame.nSequenceId]

/-- The best header is unmarked and no unmarked block has more work. -/
structure BestHeader (s : Chainstate) : Prop where
  member : s.bestHeader ∈ s.index.ids
  unmarked : s.failedValid s.bestHeader = false
  most : ∀ b ∈ s.index.ids, s.failedValid b = false →
    s.index.nChainWork b ≤ s.index.nChainWork s.bestHeader

lemma recalculateBestHeader_spec (hme : s.tip ∈ s.index.ids)
  (hu : s.failedValid s.tip = false) : s.recalculateBestHeader.BestHeader := by
  let Best (seen : List BlockId) (best : BlockId) := best ∈ s.index.ids ∧
    s.failedValid best = false ∧
    ∀ b ∈ seen, s.failedValid b = false → s.index.nChainWork b ≤ s.index.nChainWork best
  obtain ⟨hi, good, most⟩ : Best s.index.ids s.recalculateBestHeader.bestHeader := by
    refine foldl_inv Best ⟨hme, hu, by simp⟩ fun seen b later best eq ⟨hi, good, most⟩ => ?_
    simp only [Best, forall_mem_append, forall_mem_singleton]
    split_ifs with better
    · simp only [Bool.and_eq_true, Bool.not_eq_true', decide_eq_true_eq] at better
      refine ⟨by simp [eq], better.1, fun b' hm isGood => ?_, fun _ => le_rfl⟩
      exact (most b' hm isGood).trans better.2.le
    · simp only [Bool.and_eq_true, Bool.not_eq_true', decide_eq_true_eq, not_and, not_lt] at better
      exact ⟨hi, good, most, better⟩
  exact ⟨hi, good, most⟩

lemma noteInvalid_eq (s : Chainstate) (p : BlockId) :
  ∃ bestInvalid, s.noteInvalid p = { s with bestInvalid := bestInvalid } := by
  unfold noteInvalid
  split
  · split
    · exact ⟨_, rfl⟩
    · exact ⟨s.bestInvalid, rfl⟩
  · exact ⟨_, rfl⟩

/-- `InvalidChainFound` marks what descends from the block, and looks for another best header
if that was among it. -/
lemma invalidChainFound_eq (s : Chainstate) (p : BlockId) : ∃ failedValid bestHeader bestInvalid,
  s.invalidChainFound p = { s with
    failedValid := failedValid
    bestHeader := bestHeader
    bestInvalid := bestInvalid } ∧
  ∀ b, failedValid b = true ↔
    s.failedValid b = true ∨ (b ∈ s.index.ids ∧ b ≠ p ∧ s.index.Above p b) := by
  obtain ⟨bestInvalid, noted⟩ := noteInvalid_eq s p
  unfold invalidChainFound
  rw [noted]
  have marked : ∀ b, (s.setBlockFailureFlags p).failedValid b = true ↔
    s.failedValid b = true ∨ (b ∈ s.index.ids ∧ b ≠ p ∧ s.index.Above p b) := by
    intro b
    simp only [setBlockFailureFlags, markFailed, Bool.or_eq_true, decide_eq_true_eq, mem_filter,
      descends_iff]
  dsimp only
  split
  · exact ⟨_, _, bestInvalid, rfl, marked⟩
  · exact ⟨_, s.bestHeader, bestInvalid, rfl, marked⟩

lemma invalidChainFound_bestHeader {p : BlockId} (hme : s.tip ∈ s.index.ids)
  (hu : (s.invalidChainFound p).failedValid s.tip = false) (hi : s.bestHeader ∈ s.index.ids)
  (below : s.failedValid s.bestHeader = true → s.index.Above p s.bestHeader)
  (most : ∀ b ∈ s.index.ids, s.failedValid b = false →
    s.index.nChainWork b ≤ s.index.nChainWork s.bestHeader) :
  (s.invalidChainFound p).BestHeader := by
  obtain ⟨bestInvalid, noted⟩ := noteInvalid_eq s p
  unfold invalidChainFound at hu ⊢
  rw [noted] at hu ⊢
  dsimp only at hu ⊢
  split
  · next descends =>
    rw [if_pos descends] at hu
    exact recalculateBestHeader_spec hme hu
  · next ha =>
    have ha : ¬ s.index.Above p s.bestHeader := fun above => ha (descends_iff.mpr above)
    refine ⟨hi, ?_, fun b hm good => most b hm (Bool.or_eq_false_iff.mp good).1⟩
    refine Bool.or_eq_false_iff.mpr ⟨(Bool.not_eq_true _).mp fun old => ha (below old), ?_⟩
    refine decide_eq_false fun hm => ha (descends_iff.mp ?_)
    exact (of_decide_eq_true (mem_filter.mp hm).2).2

lemma invalidBlockFound_eq (s : Chainstate) (p : BlockId) : ∃ failedValid bestHeader bestInvalid,
  s.invalidBlockFound p = { s with
    failedValid := failedValid
    setBlockIndexCandidates := s.setBlockIndexCandidates.filter (· ∉ [p])
    bestHeader := bestHeader
    bestInvalid := bestInvalid } ∧
  ∀ b, failedValid b = true ↔
    s.failedValid b = true ∨ b = p ∨ (b ∈ s.index.ids ∧ s.index.Above p b) := by
  obtain ⟨failed, header, invalid, found, marks⟩ :=
    invalidChainFound_eq ((s.markFailed [p]).eraseCandidates [p]) p
  refine ⟨failed, header, invalid, found, fun b => (marks b).trans ?_⟩
  simp only [eraseCandidates, markFailed, Bool.or_eq_true, decide_eq_true_eq, mem_singleton]
  tauto

end Chainstate

end BlockIndex
