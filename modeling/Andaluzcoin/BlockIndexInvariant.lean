import Andaluzcoin.BlockIndexOps
import Andaluzcoin.MostWork

/-!
# Invariants of the block index

What the operations of the block index keep. The transaction counts follow from a local
equation at each block, which fails only at the blocks in the queue of
`ReceivedBlockTransactions`. Marks are closed under descent, work grows along every edge, and the
candidates are bounded by the tip; that all usable blocks are among them holds between operations.
-/

namespace BlockIndexInvariant

open ParentTree BlockIndex BlockIndexOps ActivateBestChain MostWork Outcome List Function BlockMap
  Ancestor Chainstate Validity Pow
open Chainstate

/-- The transactions up to a block, from those up to its parent; none while one is missing. -/
def expectedCount (s : Chainstate) (b : BlockId) : ℕ :=
  if s.nTx b = 0 then 0
  else
    match s.index.pprev b with
    | none => s.nTx b
    | some p => if s.chainTxCount p = 0 then 0 else s.nTx b + s.chainTxCount p

/-- What is known about data and counts while the blocks of `queue` are still to be linked. -/
structure Received (queue : List BlockId) (s : Chainstate) : Prop where
  data : ∀ b ∈ s.index.ids, s.haveData b = true ↔ s.nTx b ≠ 0
  tree : ∀ b ∈ s.index.ids, Validity.tree.level ≤ (s.validity b).level
  validity : ∀ b ∈ s.index.ids, Validity.transactions.level ≤ (s.validity b).level ↔ s.nTx b ≠ 0
  counted : ∀ b ∈ s.index.ids, b ∉ queue → s.chainTxCount b = expectedCount s b
  pending : ∀ b ∈ queue, b ∈ s.index.ids ∧ s.nTx b ≠ 0 ∧ s.chainTxCount b = 0 ∧
    ∀ p, s.index.pprev b = some p → s.chainTxCount p ≠ 0
  waiting : ∀ b p, b ∉ queue → s.index.pprev b = some p → s.nTx b ≠ 0 → s.chainTxCount p = 0 →
    (p, b) ∈ s.blocksUnlinked
  unlinked : ∀ e ∈ s.blocksUnlinked, s.index.pprev e.2 = some e.1 ∧ s.nTx e.2 ≠ 0 ∧
    s.chainTxCount e.1 = 0
  queueNodup : queue.Nodup
  unlinkedNodup : s.blocksUnlinked.Nodup

/-- What holds during every operation, apart from the blocks still to be linked. -/
structure Core (queue : List BlockId) (s : Chainstate) : Prop where
  tip : s.tip ∈ s.index.ids
  grows : ∀ b p, s.index.pprev b = some p → s.index.nChainWork p < s.index.nChainWork b
  failed : ∀ b p, s.index.pprev b = some p → s.failedValid p = true → s.failedValid b = true
  unmarked : s.failedValid s.tip = false
  linked : s.chainTxCount s.tip ≠ 0
  received : Received queue s
  sound : ∀ c ∈ s.setBlockIndexCandidates,
    c ∈ s.index.ids ∧ s.rank s.tip ≤ s.rank c ∧ s.chainTxCount c ≠ 0
  header : s.BestHeader

/-- Every usable block that is not worse than the tip is a candidate. -/
def Complete (s : Chainstate) : Prop :=
  ∀ b ∈ s.index.ids, s.rank s.tip ≤ s.rank b → s.chainTxCount b ≠ 0 → s.failedValid b = false →
    b ∈ s.setBlockIndexCandidates

/-- What holds between the operations. -/
abbrev Consistent (s : Chainstate) : Prop := Core [] s ∧ Complete s

/-- The invariants in the terms of `CheckBlockIndex`. -/
structure Invariants (s : Chainstate) : Prop where
  failed : ∀ a b, b ∈ s.index.ids → s.index.Above a b → s.failedValid a = true →
    s.failedValid b = true
  linked : ∀ b ∈ s.index.ids, s.chainTxCount b ≠ 0 ↔ ∀ a, s.index.Above a b → s.nTx a ≠ 0
  counted : ∀ b ∈ s.index.ids, s.chainTxCount b ≠ 0 →
    s.chainTxCount b = ((trail s.index.pprev (s.index.nHeight b + 1) b).map s.nTx).sum
  complete : ∀ b ∈ s.index.ids, s.failedValid b = false → s.chainTxCount b ≠ 0 →
    s.workLess b s.tip = false → b ∈ s.setBlockIndexCandidates
  sound : ∀ c ∈ s.setBlockIndexCandidates, s.workLess c s.tip = false ∧
    ∀ a, s.index.Above a c → s.nTx a ≠ 0
  unlinked : ∀ b ∈ s.index.ids, s.failedValid b = false → s.haveData b = true →
    (∃ a, s.index.Above a b ∧ s.nTx a = 0) → ∃ p, (p, b) ∈ s.blocksUnlinked
  header : s.bestHeader ∈ s.index.ids ∧ s.failedValid s.bestHeader = false ∧
    ∀ b ∈ s.index.ids, s.failedValid b = false →
      s.index.nChainWork b ≤ s.index.nChainWork s.bestHeader

section
variable {s : Chainstate} {queue : List BlockId} {a b : BlockId}

/-- A property of the parent that passes to the child passes down the tree. -/
lemma above_induction {index : BlockMap} {P : BlockId → Prop}
  (step : ∀ b p, index.pprev b = some p → P p → P b) (ha : index.Above a b)
  (start : P a) : P b := by
  obtain ⟨n, hs⟩ := ha
  induction n generalizing b with
  | zero =>
    cases hs
    exact start
  | succ n ih =>
    obtain ⟨p, edge, rest⟩ := up_succ hs
    exact step b p edge (ih rest)

section
variable (core : Core queue s) (ha : s.index.Above a b)
include core ha

lemma Core.failed_of_above (hm : s.failedValid a = true) : s.failedValid b = true :=
  above_induction (P := fun b => s.failedValid b = true) core.failed ha hm

lemma Core.unmarked_of_above (good : s.failedValid b = false) : s.failedValid a = false := by
  rw [← Bool.not_eq_true] at good ⊢
  exact fun hm => good (core.failed_of_above ha hm)

/-- Work does not fall down the tree, and a descendant with the same work is the block itself. -/
lemma Core.work_le : a = b ∨ s.index.nChainWork a < s.index.nChainWork b := by
  refine above_induction (P := fun b => a = b ∨ s.index.nChainWork a < s.index.nChainWork b)
    ?_ ha (.inl rfl)
  rintro b p edge (rfl | less)
  · exact .inr (core.grows b a edge)
  · exact .inr (less.trans (core.grows b p edge))

end

lemma rank_lt_of_work (less : s.index.nChainWork a < s.index.nChainWork b) :
  s.rank a < s.rank b := rank_lt_iff.mpr (.inl less)

lemma Core.rank_le (core : Core queue s) (ha : s.index.Above a b) : s.rank a ≤ s.rank b := by
  rcases core.work_le ha with rfl | less
  · exact le_rfl
  · exact (rank_lt_of_work less).le

lemma expectedCount_ne_zero_iff : expectedCount s b ≠ 0 ↔
  s.nTx b ≠ 0 ∧ ∀ p, s.index.pprev b = some p → s.chainTxCount p ≠ 0 := by
  unfold expectedCount
  cases s.index.pprev b with
  | none => simp
  | some p =>
    by_cases none_ : s.chainTxCount p = 0
    · simp [none_]
    · simp [none_]

/-- Once nothing is queued, a block is counted when its whole path was received. -/
lemma Received.linked_iff (hr : Received [] s) (hm : b ∈ s.index.ids) :
  s.chainTxCount b ≠ 0 ↔ ∀ a, s.index.Above a b → s.nTx a ≠ 0 := by
  induction height : s.index.nHeight b using Nat.strong_induction_on generalizing b with
  | _ n ih =>
    rw [hr.counted b hm (by simp), expectedCount_ne_zero_iff, forall_above_iff]
    refine and_congr_right fun _ => forall₂_congr fun p edge => ?_
    have heights := s.index.graded b p edge
    exact ih _ (by omega) (parent_mem edge) rfl

/-- The count is the number of transactions on the path from genesis. -/
lemma Received.count_eq (hr : Received [] s) (hm : b ∈ s.index.ids) (hl : s.chainTxCount b ≠ 0) :
  s.chainTxCount b = ((trail s.index.pprev (s.index.nHeight b + 1) b).map s.nTx).sum := by
  induction height : s.index.nHeight b using Nat.strong_induction_on generalizing b with
  | _ n ih =>
    have count := hr.counted b hm (by simp)
    rw [count, expectedCount_ne_zero_iff] at hl
    rw [count]
    cases edge : s.index.pprev b with
    | none => simp [expectedCount, trail, edge, hl.1]
    | some p =>
      have heights := s.index.graded b p edge
      have parent := ih _ (by omega) (parent_mem edge) (hl.2 p edge) rfl
      rw [trail_of_parent edge, map_cons, sum_cons, ← height, heights, ← parent]
      simp [expectedCount, edge, hl.1, hl.2 p edge]

theorem Core.invariants (core : Core [] s) (complete : Complete s) : Invariants s := by
  have received := core.received
  constructor
  · intro a b _ ha
    exact core.failed_of_above ha
  · intro b member
    exact received.linked_iff member
  · intro b member
    exact received.count_eq member
  · intro b member good hl hw
    exact complete b member (s.workLess_follows.eq_false.mp hw) hl good
  · intro c candidate
    obtain ⟨member, hh, hl⟩ := core.sound c candidate
    exact ⟨s.workLess_follows.eq_false.mpr hh, (received.linked_iff member).mp hl⟩
  · rintro b member - hasData ⟨a, ha, hm⟩
    have here : s.nTx b ≠ 0 := (received.data b member).mp hasData
    rcases eq_or_above ha with rfl | ⟨p, edge, hap⟩
    · exact absurd hm here
    refine ⟨p, received.waiting b p (by simp) edge here ?_⟩
    by_contra hl
    exact (received.linked_iff (parent_mem edge)).mp hl a hap hm
  · exact ⟨core.header.member, core.header.unmarked, core.header.most⟩

lemma Core.checked (core : Core [] s) (complete : Complete s) : Checked s := by
  have all := core.invariants complete
  refine ⟨core.received.data, all.linked, all.failed, ?_, ?_⟩
  · intro b member hw hl good
    exact all.complete b member good hl hw
  · intro c candidate
    obtain ⟨member, -, hl⟩ := core.sound c candidate
    exact ⟨member, (all.sound c candidate).1, hl⟩

end

section
variable {s : Chainstate} {id prev : BlockId} {work : ℕ} {hf : id ∉ s.index.ids}
  {known : prev ∈ s.index.ids} {b : BlockId}

lemma ne_of_mem (hf : id ∉ s.index.ids) (hm : b ∈ s.index.ids) : b ≠ id := by
  rintro rfl
  exact hf hm

/-- The entries that were there keep their parents, and the new one has its own. -/
lemma addEntry_edge (hf : id ∉ s.index.ids) (known : prev ∈ s.index.ids) {p : BlockId}
  (edge : (addEntry s.index id prev work hf known).pprev b = some p) :
  (b = id ∧ p = prev) ∨ (b ∈ s.index.ids ∧ p ∈ s.index.ids ∧ s.index.pprev b = some p) := by
  by_cases new : b = id
  · subst new
    simp only [addEntry, update_self, Option.some.injEq] at edge
    exact .inl ⟨rfl, edge.symm⟩
  · simp only [addEntry, update_of_ne new] at edge
    exact .inr ⟨mem_of_parent edge, parent_mem edge, edge⟩

lemma addEntry_mem (hf : id ∉ s.index.ids) (known : prev ∈ s.index.ids)
  (hm : b ∈ (addEntry s.index id prev work hf known).ids) : b ∈ s.index.ids ∨ b = id := by
  simpa [addEntry] using hm

lemma addToBlockIndex_rank (hm : b ∈ s.index.ids) :
  (addToBlockIndex s id prev work hf known).rank b = s.rank b := by
  have ne := ne_of_mem hf hm
  simp only [rank, addToBlockIndex, addEntry, update_of_ne ne]

lemma addToBlockIndex_expected (hm : b ∈ s.index.ids) :
  expectedCount (addToBlockIndex s id prev work hf known) b = expectedCount s b := by
  have ne := ne_of_mem hf hm
  simp only [expectedCount, addToBlockIndex, addEntry, update_of_ne ne]
  cases edge : s.index.pprev b with
  | none => rfl
  | some p =>
    have neParent := ne_of_mem hf (parent_mem edge)
    simp only [update_of_ne neParent]

lemma addToBlockIndex_received (hr : Received [] s) :
  Received [] (addToBlockIndex s id prev work hf known) := by
  constructor
  · intro b member
    rcases addEntry_mem hf known member with old | rfl
    · simpa [addToBlockIndex, update_of_ne (ne_of_mem hf old)] using hr.data b old
    · simp [addToBlockIndex]
  · intro b member
    rcases addEntry_mem hf known member with old | rfl
    · simpa [addToBlockIndex, update_of_ne (ne_of_mem hf old)] using hr.tree b old
    · simp [addToBlockIndex]
  · intro b member
    rcases addEntry_mem hf known member with old | rfl
    · simpa [addToBlockIndex, update_of_ne (ne_of_mem hf old)] using hr.validity b old
    · simp [addToBlockIndex, level]
  · intro b member hq
    rcases addEntry_mem hf known member with old | rfl
    · rw [addToBlockIndex_expected old]
      simpa [addToBlockIndex, update_of_ne (ne_of_mem hf old)] using hr.counted b old hq
    · simp [addToBlockIndex, expectedCount]
  · simp
  · intro b p hq edge ht hu
    rcases addEntry_edge hf known edge with ⟨rfl, rfl⟩ | ⟨member, hi, edge⟩
    · simp [addToBlockIndex] at ht
    · simp only [addToBlockIndex, update_of_ne (ne_of_mem hf member)] at ht
      simp only [addToBlockIndex, update_of_ne (ne_of_mem hf hi)] at hu
      exact hr.waiting b p hq edge ht hu
  · intro e hw
    obtain ⟨edge, ht, hu⟩ := hr.unlinked e hw
    have ne := ne_of_mem hf (mem_of_parent edge)
    have neParent := ne_of_mem hf (parent_mem edge)
    simp only [addToBlockIndex, addEntry, update_of_ne ne, update_of_ne neParent]
    exact ⟨edge, ht, hu⟩
  · exact hr.queueNodup
  · exact hr.unlinkedNodup

lemma addToBlockIndex_header (header : s.BestHeader) :
  (addToBlockIndex s id prev work hf known).BestHeader := by
  have ne := ne_of_mem hf header.member
  set index := addEntry s.index id prev work hf known with isIndex
  have workOf : ∀ b ∈ s.index.ids, index.nChainWork b = s.index.nChainWork b := by
    intro b member
    simp only [isIndex, addEntry, update_of_ne (ne_of_mem hf member)]
  have bound : ∀ best, s.index.nChainWork s.bestHeader ≤ index.nChainWork best →
    index.nChainWork id ≤ index.nChainWork best → ∀ b ∈ index.ids,
      (addToBlockIndex s id prev work hf known).failedValid b = false →
      index.nChainWork b ≤ index.nChainWork best := by
    intro best more new b member good
    rcases addEntry_mem hf known member with old | rfl
    · simp only [addToBlockIndex, update_of_ne (ne_of_mem hf old)] at good
      rw [workOf b old]
      exact (header.most b old good).trans more
    · exact new
  by_cases hb : index.nChainWork s.bestHeader < index.nChainWork id
  · have best : (addToBlockIndex s id prev work hf known).bestHeader = id := if_pos hb
    refine ⟨?_, ?_, ?_⟩ <;> rw [best]
    · simp [addToBlockIndex, addEntry]
    · simp [addToBlockIndex]
    · rw [workOf _ header.member] at hb
      exact bound id hb.le le_rfl
  have best : (addToBlockIndex s id prev work hf known).bestHeader = s.bestHeader := if_neg hb
  refine ⟨?_, ?_, ?_⟩ <;> rw [best]
  · exact mem_append_left _ header.member
  · simp only [addToBlockIndex, update_of_ne ne]
    exact header.unmarked
  · exact bound _ (workOf _ header.member).ge (not_lt.mp hb)

lemma addToBlockIndex_core (core : Core [] s) (good : s.failedValid prev = false)
  (hp : 0 < work) : Core [] (addToBlockIndex s id prev work hf known) := by
  have neTip := ne_of_mem hf core.tip
  constructor
  · exact mem_append_left _ core.tip
  · intro b p edge
    rcases addEntry_edge hf known edge with ⟨rfl, rfl⟩ | ⟨member, hi, edge⟩
    · simp only [addToBlockIndex, addEntry, update_self, update_of_ne (ne_of_mem hf known)]
      omega
    · simp only [addToBlockIndex, addEntry, update_of_ne (ne_of_mem hf member),
        update_of_ne (ne_of_mem hf hi)]
      exact core.grows b p edge
  · intro b p edge hm
    rcases addEntry_edge hf known edge with ⟨rfl, rfl⟩ | ⟨member, hi, edge⟩
    · simp only [addToBlockIndex, update_of_ne (ne_of_mem hf known), good] at hm
      cases hm
    · simp only [addToBlockIndex, update_of_ne (ne_of_mem hf member),
        update_of_ne (ne_of_mem hf hi)] at hm ⊢
      exact core.failed b p edge hm
  · simp only [addToBlockIndex, update_of_ne neTip]
    exact core.unmarked
  · simp only [addToBlockIndex, update_of_ne neTip]
    exact core.linked
  · exact addToBlockIndex_received core.received
  · intro c candidate
    obtain ⟨member, hh, hl⟩ := core.sound c candidate
    refine ⟨mem_append_left _ member, ?_, ?_⟩
    · rw [addToBlockIndex_rank member]
      exact (addToBlockIndex_rank core.tip).trans_le hh
    · simp only [addToBlockIndex, update_of_ne (ne_of_mem hf member)]
      exact hl
  · exact addToBlockIndex_header core.header

lemma addToBlockIndex_complete (core : Core [] s) (complete : Complete s) :
  Complete (addToBlockIndex s id prev work hf known) := by
  intro b member hh hl good
  rcases addEntry_mem hf known member with old | rfl
  · have ne := ne_of_mem hf old
    rw [addToBlockIndex_rank old] at hh
    simp only [addToBlockIndex, update_of_ne ne] at hl good
    exact complete b old ((addToBlockIndex_rank core.tip).symm.trans_le hh) hl good
  · simp [addToBlockIndex] at hl

lemma getBitsProof_pos {nBits : BitVec 32} {powLimit target : Pow.ArithUint256}
  (hd : deriveTarget nBits powLimit = some target) : 0 < (getBitsProof nBits).toNat := by
  unfold deriveTarget at hd
  unfold getBitsProof
  generalize setCompact nBits = decoded at hd ⊢
  obtain ⟨value, hn, overflow⟩ := decoded
  dsimp only at hd ⊢
  split at hd
  · cases hd
  · next fine =>
    simp only [Bool.or_eq_true, beq_iff_eq, decide_eq_true_eq, not_or] at fine
    obtain ⟨⟨⟨hne, notZero⟩, notOverflow⟩, -⟩ := fine
    have divides : ¬ ((hn || overflow || value == 0) = true) := by
      simp only [Bool.or_eq_true, beq_iff_eq, not_or]
      exact ⟨⟨hne, notOverflow⟩, notZero⟩
    rw [if_neg divides]
    -- the quotient is less than the largest number, so that the sum does not wrap
    have nonzero : value.toNat ≠ 0 := fun hz => notZero (BitVec.eq_of_toNat_eq hz)
    have size := value.isLt
    rw [BitVec.toNat_add, BitVec.toNat_udiv, BitVec.toNat_not]
    have one : (1 : Pow.ArithUint256).toNat = 1 := rfl
    have small : (2 ^ 256 - 1 - value.toNat) / (value + 1).toNat ≤ 2 ^ 256 - 1 - value.toNat :=
      Nat.div_le_self _ _
    rw [one, Nat.mod_eq_of_lt (by omega)]
    exact Nat.succ_pos _

lemma acceptBlockHeader_keeps (powLimit : Pow.ArithUint256) (block : BlockHeader)
  (minPowChecked : Bool) (core : Core [] s) (complete : Complete s) :
  Consistent (acceptBlockHeader powLimit s block minPowChecked).2 := by
  unfold acceptBlockHeader
  split
  · split <;> exact ⟨core, complete⟩
  split
  · split <;> exact ⟨core, complete⟩
  split
  · exact ⟨core, complete⟩
  · next hc =>
    split
    · next known =>
      split
      · exact ⟨core, complete⟩
      · next good =>
        split
        · exact ⟨core, complete⟩
        split
        · exact ⟨core, complete⟩
        have positive : 0 < (getBitsProof block.nBits).toNat := by
          unfold checkBlockHeader at hc
          cases derived : deriveTarget block.nBits powLimit with
          | none => simp [derived] at hc
          | some target => exact getBitsProof_pos derived
        exact ⟨addToBlockIndex_core core (by simpa using good) positive,
          addToBlockIndex_complete core complete⟩
    · exact ⟨core, complete⟩

end

section
variable {s : Chainstate} {queue : List BlockId} {b : BlockId} {c : BlockId}

lemma linkBlock_eq (s : Chainstate) (b : BlockId) : ∃ candidates, linkBlock s b = { s with
    chainTxCount := update s.chainTxCount b (prevTxSum s b)
    nSequenceId := update s.nSequenceId b s.nBlockSequenceId
    nBlockSequenceId := s.nBlockSequenceId + 1
    setBlockIndexCandidates := candidates } ∧
  ∀ c, c ∈ candidates ↔ c ∈ s.setBlockIndexCandidates ∨
    c = b ∧ (linkBlock s b).workLess b s.tip = false := by
  unfold linkBlock tryAddBlockIndexCandidate
  split
  · next worse => exact ⟨_, rfl, fun c => by simp [worse]⟩
  · next hw =>
    rw [Bool.not_eq_true] at hw
    refine ⟨_, rfl, fun c => mem_insert_iff.trans (or_comm.trans ?_)⟩
    exact or_congr_right (and_iff_left hw).symm

/-- One round of the queue: the blocks that waited for the first one follow. -/
def unqueue (s : Chainstate) (b : BlockId) : Chainstate :=
  { linkBlock s b with blocksUnlinked := (linkBlock s b).blocksUnlinked.filter (·.1 ≠ b) }

def waitingFor (s : Chainstate) (b : BlockId) : List BlockId :=
  (s.blocksUnlinked.filter (·.1 = b)).map Prod.snd

section
variable (hr : Received (b :: queue) s)
include hr

lemma prevTxSum_eq : prevTxSum s b ≠ 0 ∧ ∀ s', s'.nTx = s.nTx → s'.index = s.index →
    (∀ p, s.index.pprev b = some p → s'.chainTxCount p = s.chainTxCount p) →
    expectedCount s' b = prevTxSum s b := by
  obtain ⟨-, ht, -, parent⟩ := hr.pending b (.head _)
  constructor
  · unfold prevTxSum
    omega
  intro s' sameTxs sameIndex sameCount
  unfold expectedCount prevTxSum
  rw [sameTxs, sameIndex, if_neg ht]
  cases edge : s.index.pprev b with
  | none => simp
  | some p => simp [sameCount p edge, parent p edge]

lemma mem_waitingFor
  (hw : c ∈ waitingFor s b) : (b, c) ∈ s.blocksUnlinked ∧ s.index.pprev c = some b ∧
    s.nTx c ≠ 0 ∧ c ∉ queue ∧ c ≠ b ∧ s.chainTxCount c = 0 := by
  obtain ⟨-, -, hun, -⟩ := hr.pending b (.head _)
  obtain ⟨⟨p, c'⟩, inList, rfl⟩ := mem_map.mp hw
  obtain ⟨hu, hs⟩ := mem_filter.mp inList
  simp only [decide_eq_true_eq] at hs
  subst hs
  obtain ⟨edge, ht, -⟩ := hr.unlinked _ hu
  have notQueued : c' ∉ p :: queue := by
    intro hq
    exact (hr.pending c' hq).2.2.2 p edge hun
  rw [mem_cons, not_or] at notQueued
  refine ⟨hu, edge, ht, notQueued.2, notQueued.1, ?_⟩
  rw [hr.counted c' (mem_of_parent edge) (by simp [notQueued])]
  simp [expectedCount, edge, hun]

lemma unqueue_received : Received (queue ++ waitingFor s b) (unqueue s b) := by
  obtain ⟨member, ht, hun, parent⟩ := hr.pending b (.head _)
  obtain ⟨candidates, hle, -⟩ := linkBlock_eq s b
  obtain ⟨hsp, expected⟩ := prevTxSum_eq hr
  have notOwnParent : s.index.pprev b ≠ some b := by
    intro edge
    exact not_above_parent edge (.refl b)
  have fresh : b ∉ queue := (nodup_cons.mp hr.queueNodup).1
  unfold unqueue
  rw [hle]
  constructor
  · exact hr.data
  · exact hr.tree
  · exact hr.validity
  · intro c hi hq
    simp only [mem_append, not_or] at hq
    by_cases hh : c = b
    · subst hh
      refine Eq.trans ?_ (Eq.symm (expected _ ?_ ?_ ?_))
      · simp
      · rfl
      · rfl
      · intro p edge
        have apart : p ≠ c := fun hs => notOwnParent (hs ▸ edge)
        simp [update_of_ne apart]
    have old := hr.counted c hi (by simp [hh, hq.1])
    simp only [update_of_ne hh, old]
    unfold expectedCount
    cases edge : s.index.pprev c with
    | none => rfl
    | some p =>
      by_cases below : p = b
      · -- a child with transactions would have waited
        subst below
        by_cases none_ : s.nTx c = 0
        · simp [none_]
        · have waits := hr.waiting c p (by simp [hh, hq.1]) edge none_ hun
          refine absurd ?_ hq.2
          exact mem_map.mpr ⟨(p, c), mem_filter.mpr ⟨waits, by simp⟩, rfl⟩
      · simp only [update_of_ne below]
  · intro c hqu
    rcases mem_append.mp hqu with hque | waits
    · obtain ⟨hi, cTxs, hcu, cParent⟩ := hr.pending c (.tail _ hque)
      have apart : c ≠ b := fun hs => fresh (hs ▸ hque)
      refine ⟨hi, cTxs, by simpa [update_of_ne apart] using hcu, ?_⟩
      intro p edge
      have apartParent : p ≠ b := fun hs => cParent p edge (hs ▸ hun)
      simpa [update_of_ne apartParent] using cParent p edge
    · obtain ⟨-, edge, cTxs, -, apart, hcu⟩ := mem_waitingFor hr waits
      refine ⟨mem_of_parent edge, cTxs, by simpa [update_of_ne apart] using hcu, ?_⟩
      intro p edge'
      obtain rfl : b = p := Option.some.inj (edge.symm.trans edge')
      simpa using hsp
  · intro c p hq edge cTxs hu
    simp only [mem_append, not_or] at hq
    have apartParent : p ≠ b := by
      rintro rfl
      simp only [update_self] at hu
      exact hsp hu
    simp only [update_of_ne apartParent] at hu
    have apart : c ≠ b := by
      rintro rfl
      exact parent p edge hu
    refine mem_filter.mpr ⟨hr.waiting c p (by simp [apart, hq.1]) edge cTxs hu, ?_⟩
    simpa using apartParent
  · intro e waits
    obtain ⟨inList, apart⟩ := mem_filter.mp waits
    obtain ⟨edge, eTxs, hu⟩ := hr.unlinked e inList
    have apart : e.1 ≠ b := by simpa using apart
    exact ⟨edge, eTxs, by simpa [update_of_ne apart] using hu⟩
  · rw [nodup_append]
    refine ⟨(nodup_cons.mp hr.queueNodup).2, ?_, ?_⟩
    · refine Nodup.map_on ?_ (hr.unlinkedNodup.filter _)
      intro e inList e' inList' hs
      have first := (mem_filter.mp inList).2
      have second := (mem_filter.mp inList').2
      simp only [decide_eq_true_eq] at first second
      exact Prod.ext (first.trans second.symm) hs
    · rintro c hque c' waits rfl
      exact (mem_waitingFor hr waits).2.2.2.1 hque
  · exact hr.unlinkedNodup.filter _

end

lemma linkBlock_rank (ha : c ≠ b) : (linkBlock s b).rank c = s.rank c := by
  obtain ⟨candidates, hle, -⟩ := linkBlock_eq s b
  rw [hle]
  simp only [rank, update_of_ne ha]

lemma unqueue_core (core : Core (b :: queue) s) (complete : Complete s) :
  Core (queue ++ waitingFor s b) (unqueue s b) ∧ Complete (unqueue s b) := by
  obtain ⟨member, -, hu, -⟩ := core.received.pending b (.head _)
  obtain ⟨hsp, -⟩ := prevTxSum_eq core.received
  obtain ⟨candidates, hle, added⟩ := linkBlock_eq s b
  have apartTip : s.tip ≠ b := fun hs => core.linked (hs ▸ hu)
  have received := unqueue_received core.received
  have rankOf : ∀ c, c ≠ b → (unqueue s b).rank c = s.rank c := fun c apart => linkBlock_rank apart
  have notWorse : ∀ c, (unqueue s b).rank s.tip ≤ (unqueue s b).rank c ↔
    (linkBlock s b).workLess c s.tip = false := by
    intro c
    exact ((linkBlock s b).workLess_follows.eq_false).symm
  have lower : ∀ c, c ≠ b →
    ((unqueue s b).rank s.tip ≤ (unqueue s b).rank c ↔ s.rank s.tip ≤ s.rank c) := by
    intro c apart
    rw [rankOf c apart, rankOf _ apartTip]
  unfold unqueue at received notWorse lower ⊢
  rw [hle] at received notWorse lower added ⊢
  refine ⟨{ core with
    linked := by simpa [update_of_ne apartTip] using core.linked
    received := received
    sound := fun c candidate => ?_
    header := { core.header with } }, fun c hi hh hl good => (added c).mpr ?_⟩
  · rcases (added c).mp candidate with ho | ⟨rfl, good⟩
    · obtain ⟨hi, hh, hl⟩ := core.sound c ho
      have apart : c ≠ b := fun hs => hl (hs ▸ hu)
      exact ⟨hi, (lower c apart).mpr hh, by simpa [update_of_ne apart] using hl⟩
    · exact ⟨member, (notWorse c).mpr good, by simpa using hsp⟩
  · by_cases hhe : c = b
    · subst hhe
      exact .inr ⟨rfl, (notWorse c).mp hh⟩
    · simp only [update_of_ne hhe] at hl
      exact .inl (complete c hi ((lower c hhe).mp hh) hl good)

/-- The queue empties, as each block in it was received or waited. -/
lemma linkQueue_keeps (fuel : ℕ) (core : Core queue s) (complete : Complete s)
  (he : queue.length + s.blocksUnlinked.length ≤ fuel) :
  Yields (linkQueue fuel queue s) Consistent := by
  induction fuel generalizing queue s with
  | zero =>
    cases queue with
    | nil => exact ⟨s, rfl, core, complete⟩
    | cons b queue => simp at he
  | succ fuel ih =>
    cases queue with
    | nil => exact ⟨s, rfl, core, complete⟩
    | cons b queue =>
      obtain ⟨core', hc'⟩ := unqueue_core core complete
      have same : (linkBlock s b).blocksUnlinked = s.blocksUnlinked := by
        obtain ⟨candidates, hle, -⟩ := linkBlock_eq s b
        rw [hle]
      have split : (s.blocksUnlinked.filter (·.1 = b)).length
        + (s.blocksUnlinked.filter (·.1 ≠ b)).length = s.blocksUnlinked.length := by
        have := length_eq_length_filter_add (l := s.blocksUnlinked) (fun e => decide (e.1 = b))
        simpa using this.symm
      have bound : (queue ++ waitingFor s b).length + (unqueue s b).blocksUnlinked.length ≤ fuel := by
        simp only [length_append, waitingFor, length_map, unqueue, same]
        simp only [length_cons] at he
        omega
      obtain ⟨s', result, hk⟩ := ih core' hc' bound
      refine ⟨s', ?_, hk⟩
      rw [← result]
      simp only [linkQueue, unqueue, waitingFor, same]

/-- The state after the data of a block was stored. -/
def storeBlock (s : Chainstate) (b : BlockId) (nTx : ℕ) : Chainstate :=
  { s with
    nTx := update s.nTx b nTx
    haveData := update s.haveData b true }.raiseValidity b .transactions

lemma raiseValidity_level (s : Chainstate) (b : BlockId) (level : Validity)
  (good : s.failedValid b = false) : ∃ validity, s.raiseValidity b level
    = { s with validity := validity } ∧ level.level ≤ (validity b).level ∧
      (s.validity b).level ≤ (validity b).level ∧ ∀ c, c ≠ b → validity c = s.validity c := by
  unfold raiseValidity
  rw [good, Bool.false_or]
  split
  · next hh => exact ⟨s.validity, rfl, by simpa using hh, le_rfl, fun _ _ => rfl⟩
  · next low =>
    simp only [decide_eq_true_eq, not_le] at low
    refine ⟨_, rfl, by simp, by simpa using low.le, fun c ha => ?_⟩
    simp [update_of_ne ha]

lemma storeBlock_eq (good : s.failedValid b = false) (nTx : ℕ) : ∃ validity,
  storeBlock s b nTx = { s with
    nTx := update s.nTx b nTx
    haveData := update s.haveData b true
    validity := validity } ∧
  Validity.transactions.level ≤ (validity b).level ∧ ∀ c, c ≠ b → validity c = s.validity c := by
  obtain ⟨validity, raised, level, -, ho⟩ := raiseValidity_level { s with
    nTx := update s.nTx b nTx
    haveData := update s.haveData b true } b .transactions good
  exact ⟨validity, raised, level, ho⟩

/-- Levels and counts still agree after a block with transactions was raised. -/
lemma Received.raised (hr : Received queue s) {validity : BlockId → Validity}
  (level : transactions.level ≤ (validity b).level)
  (ho : ∀ c, c ≠ b → validity c = s.validity c) {nTx : ℕ} (some_ : nTx ≠ 0) :
  (∀ c ∈ s.index.ids, update s.haveData b true c = true ↔ update s.nTx b nTx c ≠ 0) ∧
    (∀ c ∈ s.index.ids, Validity.tree.level ≤ (validity c).level) ∧ ∀ c ∈ s.index.ids,
      transactions.level ≤ (validity c).level ↔ update s.nTx b nTx c ≠ 0 := by
  refine ⟨fun c hi => ?_, fun c hi => ?_, fun c hi => ?_⟩ <;> by_cases hh : c = b
  · simp [hh, some_]
  · simpa [update_of_ne hh] using hr.data c hi
  · rw [hh]
    exact le_trans (by decide) level
  · simpa [ho c hh] using hr.tree c hi
  · simpa [hh, some_] using level
  · simpa [ho c hh, update_of_ne hh] using hr.validity c hi

lemma Received.nTx_of_noData (hr : Received queue s) (hm : b ∈ s.index.ids)
  (noData : s.haveData b = false) : s.nTx b = 0 := by
  by_contra hasTxs
  rw [(hr.data b hm).mpr hasTxs] at noData
  cases noData

section
variable (hr : Received [] s) (hm : b ∈ s.index.ids) (good : s.failedValid b = false)
  (noData : s.haveData b = false) {nTx : ℕ} (some_ : nTx ≠ 0)
include hr hm good noData some_

lemma storeBlock_received (hp : ∀ p, s.index.pprev b = some p → s.chainTxCount p ≠ 0) :
  Received [b] (storeBlock s b nTx) := by
  have noTxs := hr.nTx_of_noData hm noData
  obtain ⟨hv, stored, level, ho⟩ := storeBlock_eq good nTx
  obtain ⟨data, tree, levels⟩ := hr.raised level ho some_
  rw [stored]
  constructor
  · exact data
  · exact tree
  · exact levels
  · intro c hi hq
    have apart : c ≠ b := by simpa using hq
    simpa [expectedCount, update_of_ne apart] using hr.counted c hi (by simp)
  · intro c hqu
    obtain rfl := mem_singleton.mp hqu
    refine ⟨hm, by simpa using some_, ?_, hp⟩
    simp [hr.counted c hm (by simp), expectedCount, noTxs]
  · intro c p hq edge ht hu
    have apart : c ≠ b := by simpa using hq
    exact hr.waiting c p (by simp) edge (by simpa [update_of_ne apart] using ht) hu
  · intro e waits
    obtain ⟨edge, ht, hu⟩ := hr.unlinked e waits
    have apart : e.2 ≠ b := fun hs => ht (hs ▸ noTxs)
    exact ⟨edge, by simpa [update_of_ne apart] using ht, hu⟩
  · exact nodup_singleton b
  · exact hr.unlinkedNodup

/-- Otherwise the stored block waits for its parent. -/
lemma storeBlock_waits {p : BlockId} (edge : s.index.pprev b = some p) (hp : s.chainTxCount p = 0) :
  Received [] { storeBlock s b nTx with blocksUnlinked := s.blocksUnlinked ++ [(p, b)] } := by
  have noTxs := hr.nTx_of_noData hm noData
  obtain ⟨hv, stored, level, ho⟩ := storeBlock_eq good nTx
  obtain ⟨data, tree, levels⟩ := hr.raised level ho some_
  rw [stored]
  constructor
  · exact data
  · exact tree
  · exact levels
  · intro c hi hq
    by_cases hh : c = b
    · subst hh
      simp [hr.counted c hm (by simp), expectedCount, noTxs, edge, hp]
    · simpa [expectedCount, update_of_ne hh] using hr.counted c hi hq
  · simp
  · intro c p' hq edge' ht hu
    by_cases hh : c = b
    · subst hh
      obtain rfl : p = p' := Option.some.inj (edge.symm.trans edge')
      simp
    · refine mem_append_left _ (hr.waiting c p' hq edge' ?_ hu)
      simpa [update_of_ne hh] using ht
  · intro e waits
    rcases mem_append.mp waits with old | new
    · obtain ⟨edge, ht, hu⟩ := hr.unlinked e old
      have apart : e.2 ≠ b := fun hs => ht (hs ▸ noTxs)
      exact ⟨edge, by simpa [update_of_ne apart] using ht, hu⟩
    · obtain rfl := mem_singleton.mp new
      exact ⟨edge, by simpa using some_, hp⟩
  · exact hr.queueNodup
  · rw [nodup_append]
    refine ⟨hr.unlinkedNodup, nodup_singleton _, ?_⟩
    rintro e old e' new rfl
    obtain rfl := mem_singleton.mp new
    exact (hr.unlinked _ old).2.1 noTxs

end

/-- Only counts of transactions, data and validity depend on what is stored. -/
lemma Core.stored {s' : Chainstate} (core : Core [] s) (hr : Received queue s')
  (hi : s'.index = s.index) (tip : s'.tip = s.tip) (hf : s'.failedValid = s.failedValid)
  (hc : s'.chainTxCount = s.chainTxCount) (hs : s'.nSequenceId = s.nSequenceId)
  (hca : s'.setBlockIndexCandidates ⊆ s.setBlockIndexCandidates)
  (best : s'.bestHeader = s.bestHeader) : Core queue s' := by
  obtain ⟨⟩ := s'
  subst hi tip hf hc hs best
  exact { core with
    received := hr
    sound := fun c candidate => core.sound c (hca candidate)
    header := { core.header with } }

lemma acceptBlock_keeps (core : Core [] s) (complete : Complete s) (b : BlockId) (nTx : ℕ) :
  Yields (acceptBlock s b nTx) Consistent := by
  unfold acceptBlock
  split
  · next ha =>
    obtain ⟨member, good, noData, some_⟩ := ha
    obtain ⟨hv, stored, -, ho⟩ := storeBlock_eq good nTx
    have links : (∀ p, s.index.pprev b = some p → s.chainTxCount p ≠ 0) →
      Yields (linkQueue ((storeBlock s b nTx).blocksUnlinked.length + 1) [b]
        (storeBlock s b nTx)) Consistent := by
      intro parent
      have received := storeBlock_received core.received member good noData some_ parent
      have core' : Core [b] (storeBlock s b nTx) := by
        refine core.stored received ?_ ?_ ?_ ?_ ?_ ?_ ?_ <;> simp [stored]
      refine linkQueue_keeps _ core' ?_ (by simp [add_comm])
      rw [stored]
      exact complete
    simp only [receivedBlockTransactions]
    rw [← storeBlock]
    have sameParent : (storeBlock s b nTx).index.pprev b = s.index.pprev b := by rw [stored]
    have sameCount : (storeBlock s b nTx).chainTxCount = s.chainTxCount := by rw [stored]
    have sameUnlinked : (storeBlock s b nTx).blocksUnlinked = s.blocksUnlinked := by rw [stored]
    rw [sameParent]
    cases edge : s.index.pprev b with
    | none =>
      refine links fun p edge' => ?_
      rw [edge] at edge'
      cases edge'
    | some p =>
      dsimp only
      by_cases parent : s.chainTxCount p = 0
      · have goodParent : (storeBlock s b nTx).isValid p .tree = true := by
          have unmarked := core.unmarked_of_above (.of_parent edge) good
          have apart : p ≠ b := by
            rintro rfl
            exact not_above_parent edge (.refl p)
          have level := core.received.tree p (parent_mem edge)
          simpa [isValid, stored, unmarked, ho p apart] using level
        rw [if_neg (by simp [haveNumChainTxs, sameCount, parent]), if_pos goodParent, sameUnlinked]
        refine ⟨_, rfl, ?_, ?_⟩
        · have received := storeBlock_waits core.received member good noData some_ edge parent
          refine core.stored received ?_ ?_ ?_ ?_ ?_ ?_ ?_ <;> simp [stored]
        · rw [stored]
          exact complete
      · rw [if_pos (by simp [haveNumChainTxs, sameCount, parent])]
        refine links fun p' edge' => ?_
        obtain rfl : p = p' := Option.some.inj (edge.symm.trans edge')
        exact parent
  · exact ⟨s, rfl, core, complete⟩

end

variable {connects : BlockId → Bool} {s s' t : Chainstate} {p : BlockId}

lemma mem_of_above {index : BlockMap} {a b : BlockId} (ha : index.Above a b)
  (hm : a ∈ index.ids) : b ∈ index.ids := by
  rcases eq_or_above ha with rfl | ⟨p, edge, -⟩
  · exact hm
  · exact mem_of_parent edge

variable (core : Core [] s) {b : BlockId}
include core

/-- A block outside of the active chain and all that descends from it are marked. -/
lemma Core.invalidate (hap : ¬ s.index.Above p s.tip) (hm : p ∈ s.index.ids) (ht : t = { s with
    failedValid := t.failedValid
    setBlockIndexCandidates := t.setBlockIndexCandidates })
  (hf : ∀ b, t.failedValid b = true ↔ s.failedValid b = true ∨ b = p)
  (hso : ∀ c ∈ t.setBlockIndexCandidates,
    c ∈ s.index.ids ∧ s.rank s.tip ≤ s.rank c ∧ s.chainTxCount c ≠ 0) :
  Core [] (t.invalidChainFound p) ∧ ∀ b, (t.invalidChainFound p).failedValid b = true ↔
      s.failedValid b = true ∨ s.index.Above p b := by
  obtain ⟨failed, best, invalid, found, marks⟩ := invalidChainFound_eq t p
  have header := invalidChainFound_bestHeader (s := t) (p := p)
  rw [found] at header ⊢
  obtain ⟨⟩ := t
  cases ht
  have marked : ∀ b, failed b = true ↔ s.failedValid b = true ∨ s.index.Above p b := by
    intro b
    rw [marks, hf]
    constructor
    · rintro ((old | rfl) | ⟨-, -, ha⟩)
      · exact .inl old
      · exact .inr (.refl b)
      · exact .inr ha
    · rintro (old | ha)
      · exact .inl (.inl old)
      · by_cases hs : b = p
        · exact .inl (.inr hs)
        · exact .inr ⟨mem_of_above ha hm, hs, ha⟩
  have unmarked : failed s.tip = false := by
    rw [← Bool.not_eq_true, marked, core.unmarked]
    simpa using hap
  refine ⟨{ core with
    failed := fun b q edge isMarked => ?_
    unmarked := unmarked
    received := { core.received with }
    sound := hso
    header := header core.tip unmarked core.header.member ?_ ?_ }, marked⟩
  · rw [marked] at isMarked ⊢
    rcases isMarked with old | ha
    · exact .inl (core.failed b q edge old)
    · exact .inr (.step edge ha)
  · rw [hf, core.header.unmarked]
    rintro (old | hs)
    · cases old
    · rw [hs]
      exact .refl p
  · intro b hi good
    refine core.header.most b hi ?_
    rw [← Bool.not_eq_true] at good ⊢
    exact fun old => good ((hf b).mpr (.inl old))

lemma Core.drop {c d : BlockId} (ha : s.index.Above d c)
  (hf : s.failedValid d = true) : Core [] (s.dropChain c d) := by
  obtain ⟨dropped, bestInvalid, -, -, dropping⟩ := dropChain_eq ha hf
    fun b below _ => core.failed_of_above below hf
  rw [dropping]
  exact { core with
    received := { core.received with }
    sound := fun c candidate => core.sound c (mem_of_mem_filter candidate)
    header := { core.header with } }

lemma Core.disconnect (edge : s.index.pprev s.tip = some p) : Core [] { s with tip := p } := by
  have above : s.index.Above p s.tip := .of_parent edge
  refine { core with
    tip := above.mem core.tip
    unmarked := core.unmarked_of_above above core.unmarked
    linked := ?_
    received := { core.received with }
    sound := fun c candidate => ?_
    header := { core.header with } }
  · refine (core.received.linked_iff (above.mem core.tip)).mpr fun a hap => ?_
    exact (core.received.linked_iff core.tip).mp core.linked a (trans hap above)
  · obtain ⟨member, hh, hl⟩ := core.sound c candidate
    exact ⟨member, (core.rank_le above).trans hh, hl⟩

lemma Core.connect (edge : s.index.pprev b = some s.tip)
  (good : s.failedValid b = false) (hl : s.chainTxCount b ≠ 0) (hp : pruneBlockIndexCandidates
    { s.raiseValidity b .scripts with tip := b } = .ok s') : Core [] s' := by
  have member := mem_of_parent edge
  have hasTxs : s.nTx b ≠ 0 := (core.received.linked_iff member).mp hl b (.refl b)
  obtain ⟨hv, raised, level, -, hot⟩ := raiseValidity_level s b .scripts good
  rw [raised] at hp
  obtain rfl := prune_eq hp
  obtain ⟨-, tree, levels⟩ := core.received.raised (le_trans (by decide) level) hot hasTxs
  rw [update_eq_self] at levels
  refine { core with
    tip := member
    unmarked := good
    linked := hl
    received := { core.received with
      tree := tree
      validity := levels }
    sound := fun c candidate => ?_
    header := { core.header with } }
  obtain ⟨ho, hw⟩ := mem_filter.mp candidate
  obtain ⟨hi, -, hcl⟩ := core.sound c ho
  exact ⟨hi, s.workLess_follows.eq_false.mp ((Bool.not_eq_true' _).mp hw), hcl⟩

lemma Core.fail {front : BlockId} (edge : s.index.pprev b = some s.tip)
  (ha : s.index.Above b front) : Core [] ((s.invalidBlockFound b).invalidChainFound front) := by
  have member := mem_of_parent edge
  have apart := not_above_parent edge
  obtain ⟨core', hm⟩ := core.invalidate (t := (s.markFailed [b]).eraseCandidates [b]) apart member
    rfl (by simp [eraseCandidates, markFailed])
    fun c candidate => core.sound c (mem_of_mem_filter candidate)
  change Core [] (s.invalidBlockFound b) at core'
  change ∀ c, (s.invalidBlockFound b).failedValid c = true ↔ _ at hm
  obtain ⟨failed, header, invalid, found, -⟩ := s.invalidBlockFound_eq b
  rw [found] at core' hm ⊢
  refine (core'.invalidate ?_ ?_ rfl ?_ core'.sound).1
  · exact fun hat => apart (trans ha hat)
  · exact mem_of_above ha member
  · intro c
    constructor
    · exact fun old => .inl old
    · rintro (old | rfl)
      · exact old
      · exact (hm c).mpr (.inr ha)

lemma Core.moves (moves : Moves connects s s') : Core [] s' := by
  induction moves with
  | refl => exact core
  | tail _ move ih =>
    cases move with
    | drop c d candidate ha hf => exact ih.drop ha hf
    | disconnect p edge => exact ih.disconnect edge
    | connect _ b edge hc hu hl pruned => exact ih.connect edge hu hl pruned
    | fail b front edge refused ha => exact ih.fail edge ha

/-- A call of `ActivateBestChain` ends, and its tip is the only usable block that is not worse. -/
lemma activateBestChain_keeps (complete : Complete s)
  (hr : ∀ a, s.index.Above a s.tip → connects a = true) :
  Yields (activateBestChain connects s) Consistent := by
  have checked := core.checked complete
  have valid : Valid connects s s.tip := by
    refine ⟨core.tip, fun a ha => ?_⟩
    refine ⟨(checked.data a (ha.mem core.tip)).mpr ?_, ?_, hr a ha⟩
    · exact (checked.linked s.tip core.tip).mp core.linked a ha
    · exact core.unmarked_of_above ha core.unmarked
  obtain ⟨s', result, hm, act, target⟩ := activateLoop_yields (checked.act valid)
    (fun m ht => by cases ht) (todo_lt_rounds s)
  refine ⟨s', result, core.moves hm, ?_⟩
  intro b member hh hl good
  have low := target.rank_le act member hl good
  rw [s'.rank_injective (le_antisymm low hh)]
  exact target.candidate

end BlockIndexInvariant
