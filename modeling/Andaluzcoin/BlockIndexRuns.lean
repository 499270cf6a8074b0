import Andaluzcoin.BlockIndexInvariant

/-!
# Runs of block index operations

`InvalidateBlock`, `ResetBlockFailureFlags` and `PreciousBlock` keep the invariants of the
block index, and with them every run of operations does. `PreciousBlock` of the tip must not
give it a higher sequence number than it has, and the blocks of the active chain must connect
again when they are asked to.
-/

namespace BlockIndexRuns

open ParentTree BlockIndex BlockIndexOps BlockIndexInvariant ActivateBestChain Outcome List
  Ancestor Chainstate
open Bool (or_eq_true not_eq_true' not_eq_true)
open Function Chainstate BlockMap

section
variable {s t u : Chainstate} {d newTip : BlockId} {needsUpdate : Bool} {headers more : List BlockId}

/-- What the loop over the cached headers does to a state: those that descend from the
disconnected tip `d` are marked, the others may become candidates or the best header. -/
structure Considered (d newTip : BlockId) (needsUpdate : Bool) (headers : List BlockId)
  (s t : Chainstate) : Prop where
  frame : s.Frame t
  tip : t.tip = s.tip
  validity : t.validity = s.validity
  failed : ∀ b, t.failedValid b = true ↔ s.failedValid b = true ∨ (b ∈ headers ∧
    s.index.nChainWork newTip ≤ s.index.nChainWork b ∧ s.index.Above d b)
  candidates : ∀ c, c ∈ t.setBlockIndexCandidates ↔ c ∈ s.setBlockIndexCandidates ∨
    (c ∈ headers ∧ ¬ s.index.Above d c ∧ s.rank newTip ≤ s.rank c ∧
      s.isValid c .transactions = true ∧ s.chainTxCount c ≠ 0)
  best : t.bestHeader = s.bestHeader ∨
    (needsUpdate = true ∧ t.bestHeader ∈ headers ∧ ¬ s.index.Above d t.bestHeader)
  most : needsUpdate = true → s.index.nChainWork s.bestHeader ≤ s.index.nChainWork t.bestHeader ∧
    ∀ c ∈ headers, s.index.nChainWork newTip ≤ s.index.nChainWork c → ¬ s.index.Above d c →
      s.index.nChainWork c ≤ s.index.nChainWork t.bestHeader

lemma Considered.nil (s : Chainstate) : Considered d newTip needsUpdate [] s s where
  frame := .refl s
  tip := rfl
  validity := rfl
  failed := by simp
  candidates := by simp
  best := .inl rfl
  most := by simp

lemma insertCandidate_if (s : Chainstate) (c : BlockId) (good : Bool) : ∃ candidates,
  (if good = true then s.insertCandidate c else s)
    = { s with setBlockIndexCandidates := candidates } ∧
  ∀ b, b ∈ candidates ↔ b ∈ s.setBlockIndexCandidates ∨ b = c ∧ good = true := by
  cases good with
  | true => exact ⟨s.setBlockIndexCandidates.insert c, rfl, fun b => by simp [or_comm]⟩
  | false => exact ⟨_, rfl, fun b => by simp⟩

lemma Considered.single (s : Chainstate) (c : BlockId) :
  Considered d newTip needsUpdate [c] s (considerHeader d newTip needsUpdate s c) := by
  unfold considerHeader
  by_cases low : s.index.nChainWork c < s.index.nChainWork newTip
  · -- below the new tip the loop does not start
    rw [if_pos low]
    have notHigh : ¬ s.index.nChainWork newTip ≤ s.index.nChainWork c := not_le.mpr low
    have worse : ¬ s.rank newTip ≤ s.rank c := not_le.mpr (rank_lt_of_work low)
    constructor <;> simp_all [Chainstate.Frame.refl]
  rw [if_neg low]
  have high : s.index.nChainWork newTip ≤ s.index.nChainWork c := not_lt.mp low
  by_cases descends : s.index.descends c d = true
  · rw [if_pos descends]
    have above := descends_iff.mp descends
    constructor
    · exact ⟨rfl, rfl, rfl, rfl, rfl, rfl⟩
    · rfl
    · rfl
    · intro b
      simp only [markFailed, or_eq_true, decide_eq_true_eq, mem_singleton]
      constructor
      · rintro (old | rfl)
        · exact .inl old
        · exact .inr ⟨rfl, high, above⟩
      · rintro (old | ⟨rfl, -, -⟩)
        · exact .inl old
        · exact .inr rfl
    · refine fun b => ⟨.inl, ?_⟩
      rintro (ho | ⟨hh, apart, -⟩)
      · exact ho
      · obtain rfl := mem_singleton.mp hh
        exact absurd above apart
    · exact .inl rfl
    · intro _
      refine ⟨le_rfl, fun b hh _ apart => ?_⟩
      obtain rfl := mem_singleton.mp hh
      exact absurd above apart
  · rw [if_neg descends]
    have apart : ¬ s.index.Above d c := fun above => descends (descends_iff.mpr above)
    have notWorse : s.workLess c newTip = false ↔ s.rank newTip ≤ s.rank c :=
      s.workLess_follows.eq_false
    -- the candidates and the best header change independently
    obtain ⟨candidates, inserted, members⟩ := insertCandidate_if s c
      (!s.workLess c newTip && s.isValid c .transactions && s.haveNumChainTxs c)
    simp only [Bool.and_eq_true, not_eq_true', haveNumChainTxs, bne_iff_ne, notWorse] at members
    have facts : ∀ best, (best = s.bestHeader ∨ needsUpdate = true ∧ best = c) →
      (needsUpdate = true → s.index.nChainWork s.bestHeader ≤ s.index.nChainWork best ∧
        s.index.nChainWork c ≤ s.index.nChainWork best) →
      Considered d newTip needsUpdate [c] s
        { s with setBlockIndexCandidates := candidates, bestHeader := best } := by
      intro best hbe most
      constructor
      · exact ⟨rfl, rfl, rfl, rfl, rfl, rfl⟩
      · rfl
      · rfl
      · intro b
        constructor
        · exact fun old => .inl old
        rintro (old | ⟨hh, -, above⟩)
        · exact old
        · obtain rfl := mem_singleton.mp hh
          exact absurd above apart
      · intro b
        rw [members b, mem_singleton, and_assoc]
        refine or_congr_right (and_congr_right ?_)
        rintro rfl
        exact (and_iff_right apart).symm
      · refine hbe.imp_right fun new => ?_
        exact ⟨new.1, mem_singleton.mpr new.2, new.2 ▸ apart⟩
      · intro hn
        refine ⟨(most hn).1, fun b hh _ _ => ?_⟩
        rw [mem_singleton.mp hh]
        exact (most hn).2
    rw [inserted]
    dsimp only
    split
    · next hb =>
      simp only [Bool.and_eq_true, decide_eq_true_eq] at hb
      exact facts c (.inr ⟨hb.1, rfl⟩) fun _ => ⟨hb.2.le, le_rfl⟩
    · next worse => exact facts _ (.inl rfl) fun hn => ⟨le_rfl, by simpa [hn] using worse⟩

lemma Considered.trans (first : Considered d newTip needsUpdate headers s t)
  (hse : Considered d newTip needsUpdate more t u) :
  Considered d newTip needsUpdate (headers ++ more) s u := by
  obtain ⟨⟩ := t
  obtain ⟨⟨rfl, rfl, rfl, rfl, rfl, rfl⟩, tip, hv, hf, hc, hb, hm⟩ := first
  subst tip hv
  refine { hse with
    frame := { hse.frame with }
    failed := fun b => ?_
    candidates := fun c => ?_
    best := ?_
    most := fun hn => ?_ }
  · rw [hse.failed, hf, mem_append]
    tauto
  · rw [hse.candidates, hc, mem_append, or_assoc, or_and_right]
    refine or_congr_right (or_congr_right (and_congr_right fun _ => and_congr_right fun ha => ?_))
    have same := Bool.eq_iff_iff.mpr ((hf c).trans (or_iff_left fun hab => ha hab.2.2))
    simp only [isValid] at same ⊢
    rw [same]
    rfl
  · rcases hse.best with hs | ⟨hn, hh, ha⟩
    · rw [hs]
      exact hb.imp_right fun new => ⟨new.1, mem_append_left _ new.2.1, new.2.2⟩
    · exact .inr ⟨hn, mem_append_right _ hh, ha⟩
  · obtain ⟨hal, bounds⟩ := hm hn
    obtain ⟨hal', bounds'⟩ := hse.most hn
    refine ⟨hal.trans hal', fun c hh hhi ha => ?_⟩
    rcases mem_append.mp hh with inFirst | inSecond
    · exact (bounds c inFirst hhi ha).trans hal'
    · exact bounds' c inSecond hhi ha

lemma considered_foldl (headers : List BlockId) (s : Chainstate) :
  Considered d newTip needsUpdate headers s
    (headers.foldl (considerHeader d newTip needsUpdate) s) := by
  induction headers generalizing s with
  | nil => exact .nil s
  | cons c rest ih => exact (Considered.single s c).trans (ih _)

/-- What holds at the head of the loop of `InvalidateBlock`: the cache has every unmarked block
outside of the active chain that is not worse than the parent of the invalidated block. -/
structure Invalidating (pindex prev : BlockId) (at_ : Invalidation) : Prop where
  core : Core [] at_.state
  complete : Complete at_.state
  edge : at_.state.index.pprev pindex = some prev
  headers : ∀ c ∈ at_.headers, c ∈ at_.state.index.ids ∧ at_.state.failedValid c = false
  cached : ∀ c ∈ at_.state.index.ids, at_.state.failedValid c = false →
    ¬ at_.state.index.Above c at_.state.tip → at_.state.rank prev ≤ at_.state.rank c →
    c ∈ at_.headers
  outside : at_.pindexWasInChain = false → at_.toMarkFailed = pindex
  inside : at_.pindexWasInChain = true → at_.toMarkFailed ∈ at_.state.index.ids ∧
    at_.state.failedValid at_.toMarkFailed = true

/-- The state in which the loop over the cache starts, after the tip `d` was disconnected. -/
def afterDisconnect (s : Chainstate) (d p : BlockId) (needsUpdate : Bool) : Chainstate :=
  { s with
    tip := p
    failedValid := fun b => s.failedValid b || decide (b ∈ [d])
    setBlockIndexCandidates := (s.setBlockIndexCandidates.filter (· ∉ [d])).insert p
    bestHeader := if needsUpdate then p else s.bestHeader }

/-- One round: the tip is disconnected to its parent `p`, and `t` is what the loop over the
cache leaves. -/
structure Round (s : Chainstate) (prev p : BlockId) (headers : List BlockId) (t : Chainstate) :
  Prop where
  core : Core [] s
  edge : s.index.pprev s.tip = some p
  above : s.index.Above prev p
  known : ∀ c ∈ headers, c ∈ s.index.ids ∧ s.failedValid c = false
  cached : ∀ c ∈ s.index.ids, s.failedValid c = false → ¬ s.index.Above c s.tip →
    s.rank prev ≤ s.rank c → c ∈ headers
  loop : Considered s.tip p (s.index.descends s.bestHeader s.tip) headers
    (afterDisconnect s s.tip p (s.index.descends s.bestHeader s.tip)) t

namespace Round

variable {prev p : BlockId}

variable (hr : Round s prev p headers t)
include hr

lemma work_lt {b : BlockId} (ha : s.index.Above s.tip b) :
  s.index.nChainWork p < s.index.nChainWork b := by
  have grows := hr.core.grows _ _ hr.edge
  rcases hr.core.work_le ha with hs | less
  · rwa [← hs]
  · exact grows.trans less

/-- Exactly the disconnected tip and its descendants are newly marked: all of these that were
unmarked are in the cache. -/
lemma failed_iff (b : BlockId) :
  t.failedValid b = true ↔ s.failedValid b = true ∨ s.index.Above s.tip b := by
  have core := hr.core
  rw [hr.loop.failed]
  simp only [afterDisconnect, or_eq_true, decide_eq_true_eq, mem_singleton]
  constructor
  · rintro ((old | rfl) | ⟨-, -, ha⟩)
    · exact .inl old
    · exact .inr (.refl _)
    · exact .inr ha
  rintro (old | ha)
  · exact .inl (.inl old)
  by_cases hs : b = s.tip
  · exact .inl (.inr hs)
  by_cases old : s.failedValid b = true
  · exact .inl (.inl old)
  have member := mem_of_above ha core.tip
  have toTip : s.index.Above p s.tip := .of_parent hr.edge
  have apart : ¬ s.index.Above b s.tip := by
    intro back
    refine hs (eq_of_height s.index.graded back (.refl _) ?_)
    have first := height_le s.index.graded ha
    have second := height_le s.index.graded back
    omega
  have high := core.rank_le (trans hr.above (trans toTip ha))
  exact .inr ⟨hr.cached b member (by simpa using old) apart high, (hr.work_lt ha).le, ha⟩

lemma good_iff (b : BlockId) :
  t.failedValid b = false ↔ s.failedValid b = false ∧ ¬ s.index.Above s.tip b := by
  rw [← not_eq_true, hr.failed_iff, not_or, not_eq_true]

lemma frame : s.Frame t := by
  have disconnected : s.Frame (afterDisconnect s s.tip p (s.index.descends s.bestHeader s.tip)) :=
    ⟨rfl, rfl, rfl, rfl, rfl, rfl⟩
  exact disconnected.trans hr.loop.frame

lemma tip_eq : t.tip = p := hr.loop.tip

/-- Blocks that stay unmarked and have more work than the new tip are cached. -/
lemma cached_of_work {b : BlockId} (hm : b ∈ s.index.ids)
  (good : t.failedValid b = false) (hh : s.rank p ≤ s.rank b) (hap : b ≠ p) :
  b ∈ headers ∧ s.failedValid b = false ∧ ¬ s.index.Above s.tip b := by
  have core := hr.core
  rw [hr.good_iff] at good
  refine ⟨hr.cached b hm good.1 ?_ ((core.rank_le hr.above).trans hh), good⟩
  intro ha
  rcases above_cases ha hr.edge with rfl | ha
  · exact good.2 (.refl _)
  · rcases core.work_le ha with hs | less
    · exact hap hs
    · exact absurd hh (not_le.mpr (rank_lt_of_work less))

lemma header : t.BestHeader := by
  have core := hr.core
  have header := core.header
  have toTip : s.index.Above p s.tip := .of_parent hr.edge
  have frame := hr.frame
  obtain ⟨-, -, -, -, -, best, most⟩ := hr.loop
  dsimp only [afterDisconnect] at best most
  cases update : s.index.descends s.bestHeader s.tip with
  | true =>
    rw [update, if_pos rfl] at best most
    obtain ⟨hal, bounds⟩ := most rfl
    have kept : t.bestHeader ∈ s.index.ids ∧ t.failedValid t.bestHeader = false := by
      rw [hr.good_iff]
      rcases best with same | ⟨-, hh, apart⟩
      · rw [same]
        exact ⟨toTip.mem core.tip, core.unmarked_of_above toTip core.unmarked,
          not_above_parent hr.edge⟩
      · exact ⟨(hr.known _ hh).1, (hr.known _ hh).2, apart⟩
    refine ⟨frame.index ▸ kept.1, kept.2, ?_⟩
    rw [frame.index]
    intro b hm good
    by_cases low : s.index.nChainWork b ≤ s.index.nChainWork p
    · exact low.trans hal
    have more := not_le.mp low
    obtain ⟨hh, -, apart⟩ := hr.cached_of_work hm good (rank_lt_of_work more).le
      (by rintro rfl; exact low le_rfl)
    exact bounds b hh more.le apart
  | false =>
    rw [update] at best
    have same := best.resolve_right fun h => Bool.false_ne_true h.1
    constructor
    · rw [same, frame.index]
      exact header.member
    · rw [same, hr.good_iff]
      exact ⟨header.unmarked, fun ha => Bool.false_ne_true (update.symm.trans (descends_iff.mpr ha))⟩
    · rw [same, frame.index]
      intro b hm good
      exact header.most b hm ((hr.good_iff b).mp good).1

lemma after : Consistent t := by
  have core := hr.core
  have disconnected := core.disconnect hr.edge
  have frame := hr.frame
  have tip := hr.tip_eq
  have hv : t.validity = s.validity := hr.loop.validity
  obtain ⟨⟩ := t
  obtain ⟨rfl, rfl, rfl, rfl, rfl, rfl⟩ := frame
  subst hv tip
  rename_i newTip _ _ _ _ _
  refine ⟨{ disconnected with
    failed := fun b q edge hma => ?_
    unmarked := (hr.good_iff _).mpr ⟨disconnected.unmarked, not_above_parent hr.edge⟩
    received := { disconnected.received with }
    sound := fun c candidate => ?_
    header := hr.header }, fun b hm hh hl good => (hr.loop.candidates b).mpr ?_⟩
  · refine (hr.failed_iff b).mpr ?_
    rcases (hr.failed_iff q).mp hma with old | ha
    · exact .inl (core.failed b q edge old)
    · exact .inr (.step edge ha)
  · rcases (hr.loop.candidates c).mp candidate with ho | ⟨hhe, -, hh, -, hl⟩
    · rcases mem_insert_iff.mp ho with rfl | ho
      · exact ⟨disconnected.tip, le_rfl, disconnected.linked⟩
      · exact disconnected.sound c (mem_of_mem_filter ho)
    · exact ⟨(hr.known c hhe).1, hh, hl⟩
  · by_cases here : b = newTip
    · exact .inl (here ▸ mem_insert_self)
    obtain ⟨hhe, old, hap⟩ := hr.cached_of_work hm good hh here
    refine .inr ⟨hhe, hap, hh, ?_, hl⟩
    have hasTxs : s.nTx b ≠ 0 := (core.received.linked_iff hm).mp hl b (.refl b)
    have same : b ≠ s.tip := fun isTip => hap (isTip ▸ .refl b)
    simp [isValid, afterDisconnect, old, same, (core.received.validity b hm).mpr hasTxs]

/-- The blocks that descend from the disconnected tip have left the cache. -/
lemma cache : let later := headers.filter fun c =>
    s.index.nChainWork c < s.index.nChainWork p || !s.index.descends c s.tip
  (∀ c ∈ later, c ∈ t.index.ids ∧ t.failedValid c = false) ∧
    ∀ c ∈ t.index.ids, t.failedValid c = false → ¬ t.index.Above c t.tip →
      t.rank prev ≤ t.rank c → c ∈ later := by
  have frame := hr.frame
  rw [frame.index, frame.rank, hr.tip_eq]
  refine ⟨?_, ?_⟩
  · intro c inLater
    obtain ⟨hh, hp⟩ := mem_filter.mp inLater
    obtain ⟨hm, old⟩ := hr.known c hh
    refine ⟨hm, (hr.good_iff c).mpr ⟨old, fun ha => ?_⟩⟩
    have less := hr.work_lt ha
    simp only [or_eq_true, decide_eq_true_eq, not_eq_true', ← not_eq_true, descends_iff] at hp
    rcases hp with low | hap
    · omega
    · exact hap ha
  · intro c hm good hap hhi
    rw [hr.good_iff] at good
    have away : ¬ s.index.Above c s.tip := by
      intro ha
      rcases above_cases ha hr.edge with rfl | ha
      · exact good.2 (.refl _)
      · exact hap ha
    refine mem_filter.mpr ⟨hr.cached c hm good.1 away hhi, ?_⟩
    have notBelow : s.index.descends c s.tip = false := by
      rw [← not_eq_true, descends_iff]
      exact good.2
    simp [notBelow]

end Round

variable {pindex prev : BlockId} {at_ : Invalidation}

lemma invalidateTip_keeps (inv : Invalidating pindex prev at_)
  (hc : at_.state.index.Above pindex at_.state.tip) :
  Yields (invalidateTip at_) fun next => Invalidating pindex prev next ∧
    next.state.index = at_.state.index ∧
    at_.state.index.nHeight next.state.tip + 1 = at_.state.index.nHeight at_.state.tip := by
  obtain ⟨s, headers, toMark, wasInChain⟩ := at_
  obtain ⟨core, -, prevEdge, hk, cached, -, -⟩ := inv
  obtain ⟨p, edge, ha⟩ : ∃ p, s.index.pprev s.tip = some p ∧ s.index.Above prev p := by
    rcases eq_or_above hc with hs | ⟨p, edge, ha⟩
    · exact ⟨prev, hs ▸ prevEdge, .refl prev⟩
    · exact ⟨p, edge, Ancestor.trans (.of_parent prevEdge) ha⟩
  have round : Round s prev p headers _ :=
    ⟨core, edge, ha, hk, cached, considered_foldl _ _⟩
  obtain ⟨core', hc'⟩ := round.after
  obtain ⟨hk', cached'⟩ := round.cache
  refine ⟨_, by simp only [invalidateTip, disconnectTip, edge]; rfl, ?_, ?_, ?_⟩
  · constructor
    · exact core'
    · exact hc'
    · exact (congrArg (·.pprev pindex) round.frame.index).trans prevEdge
    · exact hk'
    · exact cached'
    · intro h
      cases h
    · intro _
      refine ⟨?_, (round.failed_iff s.tip).mpr (.inr (.refl _))⟩
      exact (congrArg (·.ids) round.frame.index) ▸ core.tip
  · exact round.frame.index
  · have heights := s.index.graded _ _ edge
    have tip := round.tip_eq
    rw [heights]
    exact congrArg (s.index.nHeight · + 1) tip

/-- The loop ends: each round lowers the tip. -/
lemma invalidateLoop_keeps (fuel : ℕ) (inv : Invalidating pindex prev at_)
  (he : at_.state.index.nHeight at_.state.tip ≤ fuel) :
  Yields (invalidateLoop pindex fuel at_) fun last => Invalidating pindex prev last ∧
    last.state.index = at_.state.index ∧ ¬ last.state.index.Above pindex last.state.tip := by
  induction fuel generalizing at_ with
  | zero =>
    have apart : ¬ at_.state.index.Above pindex at_.state.tip := by
      intro inChain
      have lower := height_le at_.state.index.graded inChain
      have heights := at_.state.index.graded _ _ inv.edge
      omega
    exact ⟨at_, by simp [invalidateLoop, contains_eq_false.mpr apart], inv, rfl, apart⟩
  | succ fuel ih =>
    cases inChain : at_.state.contains pindex with
    | true =>
      obtain ⟨next, result, inv', index, heights⟩ :=
        invalidateTip_keeps inv (contains_iff.mp inChain)
      obtain ⟨last, result', inv'', index', ha⟩ := ih inv' (by rw [index]; omega)
      refine ⟨last, ?_, inv'', index'.trans index, ha⟩
      simp only [invalidateLoop, inChain, if_true, result]
      exact result'
    | false =>
      exact ⟨at_, by simp [invalidateLoop, inChain], inv, rfl, contains_eq_false.mp inChain⟩

/-- The loop that adds missing candidates adds the usable blocks that are not worse. -/
lemma addMissingCandidates_eq (s : Chainstate) : ∃ candidates,
  addMissingCandidates s = { s with setBlockIndexCandidates := candidates } ∧
  ∀ c, c ∈ candidates ↔ c ∈ s.setBlockIndexCandidates ∨ (c ∈ s.index.ids ∧
    (s.isValid c .transactions && s.haveNumChainTxs c && !s.workLess c s.tip) = true) := by
  refine foldl_inv (fun blocks s' => ∃ candidates,
    s' = { s with setBlockIndexCandidates := candidates } ∧
    ∀ c, c ∈ candidates ↔ c ∈ s.setBlockIndexCandidates ∨ (c ∈ blocks ∧
      (s.isValid c .transactions && s.haveNumChainTxs c && !s.workLess c s.tip) = true))
    ⟨s.setBlockIndexCandidates, ?_, by simp⟩ ?_
  · rfl
  rintro blocks b later _ - ⟨old, rfl, members⟩
  obtain ⟨candidates, inserted, added⟩ := insertCandidate_if { s with setBlockIndexCandidates := old }
    b (s.isValid b .transactions && s.haveNumChainTxs b && !s.workLess b s.tip)
  refine ⟨candidates, inserted, fun c => ?_⟩
  rw [added, members, mem_append, mem_singleton, or_and_right, or_assoc]
  refine or_congr_right (or_congr_right (and_congr_right ?_))
  rintro rfl
  rfl

/-- Marking a block outside of the active chain, after the missing candidates were added. -/
lemma invalidChainFound_keeps {p : BlockId} (core : Core [] s) (complete : Complete s)
  (hme : p ∈ s.index.ids) (ha : ¬ s.index.Above p s.tip) (ht : t = { s with
    failedValid := t.failedValid
    setBlockIndexCandidates := t.setBlockIndexCandidates })
  (hf : ∀ b, t.failedValid b = true ↔ s.failedValid b = true ∨ b = p)
  (hfe : t.setBlockIndexCandidates ⊆ s.setBlockIndexCandidates)
  (hk : ∀ c ∈ s.setBlockIndexCandidates, c ≠ p → c ∈ t.setBlockIndexCandidates) :
  Consistent ((addMissingCandidates t).invalidChainFound p) := by
  obtain ⟨candidates, adding, members⟩ := addMissingCandidates_eq t
  have marks := core.invalidate (t := { t with setBlockIndexCandidates := candidates }) ha hme
  obtain ⟨failed, best, invalid, found, -⟩ :=
    invalidChainFound_eq { t with setBlockIndexCandidates := candidates } p
  rw [found] at marks
  rw [adding, found]
  obtain ⟨⟩ := t
  cases ht
  have sound : ∀ c ∈ candidates,
    c ∈ s.index.ids ∧ s.rank s.tip ≤ s.rank c ∧ s.chainTxCount c ≠ 0 := by
    intro c candidate
    rcases (members c).mp candidate with ho | ⟨hi, usable⟩
    · exact core.sound c (hfe ho)
    · simp only [Bool.and_eq_true, not_eq_true', haveNumChainTxs, bne_iff_ne] at usable
      exact ⟨hi, s.workLess_follows.eq_false.mp usable.2, usable.1.2⟩
  obtain ⟨core', hm⟩ := marks rfl hf sound
  refine ⟨core', fun b hi hh hl good => ?_⟩
  have good := (hm b).not.mp ((not_eq_true _).mpr good)
  rw [not_or, not_eq_true] at good
  refine (members b).mpr (.inl (hk b (complete b hi hh hl good.1) ?_))
  rintro rfl
  exact good.2 (.refl b)

lemma invalidateBlock_keeps (core : Core [] s) (complete : Complete s)
  (hme : pindex ∈ s.index.ids) : Yields (invalidateBlock s pindex) Consistent := by
  unfold invalidateBlock
  split
  · exact ⟨s, rfl, core, complete⟩
  · next notGenesis =>
    rcases s.index.rooted pindex hme with ⟨-, hz, -⟩ | ⟨prev, -, edge, -⟩
    · exact absurd hz notGenesis
    rw [edge]
    have inv : Invalidating pindex prev ⟨s, highpowOutofchainHeaders s prev, pindex, false⟩ := by
      constructor
      · exact core
      · exact complete
      · exact edge
      · intro c cached
        obtain ⟨hi, hp⟩ := mem_filter.mp cached
        simp only [Bool.and_eq_true, Bool.not_eq_true'] at hp
        exact ⟨hi, hp.2⟩
      · intro c hi good ha hh
        refine mem_filter.mpr ⟨hi, ?_⟩
        have outside := contains_eq_false.mpr ha
        simp [outside, s.workLess_follows.eq_false.mpr hh, show s.failedValid c = false from good]
      · exact fun _ => rfl
      · intro h
        cases h
    obtain ⟨last, result, inv', index, ha⟩ := invalidateLoop_keeps _ inv le_rfl
    refine ⟨finishInvalidation pindex last,
      congrArg (Except.map (finishInvalidation pindex)) result, ?_⟩
    obtain ⟨core', hc', -, -, -, outside, hin⟩ := inv'
    have member' := index ▸ hme
    have already : ∀ p ∈ last.state.index.ids, last.state.failedValid p = true →
      Consistent ((addMissingCandidates last.state).invalidChainFound p) := by
      intro p hi hm
      refine invalidChainFound_keeps core' hc' hi ?_ rfl ?_ (List.Subset.refl _) fun c ho _ => ho
      · intro hab
        have := core'.failed_of_above hab hm
        rw [core'.unmarked] at this
        cases this
      intro b
      constructor
      · exact fun old => .inl old
      · rintro (old | rfl)
        · exact old
        · exact hm
    unfold finishInvalidation
    split
    · exact ⟨core', hc'⟩
    cases wasInChain : last.pindexWasInChain with
    | true =>
      obtain ⟨hi, hm⟩ := hin wasInChain
      simp only [Bool.not_true, Bool.false_and, Bool.false_eq_true, if_false]
      exact already _ hi hm
    | false =>
      rw [outside wasInChain]
      cases hm : last.state.failedValid pindex with
      | true =>
        simp only [Bool.not_false, Bool.not_true, Bool.and_false, Bool.false_eq_true, if_false]
        exact already pindex member' hm
      | false =>
        simp only [Bool.not_false, Bool.and_self, if_true]
        refine invalidChainFound_keeps core' hc' member' ha rfl ?_ ?_ ?_
        · simp [eraseCandidates, markFailed]
        · exact filter_subset_self _
        · intro c ho ha
          exact mem_filter.mpr ⟨ho, by simpa using ha⟩

end

section
variable {s t u : Chainstate} {pindex : BlockId} {blocks more : List BlockId}

/-- The block itself, its descendants and its ancestors. -/
def Related (s : Chainstate) (pindex b : BlockId) : Prop :=
  s.index.Above pindex b ∨ s.index.Above b pindex

/-- What the loop of `ResetBlockFailureFlags` does: it clears the marks of the related blocks,
and those that are usable and better than the tip become candidates. -/
structure Cleared (pindex : BlockId) (blocks : List BlockId) (s t : Chainstate) : Prop where
  frame : s.Frame t
  tip : t.tip = s.tip
  validity : t.validity = s.validity
  failed : ∀ b, t.failedValid b = true ↔
    s.failedValid b = true ∧ ¬ (b ∈ blocks ∧ Related s pindex b)
  candidates : ∀ c, c ∈ t.setBlockIndexCandidates ↔ c ∈ s.setBlockIndexCandidates ∨
    (c ∈ blocks ∧ (s.failedValid c = true ∧ Related s pindex c) ∧
      (Validity.transactions.level ≤ (s.validity c).level ∧ s.chainTxCount c ≠ 0) ∧
      s.rank s.tip < s.rank c)

lemma Cleared.nil (s : Chainstate) : Cleared pindex [] s s where
  frame := .refl s
  tip := rfl
  validity := rfl
  failed := by simp
  candidates := by simp

lemma Cleared.single (s : Chainstate) (b : BlockId) :
  Cleared pindex [b] s (resetFlag pindex s b) := by
  unfold resetFlag
  have related_iff : (s.index.descends b pindex || s.index.descends pindex b) = true ↔
    Related s pindex b := by
    rw [or_eq_true, descends_iff, descends_iff]
    rfl
  split
  · next clears =>
    rw [Bool.and_eq_true, related_iff] at clears
    obtain ⟨hm, hr⟩ := clears
    generalize cleared : update s.failedValid b false = flags
    have flagOf : ∀ c, flags c = true ↔ s.failedValid c = true ∧ ¬ (c ∈ [b] ∧ Related s pindex c) := by
      intro c
      rw [← cleared]
      by_cases hhe : c = b
      · simp [hhe, hr]
      · simp [hhe]
    have valid : flags b = false := by
      rw [← cleared, update_self]
    have better : { s with failedValid := flags }.workLess s.tip b = true ↔
      s.rank s.tip < s.rank b := s.workLess_follows s.tip b
    obtain ⟨candidates, inserted, members⟩ := insertCandidate_if { s with failedValid := flags } b
      ({ s with failedValid := flags }.isValid b .transactions
        && { s with failedValid := flags }.haveNumChainTxs b
        && { s with failedValid := flags }.workLess s.tip b)
    dsimp only
    rw [inserted]
    simp only [Bool.and_eq_true, haveNumChainTxs, bne_iff_ne, better] at members
    have facts : ∀ bestInvalid, Cleared pindex [b] s { s with
      failedValid := flags
      setBlockIndexCandidates := candidates
      bestInvalid := bestInvalid } := by
      intro bestInvalid
      refine ⟨⟨rfl, rfl, rfl, rfl, rfl, rfl⟩, rfl, rfl, flagOf, fun c => ?_⟩
      rw [members c, mem_singleton]
      refine or_congr_right (and_congr_right ?_)
      rintro rfl
      refine Iff.trans ?_ (and_iff_right ⟨hm, hr⟩).symm
      simp [isValid, valid]
    split
    · exact facts none
    · exact facts s.bestInvalid
  · next hk =>
    rw [Bool.and_eq_true, related_iff] at hk
    have away : ∀ c, ¬ (c ∈ [b] ∧ s.failedValid c = true ∧ Related s pindex c) := by
      rintro c ⟨hher, hcl⟩
      exact hk (mem_singleton.mp hher ▸ hcl)
    refine ⟨.refl s, rfl, rfl, fun c => ?_, fun c => ?_⟩
    · exact (and_iff_left_of_imp fun hm hher => away c ⟨hher.1, hm, hher.2⟩).symm
    · exact (or_iff_left fun hc => away c ⟨hc.1, hc.2.1⟩).symm

lemma Cleared.trans (first : Cleared pindex blocks s t) (hs : Cleared pindex more t u) :
  Cleared pindex (blocks ++ more) s u := by
  obtain ⟨⟩ := t
  obtain ⟨⟨rfl, rfl, rfl, rfl, rfl, rfl⟩, tip, hv, hf, hc⟩ := first
  subst tip hv
  refine { hs with frame := { hs.frame with }, failed := fun b => ?_, candidates := fun c => ?_ }
  · rw [hs.failed, hf, mem_append]
    tauto
  · rw [hs.candidates, hc, hf, mem_append]
    tauto

lemma cleared_foldl (blocks : List BlockId) (s : Chainstate) :
  Cleared pindex blocks s (blocks.foldl (resetFlag pindex) s) := by
  induction blocks generalizing s with
  | nil => exact .nil s
  | cons b rest ih => exact (Cleared.single s b).trans (ih _)

lemma resetBlockFailureFlags_keeps (core : Core [] s) (complete : Complete s) (pindex : BlockId) :
  Consistent (resetBlockFailureFlags s pindex).recalculateBestHeader := by
  have cleared : Cleared pindex s.index.ids s (resetBlockFailureFlags s pindex) := cleared_foldl _ _
  generalize resetBlockFailureFlags s pindex = t at cleared ⊢
  obtain ⟨⟩ := t
  obtain ⟨⟨rfl, rfl, rfl, rfl, rfl, rfl⟩, tip, hv, hf, hc⟩ := cleared
  subst tip hv
  have unmarked := (hf s.tip).not.mpr fun hm => by simp [core.unmarked] at hm
  rw [not_eq_true] at unmarked
  refine ⟨{ core with
    failed := fun b p edge hm => ?_
    unmarked := unmarked
    received := { core.received with }
    sound := fun c candidate => ?_
    header := recalculateBestHeader_spec core.tip unmarked }, fun b hi hh hl good => ?_⟩
  · refine (hf b).mpr ?_
    have hm := (hf p).mp hm
    have pMember := parent_mem edge
    refine ⟨core.failed b p edge hm.1, ?_⟩
    -- a related child has a related parent
    rintro ⟨-, ha | below⟩
    · rcases above_cases ha edge with rfl | ha
      · exact hm.2 ⟨pMember, .inr (.of_parent edge)⟩
      · exact hm.2 ⟨pMember, .inl ha⟩
    · exact hm.2 ⟨pMember, .inr (Ancestor.trans (.of_parent edge) below)⟩
  · rcases (hc c).mp candidate with ho | ⟨hi, -, ⟨-, hl⟩, hb⟩
    · exact core.sound c ho
    · exact ⟨hi, hb.le, hl⟩
  · refine (hc b).mpr ?_
    by_cases old : s.failedValid b = true
    · have good := (hf b).not.mp ((not_eq_true _).mpr good)
      have related : Related s pindex b := by
        by_contra apart
        exact good ⟨old, fun hbo => apart hbo.2⟩
      have hasTxs : s.nTx b ≠ 0 := (core.received.linked_iff hi).mp hl b (.refl b)
      refine .inr ⟨hi, ⟨old, related⟩, ⟨(core.received.validity b hi).mpr hasTxs, hl⟩,
        lt_of_le_of_ne hh ?_⟩
      intro he
      rw [← s.rank_injective he, core.unmarked] at old
      cases old
    · exact .inl (complete b hi hh hl (by simpa using old))

end

section
variable {s : Chainstate} {pindex : BlockId}

/-- The state with the new sequence number, before the block becomes a candidate again. -/
def renumbered (s : Chainstate) (pindex : BlockId) : Chainstate :=
  { s.eraseCandidates [pindex] with
    nLastPreciousChainwork := s.index.nChainWork s.tip
    nSequenceId := update s.nSequenceId pindex (preciousSequenceId s)
    nBlockReverseSequenceId := if preciousSequenceId s > lowestSequenceId
      then preciousSequenceId s - 1 else preciousSequenceId s }

lemma renumbered_rank {b : BlockId} (ha : b ≠ pindex) :
  (renumbered s pindex).rank b = s.rank b := by
  simp only [rank, renumbered, eraseCandidates, update_of_ne ha]

lemma renumbered_rank_tip (hk : pindex = s.tip → preciousSequenceId s ≤ s.nSequenceId s.tip) :
  s.rank s.tip ≤ (renumbered s pindex).rank s.tip := by
  by_cases isTip : pindex = s.tip
  · subst isTip
    have lower := hk rfl
    have same : (renumbered s s.tip).nSequenceId s.tip = preciousSequenceId s := by
      simp [renumbered]
    simp only [rank, Prod.Lex.toLex_le_toLex, same]
    refine .inr ⟨rfl, ?_⟩
    rcases lt_or_eq_of_le lower with less | he
    · exact .inl (by omega)
    · exact .inr ⟨by rw [he], le_rfl⟩
  · rw [renumbered_rank (Ne.symm isTip)]

/-- The candidates that are left when the block is one of them again. -/
def preciousCandidates (s : Chainstate) (pindex : BlockId) : List BlockId :=
  ((renumbered s pindex).setBlockIndexCandidates.insert pindex).filter fun c =>
    !(renumbered s pindex).workLess c s.tip

lemma mem_preciousCandidates {c : BlockId} : c ∈ preciousCandidates s pindex ↔
  (c = pindex ∨ c ∈ (renumbered s pindex).setBlockIndexCandidates) ∧
    (renumbered s pindex).rank s.tip ≤ (renumbered s pindex).rank c := by
  rw [preciousCandidates, mem_filter, mem_insert_iff, not_eq_true',
    (renumbered s pindex).workLess_follows.eq_false]

/-- The index, the marks and the counts stay as they are under `PreciousBlock`. -/
lemma renumbered_core (core : Core [] s) (candidates : List BlockId)
  (hs : ∀ c ∈ candidates, c ∈ s.index.ids ∧
    (renumbered s pindex).rank s.tip ≤ (renumbered s pindex).rank c ∧ s.chainTxCount c ≠ 0) :
  Core [] { renumbered s pindex with setBlockIndexCandidates := candidates } := by
  exact { core with
    received := { core.received with }
    sound := hs
    header := { core.header with } }

lemma makePrecious_keeps (core : Core [] s) (complete : Complete s) (hm : pindex ∈ s.index.ids)
  (hk : pindex = s.tip → preciousSequenceId s ≤ s.nSequenceId s.tip) :
  Yields (makePrecious s pindex) fun s' => Consistent s' ∧ s'.index = s.index ∧ s'.tip = s.tip := by
  have raised := renumbered_rank_tip hk
  have others : ∀ b ∈ s.index.ids, b ≠ pindex →
    (renumbered s pindex).rank s.tip ≤ (renumbered s pindex).rank b → s.chainTxCount b ≠ 0 →
    s.failedValid b = false → b ∈ (renumbered s pindex).setBlockIndexCandidates := by
    intro b hi apart ha hl good
    rw [renumbered_rank apart] at ha
    exact mem_filter.mpr ⟨complete b hi (raised.trans ha) hl good, by simp [apart]⟩
  unfold makePrecious
  change Yields (if ((renumbered s pindex).isValid pindex .transactions
      && (renumbered s pindex).haveNumChainTxs pindex) = true
    then ((renumbered s pindex).insertCandidate pindex).pruneBlockIndexCandidates
    else .ok (renumbered s pindex)) _
  split
  · next usable =>
    simp only [Bool.and_eq_true, isValid, not_eq_true', decide_eq_true_eq,
      haveNumChainTxs, bne_iff_ne] at usable
    obtain ⟨⟨good, -⟩, hl⟩ := usable
    -- the tip survives the pruning
    have tipKept : s.tip ∈ preciousCandidates s pindex := by
      rw [mem_preciousCandidates]
      by_cases isTip : s.tip = pindex
      · exact ⟨.inl isTip, le_rfl⟩
      · exact ⟨.inr (others s.tip core.tip isTip le_rfl core.linked core.unmarked), le_rfl⟩
    have pruned : ((renumbered s pindex).insertCandidate pindex).pruneBlockIndexCandidates
      = .ok { renumbered s pindex with
        setBlockIndexCandidates := preciousCandidates s pindex } := by
      have nonempty : (preciousCandidates s pindex).isEmpty ≠ true := by
        intro empty
        rw [List.isEmpty_iff] at empty
        rw [empty] at tipKept
        cases tipKept
      exact if_neg nonempty
    rw [pruned]
    refine ⟨_, rfl, ⟨renumbered_core core _ ?_, ?_⟩, rfl, rfl⟩
    · intro c candidate
      obtain ⟨rfl | ho, ha⟩ := mem_preciousCandidates.mp candidate
      · exact ⟨hm, ha, hl⟩
      · obtain ⟨hi, -, hcl⟩ := core.sound c (mem_of_mem_filter ho)
        exact ⟨hi, ha, hcl⟩
    · intro b hi ha bLinked bGood
      refine mem_preciousCandidates.mpr ⟨?_, ha⟩
      by_cases hh : b = pindex
      · exact .inl hh
      · exact .inr (others b hi hh ha bLinked bGood)
  · next unusable =>
    -- an unusable block is not the tip
    have notUsable : ¬ (s.failedValid pindex = false ∧ s.chainTxCount pindex ≠ 0) := by
      rintro ⟨good, hl⟩
      have hasTxs := (core.received.linked_iff hm).mp hl pindex (.refl _)
      have level := (core.received.validity pindex hm).mpr hasTxs
      refine unusable ?_
      simp [isValid, haveNumChainTxs, renumbered, eraseCandidates, good, hl, level]
    have apart : s.tip ≠ pindex := by
      rintro rfl
      exact notUsable ⟨core.unmarked, core.linked⟩
    refine ⟨_, rfl, ⟨renumbered_core core (renumbered s pindex).setBlockIndexCandidates ?_, ?_⟩,
      rfl, rfl⟩
    · intro c candidate
      obtain ⟨ho, hp⟩ := mem_filter.mp candidate
      obtain ⟨hi, ha, hl⟩ := core.sound c ho
      have cApart : c ≠ pindex := by simpa using hp
      rw [renumbered_rank cApart, renumbered_rank apart]
      exact ⟨hi, ha, hl⟩
    · intro b hi ha hl good
      refine others b hi ?_ ha hl good
      rintro rfl
      exact notUsable ⟨good, hl⟩

end

variable {s : Chainstate}

/-- The operation is within the rules: blocks of the active chain connect again, and a precious
tip does not get a higher sequence number than it has. -/
structure Regular (s : Chainstate) (op : Operation) : Prop where
  reconnects : ∀ connects, op.outcomes = some connects →
    ∀ a, s.index.Above a s.tip → connects a = true
  keepsTip : ∀ connects, op = .preciousBlock s.tip connects →
    preciousSequenceId s ≤ s.nSequenceId s.tip

/-- Every operation of the run is regular in the state it is applied to. -/
def RegularRun (powLimit : Pow.ArithUint256) : List Operation → Chainstate → Prop
  | [], _ => True
  | op :: ops, s => Regular s op ∧ ∀ s', op.run powLimit s = .ok s' → RegularRun powLimit ops s'

lemma run_keeps (powLimit : Pow.ArithUint256) (op : Operation) (core : Core [] s)
  (complete : Complete s) (hr : Regular s op) : Yields (op.run powLimit s) Consistent := by
  cases op with
  | acceptBlockHeader block minPowChecked =>
    exact ⟨_, rfl, acceptBlockHeader_keeps powLimit block minPowChecked core complete⟩
  | receivedBlockTransactions pindex nTx => exact acceptBlock_keeps core complete pindex nTx
  | activateBestChain connects =>
    exact activateBestChain_keeps core complete (hr.reconnects connects rfl)
  | invalidateBlock pindex =>
    simp only [Operation.run]
    split
    · next hm => exact invalidateBlock_keeps core complete hm
    · exact ⟨s, rfl, core, complete⟩
  | resetBlockFailureFlags pindex =>
    simp only [Operation.run]
    split
    · exact ⟨_, rfl, resetBlockFailureFlags_keeps core complete pindex⟩
    · exact ⟨s, rfl, core, complete⟩
  | preciousBlock pindex connects =>
    simp only [Operation.run]
    split
    · next hm =>
      unfold preciousBlock
      split
      · exact ⟨s, rfl, core, complete⟩
      obtain ⟨s', result, ⟨core', hc'⟩, index, tip⟩ := makePrecious_keeps core complete hm
        fun isTip => hr.keepsTip connects (isTip ▸ rfl)
      have reconnects : ∀ a, s'.index.Above a s'.tip → connects a = true := by
        rw [index, tip]
        exact hr.reconnects connects rfl
      obtain ⟨s'', result', hk⟩ := activateBestChain_keeps core' hc' reconnects
      refine ⟨s'', ?_, hk⟩
      rw [result]
      exact result'
    · exact ⟨s, rfl, core, complete⟩

lemma runAll_keeps (powLimit : Pow.ArithUint256) (ops : List Operation) (core : Core [] s)
  (complete : Complete s) (regular : RegularRun powLimit ops s) (n : ℕ) :
  Yields (runAll powLimit (ops.take n) s) Consistent := by
  induction ops generalizing s n with
  | nil => exact ⟨s, by simp [runAll], core, complete⟩
  | cons op ops ih =>
    cases n with
    | zero => exact ⟨s, rfl, core, complete⟩
    | succ n =>
      obtain ⟨first, hl⟩ := regular
      obtain ⟨s', result, core', hc'⟩ := run_keeps powLimit op core complete first
      obtain ⟨s'', result', hk⟩ := ih core' hc' (hl s' result) n
      refine ⟨s'', ?_, hk⟩
      rw [take_succ_cons, runAll, result]
      exact result'

lemma genesisOnly_core (genesis work : ℕ) {nTx : ℕ} (some_ : nTx ≠ 0) :
  Consistent (genesisOnly genesis work nTx) := by
  refine ⟨?_, ?_⟩
  · constructor
    · exact mem_singleton_self genesis
    · intro b p edge
      cases edge
    · intro b p edge
      cases edge
    · rfl
    · simpa [genesisOnly] using some_
    · constructor <;> simp [genesisOnly, some_, Validity.level, expectedCount]
    · simp [genesisOnly, some_]
    · constructor <;> simp [genesisOnly]
  · intro b hm
    simpa [genesisOnly] using fun _ _ _ => hm

/-- From an index that holds only genesis, after each operation of a regular run all invariants
of the block index hold, and no operation fails an assertion. -/
theorem runAll_invariants (powLimit : Pow.ArithUint256) (genesis work nTx : ℕ) (some_ : nTx ≠ 0)
  (ops : List Operation) (regular : RegularRun powLimit ops (genesisOnly genesis work nTx))
  (n : ℕ) : ∃ s, runAll powLimit (ops.take n) (genesisOnly genesis work nTx) = .ok s ∧
    Invariants s := by
  obtain ⟨core, complete⟩ := genesisOnly_core genesis work some_
  obtain ⟨s, result, core', hc'⟩ := runAll_keeps powLimit ops core complete regular n
  exact ⟨s, result, core'.invariants hc'⟩

/-- A header with the smallest work that the target admits. -/
def plainHeader (id hashPrevBlock : BlockId) : Operation :=
  .acceptBlockHeader ⟨id, hashPrevBlock, 0x207fffff, 0, true⟩ true

/-- The branch 1, 2 is active; the branch 3, 4, 5 has more work. -/
def forkedRun : List Operation :=
  [plainHeader 1 0, plainHeader 2 1, plainHeader 3 0, plainHeader 4 3, plainHeader 5 4,
    .receivedBlockTransactions 1 1, .receivedBlockTransactions 2 1,
    .activateBestChain fun _ => true, .receivedBlockTransactions 3 1,
    .receivedBlockTransactions 4 1, .receivedBlockTransactions 5 1]

/-- A run is regular when every block connects and none becomes precious. -/
lemma regularRun_of_connects (powLimit : Pow.ArithUint256) {ops : List Operation}
  (hc : ∀ op ∈ ops, ∀ connects, op.outcomes = some connects → ∀ a, connects a = true)
  (none_ : ∀ op ∈ ops, ∀ b connects, op ≠ .preciousBlock b connects) (s : Chainstate) :
  RegularRun powLimit ops s := by
  induction ops generalizing s with
  | nil => trivial
  | cons op ops ih =>
    refine ⟨⟨fun connects given a _ => ?_, fun connects hs => ?_⟩, fun s' _ => ih ?_ ?_ s'⟩
    · exact hc op (.head _) connects given a
    · exact absurd hs (none_ op (.head _) _ _)
    · exact fun op' hm => hc op' (.tail _ hm)
    · exact fun op' hm => none_ op' (.tail _ hm)

/-- The better branch is activated, left because block 4 is invalidated, and allowed again. -/
def reconsideredRun : List Operation :=
  forkedRun ++ [.activateBestChain fun _ => true, .invalidateBlock 4, .resetBlockFailureFlags 5]

theorem runAll_invariants_reconsidered :
  ∃ s, runAll (-1) (reconsideredRun.take 14) (genesisOnly 0 1 1) = .ok s ∧ Invariants s := by
  refine runAll_invariants (-1) 0 1 1 (by decide) reconsideredRun
    (regularRun_of_connects _ ?_ ?_ _) 14
  · simp [reconsideredRun, forkedRun, plainHeader, Operation.outcomes]
  · simp [reconsideredRun, forkedRun, plainHeader]

/-- Blocks 1 and 2 become precious in turn. Block 3 on block 1 becomes precious, which starts
the counter anew, and is invalidated; then the tip, block 1, becomes precious again. -/
def preciousRun : List Operation :=
  let precious (b : BlockId) : Operation := .preciousBlock b fun _ => true
  [plainHeader 1 0, plainHeader 2 0, plainHeader 3 1, .receivedBlockTransactions 1 1,
    .receivedBlockTransactions 2 1, precious 2, precious 1, precious 2, precious 1, precious 2,
    precious 1, .receivedBlockTransactions 3 1, .activateBestChain fun _ => true, precious 3,
    .invalidateBlock 3, precious 1]

/-- A usable block that is not worse than the tip and is no candidate. -/
def missed (s : Chainstate) (b : BlockId) : Bool :=
  decide (b ∈ s.index.ids) && !s.failedValid b && s.chainTxCount b != 0 &&
    !s.workLess b s.tip && decide (b ∉ s.setBlockIndexCandidates)

lemma not_invariants_of_missed {s : Chainstate} {b : BlockId} (hmi : missed s b = true) :
  ¬ Invariants s := by
  simp only [missed, Bool.and_eq_true, decide_eq_true_eq, not_eq_true', bne_iff_ne] at hmi
  obtain ⟨⟨⟨⟨hm, good⟩, hl⟩, hw⟩, ha⟩ := hmi
  exact fun all => ha (all.complete b hm good hl hw)

/-- Without the two rules the invariants fail. When blocks 4 and 2 are refused, of which block 2
was connected before, the tip becomes block 1, which is no candidate. And a precious tip that
gets a higher number leaves block 2 better than the tip and no candidate. -/
theorem runAll_misses_candidates :
  (∃ s, runAll (-1) (forkedRun ++ [.activateBestChain (· ∉ [2, 4])]) (genesisOnly 0 1 1) = .ok s ∧
    s.tip = 1 ∧ ¬ Invariants s) ∧
  (∃ s, runAll (-1) preciousRun (genesisOnly 0 1 1) = .ok s ∧ s.tip = 1 ∧ ¬ Invariants s) := by
  have found : ∀ ops : List Operation, ∀ b : BlockId,
    ((runAll (-1) ops (genesisOnly 0 1 1)).toOption.map fun s => (s.tip, missed s b))
      = some (1, true) →
    ∃ s, runAll (-1) ops (genesisOnly 0 1 1) = .ok s ∧ s.tip = 1 ∧ ¬ Invariants s := by
    intro ops b he
    cases result : runAll (-1) ops (genesisOnly 0 1 1) with
    | error e =>
      rw [result] at he
      cases he
    | ok s =>
      rw [result] at he
      have both := Prod.mk.inj (Option.some.inj he)
      exact ⟨s, rfl, both.1, not_invariants_of_missed both.2⟩
  exact ⟨found _ 1 (by decide +kernel), found _ 2 (by decide +kernel)⟩

end BlockIndexRuns
