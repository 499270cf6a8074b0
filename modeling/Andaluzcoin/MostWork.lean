import Andaluzcoin.ActivateBestChain
import Andaluzcoin.BlockIndexSpec
import Andaluzcoin.Outcome

/-!
# The most-work rule

`ActivateBestChain` is a sequence of few moves: a candidate on a marked chain is dropped, the tip
is disconnected, a block is connected and the worse candidates are pruned, or a block does not
connect and is marked with its descendants. Under these moves all usable blocks better than some
valid block are among the candidates, and every round marks a block, adds work to the tip or
reaches the target.
-/

namespace MostWork

open ParentTree Ranking BlockIndex ActivateBestChain Outcome List Chainstate Ancestor BlockMap
open Bool (not_eq_true)

/-- The whole path to a block has data, is unmarked and connects. -/
def Valid (connects : BlockId → Bool) (s : Chainstate) (b : BlockId) : Prop :=
  b ∈ s.index.ids ∧ ∀ a, s.index.Above a b →
    s.haveData a = true ∧ s.failedValid a = false ∧ connects a = true

/-- What `CheckBlockIndex` asserts, as far as activation relies on it. -/
structure Checked (s : Chainstate) : Prop where
  data : ∀ b ∈ s.index.ids, s.haveData b = true ↔ s.nTx b ≠ 0
  linked : ∀ b ∈ s.index.ids, s.chainTxCount b ≠ 0 ↔ ∀ a, s.index.Above a b → s.nTx a ≠ 0
  failed : ∀ a b, b ∈ s.index.ids → s.index.Above a b → s.failedValid a = true →
    s.failedValid b = true
  complete : ∀ b ∈ s.index.ids, s.workLess b s.tip = false → s.chainTxCount b ≠ 0 →
    s.failedValid b = false → b ∈ s.setBlockIndexCandidates
  sound : ∀ b ∈ s.setBlockIndexCandidates, b ∈ s.index.ids ∧ s.workLess b s.tip = false ∧
    s.chainTxCount b ≠ 0

section
variable (connects : BlockId → Bool) {s : Chainstate}

/-- What activation does to the block index, with what is known when it does it. -/
inductive Move : Chainstate → Chainstate → Prop
  | drop (s : Chainstate) (c t : BlockId) (candidate : c ∈ s.setBlockIndexCandidates)
      (above : s.index.Above t c) (failed : s.failedValid t = true) : Move s (s.dropChain c t)
  | disconnect (s : Chainstate) (p : BlockId) (edge : s.index.pprev s.tip = some p) :
      Move s { s with tip := p }
  | connect (s s' : Chainstate) (b : BlockId) (edge : s.index.pprev b = some s.tip)
      (connected : connects b = true) (unmarked : s.failedValid b = false)
      (linked : s.chainTxCount b ≠ 0)
      (pruned : pruneBlockIndexCandidates
        { s.raiseValidity b .scripts with tip := b } = .ok s') : Move s s'
  | fail (s : Chainstate) (b front : BlockId) (edge : s.index.pprev b = some s.tip)
      (refused : connects b = false) (above : s.index.Above b front) :
      Move s ((s.invalidBlockFound b).invalidChainFound front)

abbrev Moves : Chainstate → Chainstate → Prop := Relation.ReflTransGen (Move connects)

variable {connects}

lemma raiseValidity_eq (s : Chainstate) (b : BlockId) (level : Validity) :
  ∃ validity, s.raiseValidity b level = { s with validity := validity } := by
  unfold raiseValidity
  split
  · exact ⟨s.validity, rfl⟩
  · exact ⟨_, rfl⟩

lemma prune_eq {s' : Chainstate} (hp : s.pruneBlockIndexCandidates = .ok s') : s' = { s with
  setBlockIndexCandidates := s.setBlockIndexCandidates.filter fun c => !s.workLess c s.tip } := by
  unfold pruneBlockIndexCandidates at hp
  dsimp only at hp
  split at hp
  · cases hp
  · cases hp
    rfl

/-- What pruning leaves after a block was connected. -/
abbrev connectedTo (s : Chainstate) (b : BlockId) (validity : BlockId → Validity) : Chainstate :=
  { s with
    validity := validity
    tip := b
    setBlockIndexCandidates := s.setBlockIndexCandidates.filter fun c => !s.workLess c b }

lemma connect_eq {s' : Chainstate} {b : BlockId}
  (hp : pruneBlockIndexCandidates { s.raiseValidity b .scripts with tip := b } = .ok s') :
  ∃ validity, s' = connectedTo s b validity := by
  obtain ⟨validity, raised⟩ := raiseValidity_eq s b .scripts
  rw [raised] at hp
  exact ⟨validity, prune_eq hp⟩

/-- The blocks dropped with a candidate descend from the marked block, so that no mark is new. -/
lemma dropChain_eq {c t : BlockId} (ha : s.index.Above t c) (hf : s.failedValid t = true)
  (closed : ∀ b, s.index.Above t b → s.index.Above b c → s.failedValid b = true) :
  ∃ (dropped : List BlockId) (bestInvalid : Option BlockId), c ∈ dropped ∧
    (∀ b ∈ dropped, s.failedValid b = true) ∧ s.dropChain c t = { s with
      setBlockIndexCandidates := s.setBlockIndexCandidates.filter (· ∉ dropped)
      bestInvalid := bestInvalid } := by
  obtain ⟨n, hs⟩ := ha
  have heights := height_up s.index.graded hs
  have count : s.index.nHeight c - s.index.nHeight t = n := by omega
  obtain ⟨bestInvalid, noted⟩ := noteInvalid_eq s c
  have marked : ∀ b ∈ trail s.index.pprev n c, s.failedValid b = true := by
    intro b hm
    obtain ⟨lower, hac⟩ := height_lt_of_mem_trail s.index.graded hs hm
    exact closed b (of_height_le s.index.graded ⟨n, hs⟩ hac lower.le) hac
  have same : (fun b => s.failedValid b || decide (b ∈ trail s.index.pprev n c))
    = s.failedValid := by
    funext b
    by_cases hm : b ∈ trail s.index.pprev n c
    · simp [hm, marked b hm]
    · simp [hm]
  refine ⟨t :: trail s.index.pprev n c, bestInvalid, ?_, forall_mem_cons.mpr ⟨hf, marked⟩, ?_⟩
  · cases n with
    | zero =>
      cases hs
      exact .head _
    | succ n => exact .tail _ (.head _)
  · simp only [dropChain, hf, if_true, count, noted, markFailed, eraseCandidates, same]

end

section
variable (connects : BlockId → Bool)

/-- Every usable block that ranks at least as high as the valid block `low` is a candidate. -/
structure Low (s₀ s : Chainstate) (low : BlockId) : Prop where
  member : low ∈ s.index.ids
  linked : s.chainTxCount low ≠ 0
  valid : ∀ a, s.index.Above a low → connects a = true ∧ s₀.failedValid a = false
  high : s.rank s₀.tip ≤ s.rank low
  complete : ∀ b ∈ s.index.ids, s.chainTxCount b ≠ 0 → s.failedValid b = false →
    s.rank low ≤ s.rank b → b ∈ s.setBlockIndexCandidates

/-- What holds during a call that started from `s₀`. -/
structure Act (s₀ s : Chainstate) : Prop where
  frame : s₀.Frame s
  tip : s.tip ∈ s.index.ids
  active : ∀ a, s.index.Above a s.tip → connects a = true ∧ s.failedValid a = false
  tipLinked : s.chainTxCount s.tip ≠ 0
  linked : ∀ b ∈ s.index.ids, s.chainTxCount b ≠ 0 → ∀ a, s.index.Above a b →
    s.haveData a = true ∧ s.chainTxCount a ≠ 0
  failed : ∀ a b, b ∈ s.index.ids → s.index.Above a b → s.failedValid a = true →
    s.failedValid b = true
  grows : ∀ b, s₀.failedValid b = true → s.failedValid b = true
  marked : ∀ b, s.failedValid b = true →
    s₀.failedValid b = true ∨ ∃ a, s.index.Above a b ∧ connects a = false
  candidates : ∀ c ∈ s.setBlockIndexCandidates, c ∈ s.index.ids ∧ s.chainTxCount c ≠ 0
  low : ∃ low, Low connects s₀ s low

variable {connects} {s₀ s s' : Chainstate}

variable (act : Act connects s₀ s) {b : BlockId}
include act

/-- A valid block is not marked by the moves. -/
lemma Act.unmarked (hv : ∀ a, s.index.Above a b → connects a = true ∧ s₀.failedValid a = false) :
  s.failedValid b = false := by
  rw [← not_eq_true]
  intro hm
  rcases act.marked b hm with old | ⟨a, ha, refused⟩
  · rw [(hv b (.refl b)).2] at old
    cases old
  · rw [(hv a ha).1] at refused
    cases refused

lemma Act.unmarked_before (hu : s.failedValid b = false) : s₀.failedValid b = false := by
  rw [← not_eq_true] at hu ⊢
  exact fun old => hu (act.grows b old)

lemma Act.low_candidate {low : BlockId} (hl : Low connects s₀ s low) :
  low ∈ s.setBlockIndexCandidates :=
  hl.complete low hl.member hl.linked (act.unmarked hl.valid) (le_refl _)

lemma Act.drop {c t : BlockId} (hc : c ∈ s.setBlockIndexCandidates) (ha : s.index.Above t c)
  (hf : s.failedValid t = true) :
  Act connects s₀ (s.dropChain c t) ∧ (s.dropChain c t).tip = s.tip ∧
    (s.dropChain c t).failedValid = s.failedValid ∧
    (s.dropChain c t).setBlockIndexCandidates.length < s.setBlockIndexCandidates.length := by
  obtain ⟨dropped, bestInvalid, own, already, dropping⟩ := dropChain_eq ha hf
    fun b hab hac => act.failed t b (hac.mem (act.candidates c hc).1) hab hf
  rw [dropping]
  obtain ⟨low, hl⟩ := act.low
  refine ⟨{ act with
    frame := { act.frame with }
    candidates := fun b hm => act.candidates b (mem_of_mem_filter hm)
    low := ⟨low, { hl with complete := ?_ }⟩ }, rfl, rfl, ?_⟩
  · intro b hi hli hu hh
    refine mem_filter.mpr ⟨hl.complete b hi hli hu hh, ?_⟩
    simp only [decide_eq_true_eq]
    intro hm
    rw [already b hm] at hu
    cases hu
  · refine length_filter_lt_length_iff_exists.mpr ⟨c, hc, ?_⟩
    simp [own]

lemma Act.disconnect {p : BlockId}
  (edge : s.index.pprev s.tip = some p) : Act connects s₀ { s with tip := p } := by
  have above : s.index.Above p s.tip := .of_parent edge
  obtain ⟨low, hl⟩ := act.low
  exact { act with
    frame := { act.frame with }
    tip := above.mem act.tip
    active := fun a hap => act.active a (trans hap above)
    tipLinked := (act.linked s.tip act.tip act.tipLinked p above).2
    low := ⟨low, { hl with }⟩ }

/-- The tip moved to a connected block, and the worse candidates pruned. -/
lemma Act.connect (edge : s.index.pprev b = some s.tip) (hc : connects b = true)
  (hu : s.failedValid b = false) (hli : s.chainTxCount b ≠ 0)
  (hp : pruneBlockIndexCandidates { s.raiseValidity b .scripts with tip := b } = .ok s') :
  Act connects s₀ s' := by
  obtain ⟨hv, rfl⟩ := connect_eq hp
  have inIndex := mem_of_parent edge
  have path : ∀ a, s.index.Above a b → connects a = true ∧ s.failedValid a = false := by
    intro a ha
    rcases above_cases ha edge with rfl | ha
    · exact ⟨hc, hu⟩
    · exact act.active a ha
  have kept : ∀ c, c ∈ s.setBlockIndexCandidates → s.rank b ≤ s.rank c →
    c ∈ s.setBlockIndexCandidates.filter fun c => !s.workLess c b := by
    intro c hm hh
    refine mem_filter.mpr ⟨hm, ?_⟩
    rw [(s.workLess_follows).eq_false.mpr hh]
    rfl
  refine { act with
    frame := { act.frame with }
    tip := inIndex
    active := path
    tipLinked := hli
    candidates := fun c hm => act.candidates c (mem_of_mem_filter hm)
    low := ?_ }
  obtain ⟨low, hl⟩ := act.low
  -- the better one of the old bound and the new tip
  rcases le_total (s.rank b) (s.rank low) with below | ha
  · refine ⟨low, { hl with complete := ?_ }⟩
    intro c hci hcl cUnmarked hh
    exact kept c (hl.complete c hci hcl cUnmarked hh) (below.trans hh)
  refine ⟨b, inIndex, hli, ?_, hl.high.trans ha, ?_⟩
  · intro a hab
    obtain ⟨hc, hu⟩ := path a hab
    exact ⟨hc, act.unmarked_before hu⟩
  · intro c hci hcl cUnmarked hh
    exact kept c (hl.complete c hci hcl cUnmarked (ha.trans hh)) hh

lemma Act.fail {front : BlockId} (edge : s.index.pprev b = some s.tip) (hr : connects b = false)
  (ha : s.index.Above b front) : Act connects s₀ ((s.invalidBlockFound b).invalidChainFound front) ∧
    ∀ c, ((s.invalidBlockFound b).invalidChainFound front).failedValid c = true ↔
      s.failedValid c = true ∨ (c ∈ s.index.ids ∧ s.index.Above b c) := by
  have inIndex := mem_of_parent edge
  obtain ⟨failed, header, invalid, found, hf⟩ := s.invalidBlockFound_eq b
  rw [found]
  obtain ⟨failed', header', invalid', found', hf'⟩ := invalidChainFound_eq _ front
  rw [found']
  have marks : ∀ c, failed' c = true ↔
    s.failedValid c = true ∨ (c ∈ s.index.ids ∧ s.index.Above b c) := by
    intro c
    rw [hf', hf]
    constructor
    · rintro ((old | rfl | below) | ⟨hci, -, below⟩)
      · exact .inl old
      · exact .inr ⟨inIndex, .refl c⟩
      · exact .inr below
      · exact .inr ⟨hci, trans ha below⟩
    · rintro (old | below)
      · exact .inl (.inl old)
      · exact .inl (.inr (.inr below))
  obtain ⟨low, hl⟩ := act.low
  refine ⟨{ act with
    frame := { act.frame with }
    active := ?_
    failed := ?_
    grows := fun c old => (marks c).mpr (.inl (act.grows c old))
    marked := ?_
    candidates := fun c hm => act.candidates c (mem_of_mem_filter hm)
    low := ⟨low, { hl with complete := ?_ }⟩ }, marks⟩
  · intro a hat
    obtain ⟨hc, hu⟩ := act.active a hat
    refine ⟨hc, ?_⟩
    rw [← not_eq_true, marks]
    rintro (old | ⟨-, below⟩)
    · rw [hu] at old
      cases old
    · exact not_above_parent edge (trans below hat)
  · intro a c hci hac hm
    rw [marks] at hm ⊢
    rcases hm with old | ⟨-, below⟩
    · exact .inl (act.failed a c hci hac old)
    · exact .inr ⟨hci, trans below hac⟩
  · intro c hm
    rcases (marks c).mp hm with old | ⟨-, below⟩
    · exact act.marked c old
    · exact .inr ⟨b, below, hr⟩
  · intro c hci hcl hu hh
    rw [← not_eq_true, marks, not_or] at hu
    refine mem_filter.mpr ⟨hl.complete c hci hcl (not_eq_true _ ▸ hu.1) hh, ?_⟩
    simp only [mem_singleton, decide_eq_true_eq]
    rintro rfl
    exact hu.2 ⟨inIndex, .refl c⟩

end

section
variable {connects : BlockId → Bool} {s₀ s s' : Chainstate} {m : BlockId} {b front oldTip : BlockId}
  {rest : List BlockId} {fuel : ℕ}

/-- The best candidate, on an unmarked path. -/
structure Target (s : Chainstate) (m : BlockId) : Prop where
  candidate : m ∈ s.setBlockIndexCandidates
  greatest : ∀ c ∈ s.setBlockIndexCandidates, s.rank c ≤ s.rank m
  unmarked : ∀ a, s.index.Above a m → s.failedValid a = false

lemma Target.rank_le (ht : Target s m) (act : Act connects s₀ s)
  (hm : b ∈ s.index.ids) (hli : s.chainTxCount b ≠ 0) (hu : s.failedValid b = false) :
  s.rank b ≤ s.rank m := by
  obtain ⟨low, hl⟩ := act.low
  have lowest := ht.greatest low (act.low_candidate hl)
  rcases le_total (s.rank low) (s.rank b) with hh | below
  · exact ht.greatest b (hl.complete b hm hli hu hh)
  · exact below.trans lowest

lemma firstUnusable_yields (act : Act connects s₀ s) {c : BlockId}
  (hme : c ∈ s.index.ids) (hl : s.chainTxCount c ≠ 0) (he : s.index.nHeight c < fuel) :
  Yields (s.firstUnusable fuel c) fun found =>
    (found = none → ∀ a, s.index.Above a c → s.failedValid a = false) ∧
      ∀ t, found = some t → s.index.Above t c ∧ s.failedValid t = true := by
  induction fuel generalizing c with
  | zero => omega
  | succ fuel ih =>
    have data := (act.linked c hme hl c (.refl c)).1
    cases onChain : s.contains c with
    | true =>
      refine ⟨none, by simp [firstUnusable, onChain], ?_, nofun⟩
      intro _ a above
      exact (act.active a (trans above (contains_iff.mp onChain))).2
    | false =>
      have counted : s.haveNumChainTxs c = true := by simpa [haveNumChainTxs] using hl
      cases failed : s.failedValid c with
      | true =>
        refine ⟨some c, by simp [firstUnusable, onChain, counted, failed], nofun, ?_⟩
        rintro t ⟨⟩
        exact ⟨.refl c, failed⟩
      | false =>
        cases edge : s.index.pprev c with
        | none =>
          refine ⟨none, by simp [firstUnusable, onChain, counted, failed, data, edge], ?_, nofun⟩
          intro _ a above
          rcases eq_or_above above with rfl | ⟨p, edge', -⟩
          · exact failed
          · rw [edge] at edge'
            cases edge'
        | some p =>
          have above : s.index.Above p c := .of_parent edge
          have heights := s.index.graded c p edge
          obtain ⟨found, result, hc, hd⟩ := ih (above.mem hme)
            (act.linked c hme hl p above).2 (by omega)
          refine ⟨found, ?_, ?_, ?_⟩
          · simpa [firstUnusable, onChain, counted, failed, data, edge] using result
          · intro isNone a hac
            rcases above_cases hac edge with rfl | hap
            · exact failed
            · exact hc isNone a hap
          · intro t isFound
            obtain ⟨hap, hm⟩ := hd t isFound
            exact ⟨trans hap above, hm⟩

lemma findMostWork_yields (act : Act connects s₀ s) (he : s.setBlockIndexCandidates.length < fuel) :
  Yields (findMostWork fuel s) fun found => Moves connects s found.2 ∧ Act connects s₀ found.2 ∧
    found.2.tip = s.tip ∧ found.2.failedValid = s.failedValid ∧
    ∃ m, found.1 = some m ∧ Target found.2 m := by
  induction fuel generalizing s with
  | zero => omega
  | succ fuel ih =>
    cases best : greatest s.workLess s.setBlockIndexCandidates with
    | none =>
      obtain ⟨low, hlo⟩ := act.low
      have candidate := act.low_candidate hlo
      rw [greatest_eq_none best] at candidate
      cases candidate
    | some c =>
      obtain ⟨candidate, largest⟩ := greatest_spec s.workLess_follows best
      obtain ⟨hm, hli⟩ := act.candidates c candidate
      obtain ⟨found, result, hc, hd⟩ := firstUnusable_yields act hm hli (Nat.lt_succ_self _)
      cases found with
      | none =>
        refine ⟨(some c, s), ?_, .refl, act, rfl, rfl, c, rfl, candidate, largest, hc rfl⟩
        simp only [findMostWork, best, result]
        rfl
      | some t =>
        obtain ⟨ha, hf⟩ := hd t rfl
        obtain ⟨next, tip, flags, fewer⟩ := act.drop candidate ha hf
        obtain ⟨last, hr, hmo, hl, tip', flags', target⟩ := ih next (by omega)
        refine ⟨last, ?_, .head (.drop s c t candidate ha hf) hmo, hl, tip'.trans tip,
          flags'.trans flags, target⟩
        simp only [findMostWork, best, result]
        exact hr

lemma forkFrom_eq (tip : s.tip ∈ s.index.ids) (hm : b ∈ s.index.ids)
  (he : s.index.nHeight b < fuel) :
  ∃ f, forkFrom s fuel b = some f ∧ s.index.Above f b ∧ s.index.Above f s.tip := by
  induction fuel generalizing b with
  | zero => omega
  | succ fuel ih =>
    cases onChain : s.contains b with
    | true =>
      exact ⟨b, by simp [forkFrom, onChain], .refl b, contains_iff.mp onChain⟩
    | false =>
      rcases s.index.rooted b hm with ⟨-, -, rfl⟩ | ⟨p, hi, edge, heights⟩
      · have genesis := contains_iff.mpr (genesis_above tip)
        rw [onChain] at genesis
        cases genesis
      · obtain ⟨f, hf, ha, hat⟩ := ih hi (by omega)
        exact ⟨f, by simp [forkFrom, onChain, edge, hf], .step edge ha, hat⟩

lemma findFork_eq (tip : s.tip ∈ s.index.ids) (hm : m ∈ s.index.ids) :
  ∃ f, findFork s m = some f ∧ s.index.Above f m ∧ s.index.Above f s.tip := by
  by_cases hh : s.index.nHeight m > s.index.nHeight s.tip
  · obtain ⟨a, found, -, ha, -⟩ := getAncestor_between s.index.graded
      (genesis_above hm) (h := s.index.nHeight s.tip)
      (height_le s.index.graded (genesis_above tip)) hh.le
    obtain ⟨f, isFork, aboveA, hat⟩ := forkFrom_eq tip (BlockMap.Above.mem ha hm)
      (Nat.lt_succ_self _)
    refine ⟨f, ?_, trans aboveA ha, hat⟩
    have found : s.index.getAncestor m (s.index.nHeight s.tip) = some a := found
    simp [findFork, hh, found, isFork]
  · obtain ⟨f, isFork, ham, hat⟩ := forkFrom_eq tip hm (Nat.lt_succ_self _)
    exact ⟨f, by simp [findFork, hh, isFork], ham, hat⟩

lemma disconnectTo_yields (fuel : ℕ) {f : BlockId} (act : Act connects s₀ s)
  (ha : s.index.Above f s.tip) (he : s.index.nHeight s.tip ≤ s.index.nHeight f + fuel) :
  Yields (disconnectTo f fuel s) fun s' =>
    Moves connects s s' ∧ Act connects s₀ s' ∧ s' = { s with tip := f } := by
  induction fuel generalizing s with
  | zero =>
    have lower := height_le s.index.graded ha
    obtain rfl : f = s.tip := eq_of_height s.index.graded ha (.refl _) (by omega)
    exact ⟨s, by simp [disconnectTo], .refl, act, rfl⟩
  | succ fuel ih =>
    by_cases hh : s.tip = f
    · subst hh
      exact ⟨s, by simp [disconnectTo], .refl, act, rfl⟩
    rcases eq_or_above ha with hs | ⟨p, edge, hap⟩
    · exact absurd hs.symm hh
    have heights := s.index.graded s.tip p edge
    obtain ⟨s', result, hm, act', rfl⟩ := ih (s := { s with tip := p })
      (act.disconnect edge) hap (by dsimp only; omega)
    refine ⟨_, ?_, .head (.disconnect s p edge) hm, act', rfl⟩
    simp only [disconnectTo, hh, if_false, disconnectTip, edge]
    exact result

/-- Marks are only added, and one is new. -/
def NewMark (s s' : Chainstate) : Prop :=
  (∀ b, s.failedValid b = true → s'.failedValid b = true) ∧
    ∃ b ∈ s.index.ids, s.failedValid b = false ∧ s'.failedValid b = true

section
variable (ht : Target s m) (act : Act connects s₀ s) (ha : s.index.Above b m)
include ht act ha

/-- The target stays the best candidate when a block on its path is connected. -/
lemma Target.connect (validity : BlockId → Validity) : Target (connectedTo s b validity) m := by
  obtain ⟨hm, hl⟩ := act.candidates m ht.candidate
  have below := ht.rank_le act (ha.mem hm) (act.linked m hm hl b ha).2 (ht.unmarked b ha)
  constructor
  · refine mem_filter.mpr ⟨ht.candidate, ?_⟩
    rw [(s.workLess_follows).eq_false.mpr below]
    rfl
  · intro c isCandidate
    exact ht.greatest c (mem_of_mem_filter isCandidate)
  · exact ht.unmarked

/-- Connecting and pruning succeeds: the target is never pruned. -/
lemma connect_yields :
  ∃ validity, pruneBlockIndexCandidates { s.raiseValidity b .scripts with tip := b }
    = .ok (connectedTo s b validity) := by
  obtain ⟨validity, raised⟩ := raiseValidity_eq s b .scripts
  have kept := (ht.connect act ha validity).candidate
  refine ⟨validity, ?_⟩
  rw [raised]
  unfold pruneBlockIndexCandidates
  dsimp only at kept ⊢
  rw [if_neg]
  · rfl
  intro empty
  rw [List.isEmpty_iff] at empty
  have kept := empty ▸ kept
  cases kept

end

lemma connectBlocks_connected (edge : s.index.pprev b = some s.tip) (hc : connects b = true)
  (hp : pruneBlockIndexCandidates { s.raiseValidity b .scripts with tip := b } = .ok s') :
  connectBlocks connects oldTip front (b :: rest) s
    = if s'.index.nChainWork s'.tip > s'.index.nChainWork oldTip then .ok (.stop, s')
      else connectBlocks connects oldTip front rest s' := by
  have tip : connectTip connects s b
    = .ok (true, { s.raiseValidity b .scripts with tip := b }) := by
    simp [connectTip, edge, hc]
  rw [connectBlocks, tip]
  change (pruneBlockIndexCandidates { s.raiseValidity b .scripts with tip := b } >>= _) = _
  rw [hp]
  rfl

lemma connectBlocks_refused (edge : s.index.pprev b = some s.tip) (hr : connects b = false) :
  connectBlocks connects oldTip front (b :: rest) s
    = .ok (.invalidFound, (s.invalidBlockFound b).invalidChainFound front) := by
  have tip : connectTip connects s b = .ok (false, s.invalidBlockFound b) := by
    simp [connectTip, edge, hr]
  rw [connectBlocks, tip]
  rfl

lemma connectBlocks_yields (oldTip front : BlockId) {blocks : List BlockId}
  (ht : Target s m) (act : Act connects s₀ s) (path : Path s.index.pprev s.tip blocks)
  (below : ∀ b ∈ blocks, s.index.Above b m ∧ s.index.Above b front) :
  Yields (connectBlocks connects oldTip front blocks s) fun reached =>
    Moves connects s reached.2 ∧ Act connects s₀ reached.2 ∧
    (reached.1 = .invalidFound → NewMark s reached.2) ∧
    (reached.1 ≠ .invalidFound → Target reached.2 m ∧ reached.2.failedValid = s.failedValid ∧
      (reached.1 = .goOn → reached.2.tip = endOf s.tip blocks) ∧
      (reached.1 = .stop → s.index.nChainWork oldTip < s.index.nChainWork reached.2.tip)) := by
  induction blocks generalizing s with
  | nil =>
    exact ⟨(.goOn, s), rfl, .refl, act, nofun, fun _ => ⟨ht, rfl, fun _ => rfl, nofun⟩⟩
  | cons b rest ih =>
    obtain ⟨edge, hla⟩ := path
    obtain ⟨ham, aboveFront⟩ := below b (.head _)
    cases connected : connects b with
    | true =>
      have unmarked := ht.unmarked b ham
      obtain ⟨hme, hl⟩ := act.candidates m ht.candidate
      have bLinked := (act.linked m hme hl b ham).2
      obtain ⟨hv, pruned⟩ := connect_yields ht act ham
      have act' := act.connect edge connected unmarked bLinked pruned
      have target' := ht.connect act ham hv
      have move : Move connects s _ := .connect s _ b edge connected unmarked bLinked pruned
      by_cases hb : s.index.nChainWork b > s.index.nChainWork oldTip
      · refine ⟨(.stop, _), ?_, .single move, act', nofun,
          fun _ => ⟨target', rfl, nofun, fun _ => hb⟩⟩
        rw [connectBlocks_connected edge connected pruned]
        exact if_pos hb
      · obtain ⟨reached, result, hmo, last, hf, goes⟩ := ih target' act' hla
          fun c hr => below c (.tail _ hr)
        refine ⟨reached, ?_, .head move hmo, last, hf, goes⟩
        rw [connectBlocks_connected edge connected pruned]
        exact (if_neg hb).trans result
    | false =>
      obtain ⟨act', hm⟩ := act.fail edge connected aboveFront
      refine ⟨_, connectBlocks_refused edge connected,
        .single (.fail s b front edge connected aboveFront), act', fun _ => ?_,
        fun h => absurd rfl h⟩
      exact ⟨fun c old => (hm c).mpr (.inl old), b, mem_of_parent edge,
        ht.unmarked b ham, (hm b).mpr (.inr ⟨mem_of_parent edge, .refl b⟩)⟩

lemma connectHeights_yields (oldTip : BlockId) (fuel nHeight : ℕ) (hta : Target s m)
  (act : Act connects s₀ s) (ha : s.index.Above s.tip m)
  (height : s.index.nHeight s.tip = nHeight) (he : s.index.nHeight m < nHeight + fuel) :
  Yields (connectHeights connects oldTip m fuel nHeight s) fun reached =>
    Moves connects s reached.2 ∧ Act connects s₀ reached.2 ∧
    (reached.1 = .invalidFound → NewMark s reached.2) ∧
    (reached.1 ≠ .invalidFound → Target reached.2 m ∧ reached.2.failedValid = s.failedValid ∧
      (reached.2.tip = m ∨ s.index.nChainWork oldTip < s.index.nChainWork reached.2.tip)) := by
  have lower := height_le s.index.graded ha
  induction fuel generalizing s nHeight with
  | zero => omega
  | succ fuel ih =>
    by_cases hd : nHeight = s.index.nHeight m
    · have same : s.tip = m := eq_of_height s.index.graded ha (.refl m) (by omega)
      exact ⟨(.stop, s), by simp [connectHeights, hd], .refl, act, nofun,
        fun _ => ⟨hta, rfl, .inl same⟩⟩
    have next : nHeight < min (nHeight + 32) (s.index.nHeight m) := by omega
    generalize ht : min (nHeight + 32) (s.index.nHeight m) = nTargetHeight at next
    obtain ⟨front, found, frontHeight, ham, hb⟩ := getAncestor_between s.index.graded ha
      (h := nTargetHeight) (by omega) (by omega)
    have found : s.index.getAncestor m nTargetHeight = some front := found
    have aboveFront := hb s.tip ha (by omega)
    have steps := up_eq s.index.graded aboveFront
    rw [height, frontHeight] at steps
    obtain ⟨path, last⟩ := path_trail steps
    have below : ∀ b ∈ blocksToConnect s nHeight front,
      s.index.Above b m ∧ s.index.Above b front := by
      intro b hm
      rw [blocksToConnect, mem_reverse, frontHeight] at hm
      obtain ⟨-, hab⟩ := height_lt_of_mem_trail s.index.graded steps hm
      exact ⟨trans hab ham, hab⟩
    rw [← frontHeight] at path last
    obtain ⟨⟨hp, s₁⟩, result, hmo, act₁, invalid, hv⟩ :=
      connectBlocks_yields oldTip front hta act path below
    have result : connectBlocks connects oldTip front (blocksToConnect s nHeight front) s
      = .ok (hp, s₁) := result
    have same := act₁.frame.index.trans act.frame.index.symm
    have unfolded : connectHeights connects oldTip m (fuel + 1) nHeight s
      = if hp = .goOn then connectHeights connects oldTip m fuel nTargetHeight s₁
        else .ok (hp, s₁) := by
      simp only [connectHeights, hd, if_false, ht, found, result]
      rfl
    rw [unfolded]
    cases hp with
    | goOn =>
      obtain ⟨target₁, flags, tip, -⟩ := hv (by simp)
      have tip : s₁.tip = front := (tip rfl).trans last
      obtain ⟨reached, result₂, moves₂, act₂, invalid₂, valid₂⟩ := ih nTargetHeight target₁ act₁
        (by rw [same, tip]; exact ham) (by rw [same, tip, frontHeight])
        (by rw [same]; omega) (by rw [same, tip]; omega)
      refine ⟨reached, result₂, hmo.trans moves₂, act₂, ?_, ?_⟩
      · intro isInvalid
        obtain ⟨grows, b, hm, old, new⟩ := invalid₂ isInvalid
        rw [flags] at grows old
        rw [same] at hm
        exact ⟨grows, b, hm, old, new⟩
      · intro isValid
        obtain ⟨target₂, flags₂, reachedTip⟩ := valid₂ isValid
        rw [same] at reachedTip
        exact ⟨target₂, flags₂.trans flags, reachedTip⟩
    | stop =>
      obtain ⟨target₁, flags, -, grown⟩ := hv (by simp)
      exact ⟨(.stop, s₁), rfl, hmo, act₁, nofun, fun _ => ⟨target₁, flags, .inr (grown rfl)⟩⟩
    | invalidFound =>
      exact ⟨(.invalidFound, s₁), rfl, hmo, act₁, fun _ => invalid rfl, fun h => absurd rfl h⟩

/-- A step towards the target marks an invalid block, reaches the target or adds work to the
tip. -/
lemma activateBestChainStep_yields (ht : Target s m) (act : Act connects s₀ s) :
  Yields (activateBestChainStep connects s m) fun reached =>
    Moves connects s reached.2 ∧ Act connects s₀ reached.2 ∧
    (reached.1 = true → NewMark s reached.2) ∧
    (reached.1 = false → Target reached.2 m ∧ reached.2.failedValid = s.failedValid ∧
      (reached.2.tip = m ∨ s.index.nChainWork s.tip < s.index.nChainWork reached.2.tip)) := by
  obtain ⟨f, isFork, ham, hat⟩ := findFork_eq act.tip (act.candidates m ht.candidate).1
  obtain ⟨hd, result, hm, act₁, rfl⟩ := disconnectTo_yields
    (s.index.nHeight s.tip) act hat (by omega)
  obtain ⟨⟨hp, s₂⟩, result₂, moves₂, act₂, invalid, hv⟩ := connectHeights_yields
    s.tip (s.index.nHeight m + 1) (s.index.nHeight f) (s := { s with tip := f })
    ⟨ht.candidate, ht.greatest, ht.unmarked⟩ act₁ ham rfl (by dsimp only; omega)
  refine ⟨(hp = .invalidFound, s₂), ?_, hm.trans moves₂, act₂, ?_, ?_⟩
  · simp only [activateBestChainStep, isFork, result]
    change (connectHeights connects s.tip m (s.index.nHeight m + 1) (s.index.nHeight f)
      { s with tip := f } >>= _) = _
    rw [result₂]
    rfl
  · intro isInvalid
    exact invalid (by simpa using isInvalid)
  · simpa using hv

end

section
variable {connects : BlockId → Bool} {s₀ s s' : Chainstate} {m : BlockId} {p q : BlockId → Bool}
  {blocks : List BlockId}

lemma length_filter_le (sub : ∀ b ∈ blocks, p b = true → q b = true) :
  (blocks.filter p).length ≤ (blocks.filter q).length := by
  rw [← countP_eq_length_filter, ← countP_eq_length_filter]
  exact countP_mono_left sub

lemma length_filter_lt {b : BlockId} (sub : ∀ b ∈ blocks, p b = true → q b = true) (hm : b ∈ blocks)
  (yes : q b = true) (no : p b = false) : (blocks.filter p).length < (blocks.filter q).length := by
  have nested : blocks.filter p = (blocks.filter q).filter p := by
    rw [filter_filter]
    refine filter_congr fun b hm => ?_
    cases holds : p b with
    | true => simp [sub b hm holds]
    | false => simp
  rw [nested]
  refine length_filter_lt_length_iff_exists.mpr ⟨b, mem_filter.mpr ⟨hm, yes⟩, ?_⟩
  simp [no]

/-- The blocks with more work than the tip. -/
def ahead (s : Chainstate) : ℕ :=
  (s.index.ids.filter fun b => s.index.nChainWork s.tip < s.index.nChainWork b).length

/-- The unmarked blocks count more than any number of blocks ahead of the tip. -/
def remaining (s : Chainstate) : ℕ :=
  (s.index.ids.filter fun b => !s.failedValid b).length * (s.index.ids.length + 1) + ahead s

/-- What is left to do, with one more round until the target is reached. -/
def todo (s : Chainstate) (target : Option BlockId) : ℕ :=
  2 * remaining s + if target = some s.tip then 0 else 1

lemma ahead_le (s : Chainstate) : ahead s ≤ s.index.ids.length := List.length_filter_le _ _

lemma remaining_newMark (hma : NewMark s s') (hs : s'.index = s.index) :
  remaining s' < remaining s := by
  obtain ⟨grows, b, hme, old, new⟩ := hma
  have fewer : (s.index.ids.filter fun b => !s'.failedValid b).length
    < (s.index.ids.filter fun b => !s.failedValid b).length := by
    refine length_filter_lt ?_ hme (by simp [old]) (by simp [new])
    intro c _ hu
    simp only [Bool.not_eq_true', ← not_eq_true] at hu ⊢
    exact fun hm => hu (grows c hm)
  have bound := ahead_le s'
  unfold remaining
  rw [hs] at bound ⊢
  have product : ((s.index.ids.filter fun b => !s'.failedValid b).length + 1)
    * (s.index.ids.length + 1) ≤ (s.index.ids.filter fun b => !s.failedValid b).length
    * (s.index.ids.length + 1) := Nat.mul_le_mul_right _ fewer
  rw [add_mul, one_mul] at product
  omega

section
variable (hs : s'.index = s.index) (hf : s'.failedValid = s.failedValid)
include hs hf

lemma remaining_le
  (work : s.index.nChainWork s.tip ≤ s.index.nChainWork s'.tip) : remaining s' ≤ remaining s := by
  have fewer : ahead s' ≤ ahead s := by
    unfold ahead
    rw [hs]
    refine length_filter_le fun b _ more => ?_
    simp only [decide_eq_true_eq] at more ⊢
    omega
  unfold remaining
  rw [hs, hf]
  omega

lemma remaining_lt (hm : s'.tip ∈ s.index.ids)
  (work : s.index.nChainWork s.tip < s.index.nChainWork s'.tip) : remaining s' < remaining s := by
  have fewer : ahead s' < ahead s := by
    unfold ahead
    rw [hs]
    refine length_filter_lt ?_ hm (by simpa using work) (by simp)
    intro b _ more
    simp only [decide_eq_true_eq] at more ⊢
    omega
  unfold remaining
  rw [hs, hf]
  omega

end

lemma todo_lt_rounds (s : Chainstate) : todo s none < rounds s := by
  have bound := ahead_le s
  have unmarked : (s.index.ids.filter fun b => !s.failedValid b).length ≤ s.index.ids.length :=
    List.length_filter_le _ _
  have product := Nat.mul_le_mul_right (s.index.ids.length + 1) unmarked
  have square : 2 * (s.index.ids.length + 1) * (s.index.ids.length + 1)
    = 2 * (s.index.ids.length * (s.index.ids.length + 1)) + 2 * (s.index.ids.length + 1) := by
    rw [mul_assoc, add_mul, one_mul, mul_add]
  unfold todo remaining rounds
  rw [square]
  simp only [reduceCtorEq, if_false]
  omega

lemma todo_step (reached : Bool × Chainstate) (ht : Target s m) (act : Act connects s₀ s)
  (ha : m ≠ s.tip) (act' : Act connects s₀ reached.2) (hi : reached.1 = true → NewMark s reached.2)
  (hv : reached.1 = false → Target reached.2 m ∧ reached.2.failedValid = s.failedValid ∧
    (reached.2.tip = m ∨ s.index.nChainWork s.tip < s.index.nChainWork reached.2.tip)) :
  todo reached.2 (if reached.1 then none else some m) < todo s (some m) := by
  have same := act'.frame.index.trans act.frame.index.symm
  have before : todo s (some m) = 2 * remaining s + 1 := by simp [todo, ha]
  rw [before]
  cases found : reached.1 with
  | true =>
    have fewer := remaining_newMark (hi found) same
    simp only [todo, if_true, reduceCtorEq, if_false]
    omega
  | false =>
    obtain ⟨-, flags, tip | work⟩ := hv found
    · have bound : s.index.nChainWork s.tip ≤ s.index.nChainWork reached.2.tip := by
        rw [tip]
        exact work_le_of_rank_le (ht.rank_le act act.tip act.tipLinked (act.active _ (.refl _)).2)
      have fewer := remaining_le same flags bound
      simp only [todo, tip, Bool.false_eq_true, if_false, if_true]
      omega
    have member : reached.2.tip ∈ s.index.ids := by
      rw [← same]
      exact act'.tip
    have fewer := remaining_lt same flags member work
    simp only [todo, Bool.false_eq_true, if_false]
    split <;> omega

end

section
variable {connects : BlockId → Bool} {s₀ s : Chainstate} {b : BlockId} {fuel : ℕ}

/-- The target of a round: the one that is remembered, or the best candidate. -/
lemma chooseTarget_yields {at_ : Loop} (act : Act connects s₀ at_.state)
  (hta : ∀ m, at_.pindexMostWork = some m → Target at_.state m) :
  Yields at_.chooseTarget fun found => Moves connects at_.state found.2 ∧ Act connects s₀ found.2 ∧
    ∃ m, found.1 = some m ∧ Target found.2 m ∧
      todo found.2 (some m) ≤ todo at_.state at_.pindexMostWork := by
  unfold Loop.chooseTarget
  cases remembered : at_.pindexMostWork with
  | some m => exact ⟨(some m, at_.state), rfl, .refl, act, m, rfl, hta m remembered, le_refl _⟩
  | none =>
    obtain ⟨found, result, hm, act', tip, flags, m, isFound, ht⟩ :=
      findMostWork_yields act (Nat.lt_succ_self _)
    refine ⟨found, result, hm, act', m, isFound, ht, ?_⟩
    have same := act'.frame.index.trans act.frame.index.symm
    have less := remaining_le same flags (by rw [tip])
    simp only [todo, reduceCtorEq, if_false]
    split <;> omega

/-- The inner loop ends at the target, or after steps that left less to do. -/
lemma stepLoop_yields (startingTip : BlockId) (at_ : Loop) (act : Act connects s₀ at_.state)
  (hta : ∀ m, at_.pindexMostWork = some m → Target at_.state m)
  (he : todo at_.state at_.pindexMostWork < fuel) :
  Yields (stepLoop connects startingTip fuel at_) fun reached =>
    Moves connects at_.state reached.state ∧ Act connects s₀ reached.state ∧
    (∀ m, reached.pindexMostWork = some m → Target reached.state m) ∧
    (reached.pindexMostWork = some reached.state.tip ∨ (reached.blocksConnected = true ∧
      todo reached.state reached.pindexMostWork < todo at_.state at_.pindexMostWork)) := by
  induction fuel generalizing at_ with
  | zero => omega
  | succ fuel ih =>
    obtain ⟨⟨_, s₁⟩, hfo, moves₁, act₁, m, rfl, target₁, less₁⟩ := chooseTarget_yields act hta
    by_cases hh : m = s₁.tip
    · refine ⟨⟨s₁, some m, at_.blocksConnected⟩, ?_, moves₁, act₁, ?_, .inl (by rw [hh])⟩
      · rw [stepLoop, hfo]
        exact if_pos hh
      · rintro m' ht
        cases ht
        exact target₁
    obtain ⟨⟨hif, s₂⟩, result, moves₂, act₂, invalid, hv⟩ :=
      activateBestChainStep_yields target₁ act₁
    have less₂ := todo_step (hif, s₂) target₁ act₁ hh act₂ invalid hv
    dsimp only at less₁ less₂ invalid hv
    have nextTarget : ∀ m', (if hif then none else some m) = some m' → Target s₂ m' := by
      intro m' ht
      cases hif with
      | true => cases ht
      | false =>
        cases ht
        exact (hv rfl).1
    have unfolded : stepLoop connects startingTip (fuel + 1) at_
      = if s₂.workLess s₂.tip startingTip then
          stepLoop connects startingTip fuel ⟨s₂, if hif then none else some m, true⟩
        else .ok ⟨s₂, if hif then none else some m, true⟩ := by
      rw [stepLoop, hfo]
      change (if m = s₁.tip then _ else (activateBestChainStep connects s₁ m >>= _)) = _
      rw [if_neg hh, result]
      rfl
    rw [unfolded]
    split
    · obtain ⟨reached, result₃, moves₃, act₃, target₃, hf⟩ :=
        ih ⟨s₂, if hif then none else some m, true⟩ act₂ nextTarget (by dsimp only; omega)
      refine ⟨reached, result₃, (moves₁.trans moves₂).trans moves₃, act₃, target₃, ?_⟩
      rcases hf with hf | ⟨hc, less₃⟩
      · exact .inl hf
      · exact .inr ⟨hc, by dsimp only at less₃; omega⟩
    · exact ⟨_, rfl, moves₁.trans moves₂, act₂, nextTarget, .inr ⟨rfl, by dsimp only; omega⟩⟩

/-- The outer loop ends with the target as the tip. -/
lemma activateLoop_yields {pindexMostWork : Option BlockId} (act : Act connects s₀ s)
  (ht : ∀ m, pindexMostWork = some m → Target s m) (he : todo s pindexMostWork < fuel) :
  Yields (activateLoop connects fuel s pindexMostWork) fun s' =>
    Moves connects s s' ∧ Act connects s₀ s' ∧ Target s' s'.tip := by
  induction fuel generalizing s pindexMostWork with
  | zero => omega
  | succ fuel ih =>
    obtain ⟨hr, result, hm, act₁, target₁, hf⟩ := stepLoop_yields s.tip
      ⟨s, pindexMostWork, false⟩ act ht he
    have unfolded : activateLoop connects (fuel + 1) s pindexMostWork
      = if !hr.blocksConnected || hr.pindexMostWork == some hr.state.tip then .ok hr.state
        else activateLoop connects fuel hr.state hr.pindexMostWork := by
      simp only [activateLoop, result]
      rfl
    rw [unfolded]
    rcases hf with hf | ⟨hc, less⟩
    · refine ⟨hr.state, ?_, hm, act₁, target₁ _ hf⟩
      simp [hf]
    by_cases arrived : hr.pindexMostWork = some hr.state.tip
    · refine ⟨hr.state, ?_, hm, act₁, target₁ _ arrived⟩
      simp [arrived]
    · obtain ⟨s', result₂, moves₂, act₂, target₂⟩ := ih act₁ target₁ (by dsimp only at less; omega)
      refine ⟨s', ?_, hm.trans moves₂, act₂, target₂⟩
      simpa [hc, arrived] using result₂

lemma Checked.counted (hc : Checked s) (hv : Valid connects s b) : s.chainTxCount b ≠ 0 := by
  refine (hc.linked b hv.1).mpr fun a ha => ?_
  exact (hc.data a (ha.mem hv.1)).mp (hv.2 a ha).1

lemma Checked.act (hc : Checked s) (hac : Valid connects s s.tip) : Act connects s s := by
  obtain ⟨hm, path⟩ := hac
  have linked : ∀ b ∈ s.index.ids, s.chainTxCount b ≠ 0 → ∀ a, s.index.Above a b →
    s.haveData a = true ∧ s.chainTxCount a ≠ 0 := by
    intro b hi counted a ha
    have received := (hc.linked b hi).mp counted
    have aIndex := ha.mem hi
    refine ⟨(hc.data a aIndex).mpr (received a ha), (hc.linked a aIndex).mpr ?_⟩
    intro a' ha'
    exact received a' (trans ha' ha)
  have counted := hc.counted ⟨hm, path⟩
  constructor
  · exact .refl s
  · exact hm
  · intro a ha
    exact ⟨(path a ha).2.2, (path a ha).2.1⟩
  · exact counted
  · exact linked
  · exact hc.failed
  · exact fun _ old => old
  · exact fun _ old => .inl old
  · intro c candidate
    obtain ⟨hi, -, linked⟩ := hc.sound c candidate
    exact ⟨hi, linked⟩
  · refine ⟨s.tip, hm, counted, ?_, le_refl _, ?_⟩
    · intro a ha
      exact ⟨(path a ha).2.2, (path a ha).2.1⟩
    · intro b hi linked hu hh
      exact hc.complete b hi (s.workLess_follows.eq_false.mpr hh) linked hu

lemma Act.valid_iff {s' : Chainstate} (act : Act connects s s') (b : BlockId) :
  Valid connects s' b ↔ Valid connects s b := by
  unfold Valid
  rw [act.frame.index, act.frame.haveData]
  constructor
  · rintro ⟨hm, path⟩
    refine ⟨hm, fun a ha => ?_⟩
    obtain ⟨data, hu, hc⟩ := path a ha
    exact ⟨data, act.unmarked_before hu, hc⟩
  rintro ⟨hm, path⟩
  refine ⟨hm, fun a ha => ?_⟩
  obtain ⟨data, hu, hc⟩ := path a ha
  refine ⟨data, act.unmarked fun a' ha' => ?_, hc⟩
  rw [act.frame.index] at ha'
  obtain ⟨-, hu', hc'⟩ := path a' (trans ha' ha)
  exact ⟨hc', hu'⟩

lemma Act.tip_valid (act : Act connects s₀ s) : Valid connects s s.tip := by
  refine ⟨act.tip, fun a ha => ?_⟩
  obtain ⟨hc, hu⟩ := act.active a ha
  exact ⟨(act.linked s.tip act.tip act.tipLinked a ha).1, hu, hc⟩

/-- A tip that is the target ranks at least as high as every valid block. -/
lemma Act.tip_greatest (act : Act connects s₀ s) (hc : Checked s₀) (ht : Target s s.tip)
  (hv : Valid connects s b) : s.rank b ≤ s.rank s.tip := by
  have counted := hc.counted ((act.valid_iff b).mp hv)
  rw [← act.frame.chainTxCount] at counted
  exact ht.rank_le act hv.1 counted (hv.2 b (.refl b)).2.1

end

/-- Where the active chain is valid and the invariants of the block index hold, `ActivateBestChain`
ends without a failed assertion at the greatest of the valid blocks under
`CBlockIndexWorkComparator`, which is not worse than the tip before. The valid blocks and their
order do not change. -/
theorem activateBestChain_finds_most_work (connects : BlockId → Bool) (s : Chainstate)
  (checked : Checked s) (active : Valid connects s s.tip) (fuel : ℕ) (enough : rounds s ≤ fuel) :
  ∃ s', activateLoop connects fuel s none = .ok s' ∧ Valid connects s' s'.tip ∧
    (∀ b, Valid connects s' b → b ≠ s'.tip → s'.workLess b s'.tip = true) ∧
    s'.workLess s'.tip s.tip = false ∧
    (∀ b, Valid connects s' b ↔ Valid connects s b) ∧ s'.workLess = s.workLess := by
  have start := todo_lt_rounds s
  obtain ⟨s', result, -, act, target⟩ :=
    activateLoop_yields (checked.act active) (by simp) (start.trans_le enough)
  have greatest : ∀ b, Valid connects s' b → s'.rank b ≤ s'.rank s'.tip := by
    intro b hv
    exact act.tip_greatest checked target hv
  refine ⟨s', result, act.tip_valid, ?_, ?_, act.valid_iff, ?_⟩
  · intro b hv ha
    refine (s'.workLess_follows b s'.tip).mpr (lt_of_le_of_ne (greatest b hv) ?_)
    exact fun he => ha (s'.rank_injective he)
  · exact s'.workLess_follows.eq_false.mpr (greatest s.tip ((act.valid_iff s.tip).mpr active))
  · funext a b
    unfold workLess
    rw [act.frame.index, act.frame.nSequenceId]

/-- On genesis stand the active branch 1, 2, its fork 6 with more work, and the branch 3, 4, 5
with the most work. -/
def forkedTree : BlockMap where
  ids := [0, 1, 2, 3, 4, 5, 6]
  genesis := 0
  pprev b := [none, some 0, some 1, some 0, some 3, some 4, some 1].getD b none
  nHeight b := [0, 1, 2, 1, 2, 3, 2].getD b 0
  nChainWork b := [1, 2, 3, 2, 3, 5, 4].getD b 0
  nodup := by decide
  rooted := by decide
  outside b away := by
    match b with
    | 0 | 1 | 2 | 3 | 4 | 5 | 6 => simp at away
    | b + 7 => rfl

def forkedState : Chainstate where
  index := forkedTree
  nTx _ := 1
  chainTxCount b := forkedTree.nHeight b + 1
  validity _ := .transactions
  haveData _ := true
  failedValid _ := false
  nSequenceId b := b
  setBlockIndexCandidates := [2, 5, 6]
  blocksUnlinked := []
  tip := 2
  bestHeader := 5
  bestInvalid := none
  nBlockSequenceId := 7
  nBlockReverseSequenceId := -1
  nLastPreciousChainwork := 0

/-- Block 4 is refused after block 3 was connected; the tip becomes block 6. -/
theorem activateBestChain_leaves_refused_branch :
  ∃ s', activateLoop (· != 4) (rounds forkedState) forkedState none = .ok s' ∧ s'.tip = 6 ∧
    ∀ b, Valid (· != 4) s' b → b ≠ s'.tip → s'.workLess b s'.tip = true := by
  have checked : Checked forkedState := by
    constructor
    · intro b _
      simp [forkedState]
    · intro b _
      simp [forkedState]
    · intro a b _ _ hm
      cases hm
    · decide
    · decide
  have active : Valid (· != 4) forkedState forkedState.tip := by
    refine ⟨by decide, fun a ha => ⟨rfl, rfl, ?_⟩⟩
    rw [bne_iff_ne]
    rintro rfl
    have descends := descends_iff.mpr ha
    revert descends
    decide
  obtain ⟨s', result, -, greatest, -⟩ := activateBestChain_finds_most_work (· != 4) forkedState
    checked active (rounds forkedState) le_rfl
  have tip : (activateLoop (· != 4) (rounds forkedState) forkedState none).toOption.map
    Chainstate.tip = some 6 := by decide +kernel
  rw [result] at tip
  exact ⟨s', result, Option.some.inj tip, greatest⟩

end MostWork
