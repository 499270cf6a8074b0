import Andaluzcoin.TxOrphanageInvariant

/-!
# The limits of the orphanage

When the orphanage is above one of its global limits, some peer is above its own share: the shares
add up to no more than the limits. `LimitOrphans` therefore always finds a peer to take from, and
takes from none that is within its share.
-/

namespace TxOrphanage

open KeyedSum TxOrphanageImpl Relation List FeeFrac

variable {s s' start : TxOrphanageImpl} {a : Announcement} {maxLat : ℕ} {maxMem : ℤ}

section
variable {peer : NodeId}

/-- A peer uses more than its share. -/
def Exceeds (maxLat : ℕ) (maxMem : ℤ) (info : PeerDoSInfo) : Prop :=
  maxLat < info.totalLatencyScore ∨ maxMem < info.totalUsage

variable (hc : Consistent s)
include hc

lemma Consistent.lookup_isSome :
  (s.peerOrphanageInfo.lookup peer).isSome ↔ ∃ ann ∈ s.orphans, ann.announcer = peer := by
  rw [hc.peers, recomputed_isSome]

lemma Consistent.lookup_eq {info : PeerDoSInfo}
  (hf : s.peerOrphanageInfo.lookup peer = some info) : info = peerInfo s.orphans peer :=
  eq_peerInfo_of_recomputed ((hc.peers peer).symm.trans hf)

lemma Consistent.announcer_mem :
  ∀ ann ∈ s.orphans, ann.announcer ∈ s.peerOrphanageInfo.keys.toFinset := fun ann hm =>
  mem_toFinset.mpr (mem_keys_iff.mpr (hc.lookup_isSome.mpr ⟨ann, hm, rfl⟩))

lemma Consistent.usage_le : s.uniqueOrphanUsage
    ≤ ∑ peer ∈ s.peerOrphanageInfo.keys.toFinset, (peerInfo s.orphans peer).totalUsage := by
  change _ ≤ ∑ peer ∈ _, groupSum Announcement.announcer Announcement.getMemUsage s.orphans peer
  rw [hc.unique.usage, sum_groupSum _ _ hc.announcer_mem, transactions]
  refine (sum_toFinset_le (fun tx => Int.natCast_nonneg _) _).trans (le_of_eq ?_)
  rw [List.map_map]
  rfl

lemma Consistent.latency_le : s.totalLatencyScore
    ≤ ∑ peer ∈ s.peerOrphanageInfo.keys.toFinset, (peerInfo s.orphans peer).totalLatencyScore := by
  change _ ≤ ∑ peer ∈ _, groupSum Announcement.announcer Announcement.getLatencyScore s.orphans peer
  rw [totalLatencyScore, hc.unique.scores, sum_groupSum _ _ hc.announcer_mem, transactions]
  have inputs := sum_toFinset_le (f := inputScore) (fun tx => Nat.zero_le _)
    (s.orphans.map fun ann => ann.tx)
  have split : (s.orphans.map Announcement.getLatencyScore).sum
    = ((s.orphans.map fun ann => ann.tx).map inputScore).sum + s.orphans.length := by
    rw [List.map_map, funext getLatencyScore_eq, List.sum_map_add]
    simp [Function.comp_def]
  rw [split]
  exact Nat.add_le_add_right inputs _

lemma Consistent.exists_exceeds (trim : s.needsTrim = true) (mem : s.reservedUsagePerPeer = maxMem)
  (hn : 0 ≤ maxMem) (hs : s.peerOrphanageInfo.keys.length * maxLat ≤ s.maxGlobalLatencyScore) :
  ∃ peer info, s.peerOrphanageInfo.lookup peer = some info ∧ Exceeds maxLat maxMem info := by
  by_contra none
  push Not at none
  have within : ∀ peer ∈ s.peerOrphanageInfo.keys.toFinset,
    (peerInfo s.orphans peer).totalLatencyScore ≤ maxLat ∧
      (peerInfo s.orphans peer).totalUsage ≤ maxMem := by
    intro peer hm
    obtain ⟨info, hf⟩ := Option.isSome_iff_exists.mp (mem_keys_iff.mp (mem_toFinset.mp hm))
    rw [← hc.lookup_eq hf]
    have below := none peer info hf
    rw [Exceeds, not_or, not_lt, not_lt] at below
    exact below
  have card := toFinset_card_of_nodup s.peerOrphanageInfo.keys_nodup
  have latency := hc.latency_le.trans
    (Finset.sum_le_card_nsmul _ _ maxLat fun peer hm => (within peer hm).1)
  have usage := hc.usage_le.trans
    (Finset.sum_le_card_nsmul _ _ maxMem fun peer hm => (within peer hm).2)
  rw [card, smul_eq_mul] at latency
  rw [card, nsmul_eq_mul] at usage
  have global : s.uniqueOrphanUsage ≤ s.maxGlobalUsage := by
    rw [maxGlobalUsage, mem, mul_comm]
    refine usage.trans (mul_le_mul_of_nonneg_right ?_ hn)
    exact_mod_cast le_max_left _ 1
  rw [needsTrim, Bool.or_eq_true, decide_eq_true_iff, decide_eq_true_iff] at trim
  rcases trim with ha | ha
  · omega
  · omega

end

/-- A score above one. -/
def High (score : FeeFrac) : Prop := FeeFrac.higherFeeRate score ⟨1, 1⟩ = true

lemma high_iff {score : FeeFrac} : High score ↔ score.size < score.fee := by
  simp [High, higherFeeRate]

lemma toInt32_eq {n : ℤ} (low : 0 ≤ n) (hh : n < 2 ^ 31) : toInt32 n = n := by
  rw [toInt32, Int.bmod_eq_of_le (by omega) (by omega)]

lemma toInt32_wrapped {n : ℤ} (low : 2 ^ 31 ≤ n) (hh : n < 2 ^ 32) : toInt32 n = n - 2 ^ 32 := by
  have wraps : (n - 2 ^ 32).bmod (2 ^ 32) = n - 2 ^ 32 := Int.bmod_eq_of_le (by omega) (by omega)
  rw [toInt32, ← wraps]
  exact (Int.sub_bmod_right n (2 ^ 32)).symm

lemma compareFrac_eq_gt {a b : FeeFrac} (hg : compareFrac a b = .gt) :
  b.fee * a.size < a.fee * b.size ∨ a.fee * b.size = b.fee * a.size ∧ a.size < b.size := by
  rw [compareFrac, Ordering.then_eq_gt, compare_gt_iff_gt, compare_eq_iff_eq,
    compare_gt_iff_gt] at hg
  exact hg

lemma compareFrac_eq_lt {a b : FeeFrac} (less : compareFrac a b = .lt) :
  a.fee * b.size ≤ b.fee * a.size := by
  rw [compareFrac, Ordering.then_eq_lt, compare_lt_iff_lt, compare_eq_iff_eq] at less
  rcases less with less | ⟨he, -⟩
  · exact less.le
  · exact he.le

lemma compareFrac_ne_lt {a b : FeeFrac} (hl : compareFrac a b ≠ .lt) :
  b.fee * a.size ≤ a.fee * b.size := by
  by_contra less
  refine hl ?_
  rw [compareFrac, Ordering.then_eq_lt, compare_lt_iff_lt]
  exact .inl (not_le.mp less)

/-- The score of a peer whose limits a `FeeFrac` can hold is above one if the peer exceeds its
share. -/
lemma getDosScore_spec (hl : 0 < maxLat ∧ maxLat < 2 ^ 31)
  (hm : 0 < maxMem ∧ maxMem < 2 ^ 31) (info : PeerDoSInfo) :
  0 < (info.getDosScore maxLat maxMem).size ∧
    (High (info.getDosScore maxLat maxMem) ↔ Exceeds maxLat maxMem info) := by
  have fits : toInt32 maxLat = maxLat := toInt32_eq (by omega) (by omega)
  have fits' : toInt32 maxMem = maxMem := toInt32_eq hm.1.le hm.2
  have positive : (0 : ℤ) < maxLat := by omega
  rw [PeerDoSInfo.getDosScore, fits, fits', Exceeds]
  split_ifs with less
  · refine ⟨hm.1, ?_⟩
    have le := compareFrac_eq_lt less
    dsimp only at le
    rw [high_iff]
    refine ⟨.inr, fun he => he.elim (fun above => ?_) id⟩
    change maxMem < info.totalUsage
    have above : (maxLat : ℤ) < info.totalLatencyScore := by exact_mod_cast above
    by_contra within
    nlinarith
  · refine ⟨positive, ?_⟩
    have le := compareFrac_ne_lt less
    dsimp only at le
    rw [high_iff]
    dsimp only
    refine ⟨fun hh => .inl (by exact_mod_cast hh), fun he => he.elim
      (fun above => by exact_mod_cast above) fun above => ?_⟩
    by_contra within
    nlinarith [hm.1]

/-- A limit that does not fit makes the score negative, and that counts as above one. -/
lemma getDosScore_wrapped (hl : 2 ^ 31 ≤ maxLat ∧ maxLat < 2 ^ 32)
  (hm : 0 < maxMem ∧ maxMem < 2 ^ 31) {info : PeerDoSInfo} (some : 0 < info.totalLatencyScore)
  (hn : 0 ≤ info.totalUsage) : High (info.getDosScore maxLat maxMem) := by
  have wraps : toInt32 maxLat = maxLat - 2 ^ 32 := toInt32_wrapped (by omega) (by omega)
  have fits := toInt32_eq hm.1.le hm.2
  have positive : (0 : ℤ) < info.totalLatencyScore := by exact_mod_cast some
  have negative : (maxLat : ℤ) - 2 ^ 32 < 0 := by omega
  have latencyScore : info.getDosScore maxLat maxMem = ⟨info.totalLatencyScore, maxLat - 2 ^ 32⟩ := by
    rw [PeerDoSInfo.getDosScore, wraps, fits]
    refine if_neg fun less => ?_
    have le := compareFrac_eq_lt less
    nlinarith [mul_pos positive hm.1]
  rw [latencyScore, high_iff]
  exact negative.trans positive

section
variable {entry : NodeId × FeeFrac}

/-- The scores of a heap can be compared. -/
def Comparable (heap : List (NodeId × FeeFrac)) : Prop :=
  (∀ entry ∈ heap, 0 < entry.2.size) ∨ heap.length ≤ 1

variable {heap rest : List (NodeId × FeeFrac)} {worst : NodeId × FeeFrac}

lemma rate_le_rate {a b : FeeFrac} (posA : 0 < a.size) (posB : 0 < b.size)
  (le : a.fee * b.size ≤ b.fee * a.size) : a.rate ≤ b.rate :=
  not_lt.mp fun less => not_lt.mpr le ((rate_lt_rate posB posA).mp less)

lemma compareScore_rate {left right : NodeId × FeeFrac} (hpl : 0 < left.2.size)
  (hpr : 0 < right.2.size) : if compareScore left right then left.2.rate ≤ right.2.rate
  else right.2.rate ≤ left.2.rate := by
  by_cases hs : left.2 = right.2
  · rw [hs, ite_self]
  rw [compareScore, if_pos hs]
  by_cases less : compareFrac left.2 right.2 = .lt
  · rw [if_pos (decide_eq_true less)]
    exact rate_le_rate hpl hpr (compareFrac_eq_lt less)
  · rw [if_neg (by simpa using less)]
    exact rate_le_rate hpr hpl (compareFrac_ne_lt less)

lemma popHeap_spec (hp : popHeap heap = some (worst, rest)) : worst ∈ heap ∧
  rest = heap.erase worst ∧ ((∀ entry ∈ heap, 0 < entry.2.size) →
    ∀ entry ∈ heap, entry.2.rate ≤ worst.2.rate) := by
  cases heap with
  | nil => cases hp
  | cons first entries =>
    cases hp
    let Worst (seen : List (NodeId × FeeFrac)) (worst : NodeId × FeeFrac) :=
      worst ∈ first :: seen ∧ ((∀ entry ∈ first :: entries, 0 < entry.2.size) →
        ∀ entry ∈ first :: seen, entry.2.rate ≤ worst.2.rate)
    refine and_left_comm.mp ⟨rfl, foldl_inv Worst ⟨.head _, by simp⟩ ?_⟩
    intro seen next later worst eq ⟨hm, greatest⟩
    have compared := fun hp : ∀ entry ∈ first :: entries, 0 < entry.2.size => compareScore_rate
      (hp worst (by rw [eq]; simp at hm ⊢; tauto)) (hp next (by simp [eq]))
    simp only [Worst, ← cons_append, forall_mem_append, forall_mem_singleton]
    split_ifs at compared ⊢
    · refine ⟨by simp, fun hp => ⟨fun entry he => ?_, le_rfl⟩⟩
      exact (greatest hp entry he).trans (compared hp)
    · exact ⟨mem_append_left _ hm, fun hp => ⟨greatest hp, compared hp⟩⟩

lemma popHeap_high (hpo : popHeap heap = some (worst, rest)) (hc : Comparable heap)
  (hm : entry ∈ heap) (hh : High entry.2) : High worst.2 := by
  obtain ⟨inHeap, -, greatest⟩ := popHeap_spec hpo
  rcases hc with hp | single
  · rw [High, higherFeeRate_iff (hp _ hm) one_pos] at hh
    rw [High, higherFeeRate_iff (hp _ inHeap) one_pos]
    exact hh.trans_le (greatest hp entry hm)
  · obtain ⟨only, rfl⟩ := length_eq_one_iff.mp (le_antisymm single (length_pos_of_mem hm))
    rw [mem_singleton.mp inHeap, ← mem_singleton.mp hm]
    exact hh

lemma exists_popHeap (hm : entry ∈ heap) : ∃ worst rest, popHeap heap = some (worst, rest) := by
  cases heap with
  | nil => simp at hm
  | cons first entries => exact ⟨_, _, rfl⟩

lemma high_of_gt {score front : FeeFrac} (hp : 0 < score.size) (hp' : 0 < front.size)
  (hh : High front) (hg : compareFrac score front = .gt) : High score := by
  have le : front.fee * score.size ≤ score.fee * front.size := by
    rcases compareFrac_eq_gt hg with less | ⟨he, -⟩
    · exact less.le
    · exact he.ge
  rw [High, higherFeeRate_iff hp' one_pos] at hh
  rw [High, higherFeeRate_iff hp one_pos]
  exact hh.trans_le (rate_le_rate hp' hp le)

end

section
variable {peer : NodeId} {info : PeerDoSInfo}

/-- An announcement is evicted while the orphanage is above a limit, from a peer that exceeds its
share. -/
def Evicts (maxLat : ℕ) (maxMem : ℤ) (s s' : TxOrphanageImpl) : Prop :=
  ∃ ann ∈ s.orphans, s.needsTrim = true ∧
    (∃ info, s.peerOrphanageInfo.lookup ann.announcer = some info ∧ Exceeds maxLat maxMem info) ∧
    s' = s.erase ann

/-- An orphanage and the shares of its peers when it is about to be limited. -/
structure Setting (maxLat : ℕ) (maxMem : ℤ) (start : TxOrphanageImpl) : Prop where
  consistent : Consistent start
  latency : maxLat = start.maxPeerLatencyScore
  latencyPos : 0 < maxLat
  latencyFits : start.maxGlobalLatencyScore < 2 ^ 32
  memory : start.reservedUsagePerPeer = maxMem
  memoryFits : 0 < maxMem ∧ maxMem < 2 ^ 31

/-- The orphanage while it is being limited. -/
structure Trimming (maxLat : ℕ) (maxMem : ℤ) (start s : TxOrphanageImpl) : Prop where
  consistent : Consistent s
  evicted : ReflTransGen (Evicts maxLat maxMem) start s
  fewer : ∀ ann ∈ s.orphans, ann ∈ start.orphans
  limits : s.maxGlobalLatencyScore = start.maxGlobalLatencyScore ∧
    s.reservedUsagePerPeer = start.reservedUsagePerPeer

lemma erase_limits (s : TxOrphanageImpl) (ann : Announcement) :
  (s.erase ann).maxGlobalLatencyScore = s.maxGlobalLatencyScore ∧
    (s.erase ann).reservedUsagePerPeer = s.reservedUsagePerPeer := by
  rw [erase]
  cases s.isUnique ann with
  | false => exact ⟨rfl, rfl⟩
  | true => exact ⟨rfl, rfl⟩

lemma Trimming.evict (htr : Trimming maxLat maxMem start s)
  (hev : Evicts maxLat maxMem s s') : Trimming maxLat maxMem start s' := by
  obtain ⟨ann, hm, trim, he, rfl⟩ := id hev
  have limits := erase_limits s ann
  exact ⟨htr.consistent.erase hm, htr.evicted.tail hev,
    fun other remains => htr.fewer other (mem_of_mem_erase remains),
    ⟨limits.1.trans htr.limits.1, limits.2.trans htr.limits.2⟩⟩

lemma Consistent.info_pos (hc : Consistent s) (hf : s.peerOrphanageInfo.lookup peer = some info) :
  0 < info.totalLatencyScore ∧ 0 ≤ info.totalUsage ∧ 0 < info.countAnnouncements := by
  obtain ⟨ann, hm, announcer⟩ := hc.lookup_isSome.mp (by rw [hf]; rfl)
  have inGroup : ann ∈ s.orphans.filter fun ann => ann.announcer = peer := by
    simpa [announcer] using hm
  rw [hc.lookup_eq hf]
  refine ⟨?_, ?_, ?_⟩
  · have le : ann.getLatencyScore ≤ (peerInfo s.orphans peer).totalLatencyScore :=
      single_le_sum (fun _ _ => Nat.zero_le _) _ (mem_map_of_mem inGroup)
    rw [getLatencyScore_eq] at le
    omega
  · refine sum_nonneg fun usage inUsages => ?_
    obtain ⟨other, -, rfl⟩ := mem_map.mp inUsages
    exact Int.natCast_nonneg _
  · rw [countAnnouncements_eq]
    exact length_pos_of_mem inGroup

variable (setting : Setting maxLat maxMem start) (htr : Trimming maxLat maxMem start s)
include setting htr

lemma Trimming.keys_subset :
  s.peerOrphanageInfo.keys.toFinset ⊆ start.peerOrphanageInfo.keys.toFinset := by
  intro peer hm
  obtain ⟨ann, stored, rfl⟩ := htr.consistent.lookup_isSome.mp
    (mem_keys_iff.mp (mem_toFinset.mp hm))
  exact setting.consistent.announcer_mem ann (htr.fewer ann stored)

lemma Trimming.keys_le : s.peerOrphanageInfo.keys.length ≤ start.peerOrphanageInfo.keys.length := by
  rw [← toFinset_card_of_nodup s.peerOrphanageInfo.keys_nodup,
    ← toFinset_card_of_nodup start.peerOrphanageInfo.keys_nodup]
  exact Finset.card_le_card (htr.keys_subset setting)

/-- The shares are fixed for the number of peers at the start, and there are never more. -/
lemma Trimming.exists_exceeds (trim : s.needsTrim = true) :
  ∃ peer info, s.peerOrphanageInfo.lookup peer = some info ∧ Exceeds maxLat maxMem info := by
  refine htr.consistent.exists_exceeds trim (htr.limits.2.trans setting.memory)
    setting.memoryFits.1.le ?_
  calc s.peerOrphanageInfo.keys.length * maxLat
      ≤ max start.peerOrphanageInfo.keys.length 1 * maxLat :=
        Nat.mul_le_mul_right _ ((htr.keys_le setting).trans (le_max_left _ _))
    _ ≤ start.maxGlobalLatencyScore := by
        rw [setting.latency]
        exact Nat.mul_div_le _ _
    _ = s.maxGlobalLatencyScore := htr.limits.1.symm

omit htr in
/-- A share that does not fit is that of a single peer. -/
lemma Setting.single (hw : 2 ^ 31 ≤ maxLat) :
  maxLat < 2 ^ 32 ∧ start.peerOrphanageInfo.keys.length ≤ 1 := by
  have share := setting.latency
  have fits := setting.latencyFits
  rw [maxPeerLatencyScore] at share
  have whole := Nat.div_mul_le_self start.maxGlobalLatencyScore
    (max start.peerOrphanageInfo.keys.length 1)
  rw [← share] at whole
  constructor
  · have := Nat.div_le_self start.maxGlobalLatencyScore (max start.peerOrphanageInfo.keys.length 1)
    omega
  by_contra several
  have two : 2 ≤ max start.peerOrphanageInfo.keys.length 1 := by omega
  have := mul_le_mul hw two
  omega

lemma Trimming.eq_of_wraps (hw : 2 ^ 31 ≤ maxLat) {peer' : NodeId}
  (known : (s.peerOrphanageInfo.lookup peer).isSome)
  (known' : (s.peerOrphanageInfo.lookup peer').isSome) : peer = peer' := by
  have few := (htr.keys_le setting).trans (setting.single hw).2
  rw [← toFinset_card_of_nodup s.peerOrphanageInfo.keys_nodup] at few
  exact Finset.card_le_one.mp few peer (mem_toFinset.mpr (mem_keys_iff.mpr known)) peer'
    (mem_toFinset.mpr (mem_keys_iff.mpr known'))

/-- A share that is exceeded gives a score above one. The converse holds while the orphanage is
above a limit. -/
lemma Trimming.score_spec (hf : s.peerOrphanageInfo.lookup peer = some info) :
  (Exceeds maxLat maxMem info → High (info.getDosScore maxLat maxMem)) ∧
    (s.needsTrim = true → High (info.getDosScore maxLat maxMem) → Exceeds maxLat maxMem info) := by
  by_cases hfi : maxLat < 2 ^ 31
  · obtain ⟨-, high⟩ := getDosScore_spec ⟨setting.latencyPos, hfi⟩ setting.memoryFits info
    exact ⟨high.mpr, fun _ => high.mp⟩
  have wraps := not_lt.mp hfi
  obtain ⟨latency, usage, -⟩ := htr.consistent.info_pos hf
  have high := getDosScore_wrapped ⟨wraps, (setting.single wraps).1⟩ setting.memoryFits latency
    usage
  refine ⟨fun _ => high, fun trim _ => ?_⟩
  -- there is no other peer
  obtain ⟨peer', info', hf', he⟩ := htr.exists_exceeds setting trim
  have same : peer' = peer := htr.eq_of_wraps setting wraps (by rw [hf']; rfl) (by rw [hf]; rfl)
  rw [same, hf] at hf'
  exact Option.some.inj hf' ▸ he

lemma Trimming.exists_high (trim : s.needsTrim = true) :
  ∃ peer info, s.peerOrphanageInfo.lookup peer = some info ∧
    High (info.getDosScore maxLat maxMem) := by
  obtain ⟨peer, info, hf, he⟩ := htr.exists_exceeds setting trim
  exact ⟨peer, info, hf, (htr.score_spec setting hf).1 he⟩

end

variable {heap rest : List (NodeId × FeeFrac)} {worstPeer : NodeId} {threshold : FeeFrac}
  {info : PeerDoSInfo}

/-- The heap holds peers with the scores they have now, and all whose score is above one. -/
structure HeapOk (maxLat : ℕ) (maxMem : ℤ) (heap : List (NodeId × FeeFrac)) (s : TxOrphanageImpl) :
  Prop where
  distinct : (heap.map Prod.fst).Nodup
  current : ∀ entry ∈ heap, ∃ info, s.peerOrphanageInfo.lookup entry.1 = some info ∧
    entry.2 = info.getDosScore maxLat maxMem
  all : ∀ peer info, s.peerOrphanageInfo.lookup peer = some info →
    High (info.getDosScore maxLat maxMem) → (peer, info.getDosScore maxLat maxMem) ∈ heap

/-- The same for all peers but one. -/
structure OthersOk (maxLat : ℕ) (maxMem : ℤ) (worstPeer : NodeId) (rest : List (NodeId × FeeFrac))
  (s : TxOrphanageImpl) : Prop where
  distinct : (rest.map Prod.fst).Nodup
  current : ∀ entry ∈ rest, entry.1 ≠ worstPeer ∧
    ∃ info, s.peerOrphanageInfo.lookup entry.1 = some info ∧
      entry.2 = info.getDosScore maxLat maxMem
  all : ∀ peer info, peer ≠ worstPeer → s.peerOrphanageInfo.lookup peer = some info →
    High (info.getDosScore maxLat maxMem) → (peer, info.getDosScore maxLat maxMem) ∈ rest

lemma HeapOk.pop (ok : HeapOk maxLat maxMem heap s) {worst : NodeId × FeeFrac}
  (hp : popHeap heap = some (worst, rest)) : OthersOk maxLat maxMem worst.1 rest s := by
  obtain ⟨hm, rfl, -⟩ := popHeap_spec hp
  have perm := (perm_cons_erase hm).map Prod.fst
  have distinct := perm.nodup_iff.mp ok.distinct
  rw [map_cons, nodup_cons] at distinct
  refine ⟨distinct.2, fun entry remains => ⟨fun hs => distinct.1 ?_,
    ok.current entry (mem_of_mem_erase remains)⟩, fun peer info other hf hh => ?_⟩
  · exact hs ▸ mem_map_of_mem remains
  · refine (mem_erase_of_ne fun hs => other ?_).mpr (ok.all peer info hf hh)
    exact congrArg Prod.fst hs

/-- The entries of other peers stay right while announcements of one peer go. -/
lemma OthersOk.of_unchanged (ok : OthersOk maxLat maxMem worstPeer rest s)
  (hu : ∀ peer ≠ worstPeer, s'.peerOrphanageInfo.lookup peer = s.peerOrphanageInfo.lookup peer) :
  OthersOk maxLat maxMem worstPeer rest s' := by
  refine ⟨ok.distinct, fun entry hm => ?_, fun peer info other hf => ?_⟩
  · obtain ⟨other, info, hf, score⟩ := ok.current entry hm
    exact ⟨other, info, (hu _ other).trans hf, score⟩
  · exact ok.all peer info other ((hu peer other).symm.trans hf)

lemma OthersOk.push (ok : OthersOk maxLat maxMem worstPeer rest s) (hc : Consistent s) :
  HeapOk maxLat maxMem (s.pushHeap maxLat maxMem worstPeer rest) s := by
  rw [pushHeap]
  cases found : s.peerOrphanageInfo.lookup worstPeer with
  | none =>
    refine ⟨ok.distinct, fun entry hm => (ok.current entry hm).2, ?_⟩
    intro peer info hf'
    refine ok.all peer info (fun hs => ?_) hf'
    rw [hs, found] at hf'
    cases hf'
  | some info =>
    dsimp only
    rw [if_pos (hc.info_pos found).2.2]
    refine ⟨?_, ?_, ?_⟩
    · rw [map_cons, nodup_cons]
      refine ⟨fun hm => ?_, ok.distinct⟩
      obtain ⟨entry, hr, hs⟩ := mem_map.mp hm
      exact (ok.current entry hr).1 hs
    · exact forall_mem_cons.mpr ⟨⟨info, found, rfl⟩, fun entry hm => (ok.current entry hm).2⟩
    · intro peer info' hf' hh
      by_cases hs : peer = worstPeer
      · subst hs
        obtain rfl : info = info' := Option.some.inj (found.symm.trans hf')
        exact (.head _)
      · exact .tail _ (ok.all peer info' hs hf' hh)

lemma dosyPeers_ok (s : TxOrphanageImpl) : HeapOk maxLat maxMem (s.dosyPeers maxLat maxMem) s := by
  refine ⟨?_, fun entry hm => ?_, fun peer info hf hh => ?_⟩
  · have sublist : ((s.dosyPeers maxLat maxMem).map Prod.fst).Sublist s.peerOrphanageInfo.keys := by
      rw [dosyPeers, AList.keys, keys]
      induction s.peerOrphanageInfo.entries with
      | nil => exact .slnil
      | cons entry entries ih =>
        rw [filterMap_cons]
        dsimp only
        split_ifs
        · exact ih.cons_cons _
        · exact ih.cons _
    exact s.peerOrphanageInfo.keys_nodup.sublist sublist
  · obtain ⟨hk, inMap, eq⟩ := mem_filterMap.mp hm
    dsimp only at eq
    split_ifs at eq
    cases eq
    exact ⟨hk.2, AList.mem_lookup_iff.mpr inMap, rfl⟩
  · exact mem_filterMap.mpr ⟨⟨peer, info⟩, AList.mem_lookup_iff.mp hf, if_pos hh⟩

lemma Consistent.lookup_erase (hc : Consistent s) (hm : a ∈ s.orphans) {peer : NodeId}
  (ho : peer ≠ a.announcer) :
  (s.erase a).peerOrphanageInfo.lookup peer = s.peerOrphanageInfo.lookup peer := by
  rw [(hc.erase hm).peers, (hc.perm (perm_cons_erase hm)).peers, recomputed_cons_of_ne (Ne.symm ho)]
  rfl

lemma trimPeer_eq_self (fits : s.needsTrim = false) (later : List Announcement) :
  trimPeer maxLat maxMem worstPeer threshold later s = s := by
  cases later with
  | nil => rfl
  | cons ann later => rw [trimPeer, if_neg (by simp [fits])]

variable (setting : Setting maxLat maxMem start)
include setting

section
variable (htr : Trimming maxLat maxMem start s)
include htr

lemma HeapOk.comparable (ok : HeapOk maxLat maxMem heap s) : Comparable heap := by
  by_cases hfi : maxLat < 2 ^ 31
  · refine .inl fun entry hm => ?_
    obtain ⟨info, -, score⟩ := ok.current entry hm
    rw [score]
    exact (getDosScore_spec ⟨setting.latencyPos, hfi⟩ setting.memoryFits info).1
  have few := (htr.keys_le setting).trans (setting.single (not_lt.mp hfi)).2
  have subset : (heap.map Prod.fst) ⊆ s.peerOrphanageInfo.keys := by
    intro peer hm
    obtain ⟨entry, inHeap, rfl⟩ := mem_map.mp hm
    obtain ⟨info, hf, -⟩ := ok.current entry inHeap
    exact mem_keys_iff.mpr (by rw [hf]; rfl)
  have := (subperm_of_subset ok.distinct subset).length_le
  rw [length_map] at this
  exact .inr (this.trans few)

/-- While the orphanage is above a limit, a peer with a score above the threshold is above one. -/
lemma OthersOk.high_of_gt (ok : OthersOk maxLat maxMem worstPeer rest s) (trim : s.needsTrim = true)
  (hf : s.peerOrphanageInfo.lookup worstPeer = some info)
  (hg : compareFrac (info.getDosScore maxLat maxMem) (dosThreshold rest) = .gt) :
  High (info.getDosScore maxLat maxMem) := by
  obtain ⟨peer, info', hf', hh⟩ := htr.exists_high setting trim
  by_cases hs : peer = worstPeer
  · rw [hs, hf] at hf'
    exact Option.some.inj hf' ▸ hh
  have fits : maxLat < 2 ^ 31 := by
    by_contra wraps
    exact hs (htr.eq_of_wraps setting (not_lt.mp wraps) (by rw [hf']; rfl) (by rw [hf]; rfl))
  have positive := fun info =>
    (getDosScore_spec ⟨setting.latencyPos, fits⟩ setting.memoryFits info).1
  have scores : ∀ entry ∈ rest, 0 < entry.2.size := fun entry member => by
    obtain ⟨-, info, -, score⟩ := ok.current entry member
    rw [score]
    exact positive info
  have member := ok.all peer info' hs hf' hh
  obtain ⟨front, tail, hp⟩ := exists_popHeap member
  rw [dosThreshold, hp] at hg
  exact TxOrphanage.high_of_gt (positive info) (scores front (popHeap_spec hp).1)
    (popHeap_high hp (.inl scores) member hh) hg

/-- The inner loop takes at least one announcement away, and only from its peer. -/
lemma trimPeer_spec {later : List Announcement} (ok : OthersOk maxLat maxMem worstPeer rest s)
  (distinct : later.Nodup) (ht : ∀ ann, ann ∈ later ↔ ann ∈ s.orphans ∧ ann.announcer = worstPeer)
  (trim : s.needsTrim = true) (hf : s.peerOrphanageInfo.lookup worstPeer = some info)
  (hh : High (info.getDosScore maxLat maxMem)) :
  let s' := trimPeer maxLat maxMem worstPeer (dosThreshold rest) later s
  Trimming maxLat maxMem start s' ∧ s'.orphans.length < s.orphans.length ∧
    OthersOk maxLat maxMem worstPeer rest s' := by
  induction later generalizing s info with
  | nil =>
    obtain ⟨ann, hm, announcer⟩ := htr.consistent.lookup_isSome.mp (by rw [hf]; rfl)
    exact absurd ((ht ann).mpr ⟨hm, announcer⟩) not_mem_nil
  | cons ann later ih =>
    obtain ⟨hm, rfl⟩ := (ht ann).mp (.head _)
    have evicts : Evicts maxLat maxMem s (s.erase ann) :=
      ⟨ann, hm, trim, ⟨info, hf, (htr.score_spec setting hf).2 trim hh⟩, rfl⟩
    have trimming' := htr.evict evicts
    have others := ok.of_unchanged fun peer other => htr.consistent.lookup_erase hm other
    have shorter : (s.erase ann).orphans.length < s.orphans.length := by
      change (s.orphans.erase ann).length < _
      rw [length_erase_of_mem hm]
      exact Nat.sub_lt (length_pos_of_mem hm) one_pos
    rw [trimPeer, if_pos trim]
    dsimp only
    split
    · exact ⟨trimming', shorter, others⟩
    case h_2 info' hf' =>
      split_ifs with hr
      · exact ⟨trimming', shorter, others⟩
      cases trim' : (s.erase ann).needsTrim with
      | false =>
        rw [trimPeer_eq_self trim']
        exact ⟨trimming', shorter, others⟩
      | true =>
        have high' := others.high_of_gt setting trimming' trim' hf' (not_not.mp hr)
        rw [nodup_cons] at distinct
        have theirs' : ∀ other, other ∈ later ↔
          other ∈ (s.erase ann).orphans ∧ other.announcer = ann.announcer := by
          intro other
          change _ ↔ other ∈ s.orphans.erase ann ∧ _
          rw [htr.consistent.nodup.mem_erase_iff, and_assoc, ← ht, mem_cons]
          constructor
          · exact fun inLater => ⟨fun hs => distinct.1 (hs ▸ inLater), .inr inLater⟩
          · exact fun hb => hb.2.resolve_left hb.1
        obtain ⟨ht'', shorter', ho'⟩ := ih trimming' others distinct.2 theirs' trim' hf' high'
        exact ⟨ht'', shorter'.trans shorter, ho'⟩

end

/-- The outer loop ends within the limits. -/
lemma trimLoop_spec (fuel : ℕ) (htr : Trimming maxLat maxMem start s)
  (ok : HeapOk maxLat maxMem heap s) (trim : s.needsTrim = true) (he : s.orphans.length ≤ fuel) :
  ∃ s', trimLoop maxLat maxMem fuel heap s = some s' ∧ Trimming maxLat maxMem start s' ∧
    s'.needsTrim = false := by
  induction fuel generalizing s heap with
  | zero =>
    obtain ⟨peer, info, hf, -⟩ := htr.exists_high setting trim
    obtain ⟨ann, hm, -⟩ := htr.consistent.lookup_isSome.mp (by rw [hf]; rfl)
    have := length_pos_of_mem hm
    omega
  | succ fuel ih =>
    obtain ⟨peer, info, hf, hh⟩ := htr.exists_high setting trim
    have inHeap := ok.all peer info hf hh
    obtain ⟨worst, rest, hp⟩ := exists_popHeap inHeap
    have worstHigh := popHeap_high hp (ok.comparable setting htr) inHeap hh
    obtain ⟨info', hf', score⟩ := ok.current worst (popHeap_spec hp).1
    rw [score] at worstHigh
    obtain ⟨ht', shorter, ho⟩ := trimPeer_spec setting htr (ok.pop hp)
      (htr.consistent.byPeer_nodup worst.1) (fun ann => mem_byPeer) trim hf' worstHigh
    have known := AList.lookup_isSome.mp (by rw [hf']; rfl)
    rw [trimLoop, hp]
    dsimp only
    rw [if_neg (not_not.mpr known)]
    split_ifs with trim'
    · exact ih ht' (ho.push ht'.consistent) trim' (by omega)
    · exact ⟨_, rfl, ht', by simpa using trim'⟩

omit setting in
/-- `LimitOrphans` comes back within the limits, after evictions from peers above their share. -/
lemma limitOrphans_spec (hc : Consistent s)
  (few : s.peerOrphanageInfo.keys.length ≤ s.maxGlobalLatencyScore)
  (hl : s.maxGlobalLatencyScore < 2 ^ 32)
  (hme : 0 < s.reservedUsagePerPeer ∧ s.reservedUsagePerPeer < 2 ^ 31) :
  ∃ s', s.limitOrphans = some s' ∧
    Trimming s.maxPeerLatencyScore s.reservedUsagePerPeer s s' ∧ s'.needsTrim = false := by
  have trimming : Trimming s.maxPeerLatencyScore s.reservedUsagePerPeer s s :=
    ⟨hc, .refl, fun _ hm => hm, ⟨rfl, rfl⟩⟩
  rw [limitOrphans]
  cases trim : s.needsTrim with
  | false => exact ⟨s, rfl, trimming, trim⟩
  | true =>
    obtain ⟨peer, info, hf, -⟩ := hc.exists_exceeds trim rfl hme.1.le
      ((Nat.mul_zero _).trans_le (Nat.zero_le _))
    have peers : 0 < s.peerOrphanageInfo.keys.length :=
      length_pos_of_mem (mem_keys_iff.mpr (by rw [hf]; rfl))
    have share : 0 < s.maxPeerLatencyScore := Nat.div_pos (by omega) (by omega)
    have setting : Setting s.maxPeerLatencyScore s.reservedUsagePerPeer s :=
      ⟨hc, rfl, share, hl, rfl, hme⟩
    rw [if_pos rfl]
    rw [if_neg (fun hfa => hfa.2 ⟨share, hme.1⟩)]
    exact trimLoop_spec setting _ trimming (dosyPeers_ok s) trim le_rfl

end TxOrphanage
