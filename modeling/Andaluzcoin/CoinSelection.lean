import Andaluzcoin.Transaction

/-!
# Groups of coins

`GroupOutputs` puts the coins of a wallet into groups and discards those that pass no filter.
`AutomaticCoinSelection` gives up early if the coins without the discarded groups are worth too
little.
-/

namespace CoinSelection

open Transaction List

inductive OutputType where
  | legacy | p2shSegwit | bech32 | bech32m | unknown
  deriving DecidableEq

/-- A coin with the fee to spend it and to bump its ancestors. -/
structure COutput where
  outpoint : COutPoint
  txout : CTxOut
  depth : ℤ
  fromMe : Bool
  fee : ℤ
  value_nonneg : 0 ≤ txout.nValue
  fee_nonneg : 0 ≤ fee
  deriving DecidableEq

def COutput.getEffectiveValue (coin : COutput) : ℤ := coin.txout.nValue - coin.fee

structure CoinSelectionParams where
  avoidPartialSpends : Bool
  subtractFeeOutputs : Bool
  includeUnsafeInputs : Bool

structure CoinEligibilityFilter where
  confMine : ℤ
  confTheirs : ℤ
  maxAncestors : ℕ
  maxClusterCount : ℕ
  includePartialGroups : Bool

structure OutputGroup where
  outputs : List COutput := []
  fromMe : Bool := true
  value : ℤ := 0
  depth : ℤ := 999
  ancestors : ℕ := 0
  maxClusterCount : ℕ := 0
  effectiveValue : ℤ := 0
  subtractFeeOutputs : Bool
  value_eq : value = (outputs.map fun coin => coin.txout.nValue).sum := by rfl
  effective_eq : effectiveValue = (outputs.map COutput.getEffectiveValue).sum := by rfl

open OutputGroup

namespace OutputGroup

def insert (group : OutputGroup) (coin : COutput) (ancestry : ℕ × ℕ) : OutputGroup where
  outputs := group.outputs ++ [coin]
  fromMe := group.fromMe && coin.fromMe
  value := group.value + coin.txout.nValue
  depth := min group.depth coin.depth
  ancestors := group.ancestors + ancestry.1
  maxClusterCount := max group.maxClusterCount ancestry.2
  effectiveValue := group.effectiveValue + coin.getEffectiveValue
  subtractFeeOutputs := group.subtractFeeOutputs
  value_eq := by simp [group.value_eq]
  effective_eq := by simp [group.effective_eq]

def eligibleForSpending (group : OutputGroup) (filter : CoinEligibilityFilter) : Bool :=
  (if group.fromMe then filter.confMine else filter.confTheirs) ≤ group.depth ∧
    group.ancestors ≤ filter.maxAncestors ∧ group.maxClusterCount ≤ filter.maxClusterCount

def getSelectionAmount (group : OutputGroup) : ℤ :=
  if group.subtractFeeOutputs then group.value else group.effectiveValue

end OutputGroup

/-- The coins of all types, in the order of `Add` or after a `Shuffle`. -/
structure CoinsResult where
  coins : List (OutputType × COutput)
  totalAmount : ℤ
  distinct : (coins.map fun coin => coin.2.outpoint).Nodup
  total_eq : totalAmount = (coins.map fun coin => coin.2.txout.nValue).sum

/-- What the wallet knows from the mempool, and its options. -/
structure CWallet where
  getTransactionAncestry : Txid → ℕ × ℕ
  limitAncestorCount : ℕ
  limitDescendantCount : ℕ
  spendZeroConfChange : Bool
  rejectLongChains : Bool

def outputGroupMaxEntries : ℕ := 100

/-- A group with its arguments of `Push`. -/
structure Candidate where
  group : OutputGroup
  type : OutputType
  /-- The last group of a script that has full groups. -/
  isPartial : Bool
  insertPositive : Bool
  insertMixed : Bool

def Candidate.accepted (c : Candidate) (filter : CoinEligibilityFilter) : Bool :=
  c.group.eligibleForSpending filter && !(c.isPartial && !filter.includePartialGroups)

section
variable (wallet : CWallet) (params : CoinSelectionParams) (coins : List (OutputType × COutput))

/-- A group of one coin. -/
def newGroup (coin : COutput) : OutputGroup :=
  OutputGroup.insert { subtractFeeOutputs := params.subtractFeeOutputs } coin
    (wallet.getTransactionAncestry coin.outpoint.hash)

/-- Put a coin into the last group of its script, or into a new one. The last group comes first. -/
def insertOutput (groups : List OutputGroup) (coin : COutput) : List OutputGroup :=
  match groups with
  | [] => [newGroup wallet params coin]
  | group :: groups =>
    if outputGroupMaxEntries ≤ group.outputs.length then
      newGroup wallet params coin :: group :: groups
    else group.insert coin (wallet.getTransactionAncestry coin.outpoint.hash) :: groups

/-- The groups of each script and type, the partial one first. -/
def pushOutputGroups (positiveOnly : Bool) : List Candidate :=
  (coins.map fun coin => (coin.2.txout.scriptPubKey, coin.1)).dedup.flatMap fun key =>
    let groups := ((coins.filter fun coin => (coin.2.txout.scriptPubKey, coin.1) = key).map
      Prod.snd).foldl (insertOutput wallet params) []
    groups.mapIdx fun i group =>
      ⟨group, key.2, i == 0 && 1 < groups.length, positiveOnly, !positiveOnly⟩

/-- All groups that are tried with the filters. -/
def candidates : List Candidate :=
  if params.avoidPartialSpends then
    pushOutputGroups wallet params coins false ++ pushOutputGroups wallet params
      (coins.filter fun coin => 0 < coin.2.getEffectiveValue) true
  else coins.map fun coin => ⟨newGroup wallet params coin.2, coin.1, false, true, true⟩

/-- What is pushed for each filter, and the discarded groups. -/
def groupOutputs (filters : List CoinEligibilityFilter) :
  List (CoinEligibilityFilter × Candidate) × List OutputGroup :=
  ((candidates wallet params coins).flatMap fun c => (filters.filter c.accepted).map fun f => (f, c),
    ((candidates wallet params coins).filter fun c => !filters.any c.accepted).map Candidate.group)

def orderedFilters : List CoinEligibilityFilter :=
  let maxAncestors := max 1 wallet.limitAncestorCount
  let maxClusterCount := max 1 wallet.limitDescendantCount
  [⟨1, 6, 0, 0, false⟩, ⟨1, 1, 0, 0, false⟩] ++
    if wallet.spendZeroConfChange then
      [⟨0, 1, 2, 2, false⟩, ⟨0, 1, min 4 (maxAncestors / 3), min 4 (maxClusterCount / 3), false⟩,
        ⟨0, 1, maxAncestors / 2, maxClusterCount / 2, false⟩,
        ⟨0, 1, maxAncestors - 1, maxClusterCount - 1, true⟩] ++
      (if params.includeUnsafeInputs then
        [⟨0, 0, maxAncestors - 1, maxClusterCount - 1, true⟩] else []) ++
      if wallet.rejectLongChains then [] else [⟨0, 1, 2 ^ 64 - 1, 2 ^ 64 - 1, true⟩]
    else []

def discardedGroups : List OutputGroup :=
  (groupOutputs wallet params coins (orderedFilters wallet params)).2

/-- `AutomaticCoinSelection` up to the first attempt: the error of the early exit. -/
def automaticCoinSelection (available : CoinsResult) (valueToSelect : ℤ) : Option String :=
  let discarded := discardedGroups wallet params available.coins
  let totalDiscarded := (discarded.map OutputGroup.getSelectionAmount).sum
  let totalUnconfLongChain := ((discarded.filter fun group =>
    max 1 wallet.limitAncestorCount ≤ group.ancestors ∨
    max 1 wallet.limitDescendantCount ≤ group.maxClusterCount).map OutputGroup.getSelectionAmount).sum
  let totalAmount := available.totalAmount - totalDiscarded
  if totalAmount < valueToSelect then
    if totalAmount + totalUnconfLongChain > valueToSelect then
      some "Unconfirmed UTXOs are available, but spending them creates a chain of transactions that will be rejected by the mempool"
    else some ""
  else none

/-- The coins in a group that some filter allows to spend. -/
def eligibleCoins : List COutput :=
  (coins.map Prod.snd).filter fun coin => (candidates wallet params coins).any fun c =>
    coin ∈ c.group.outputs && (orderedFilters wallet params).any c.group.eligibleForSpending

def selectionAmount (coin : COutput) : ℤ :=
  if params.subtractFeeOutputs then coin.txout.nValue else coin.getEffectiveValue

/-- The groups that no filter accepts. -/
def refused : List Candidate :=
  (candidates wallet params coins).filter fun c => !(orderedFilters wallet params).any c.accepted

/-- The coins of all refused groups, and then the eligible coins. -/
def counted : List COutput :=
  ((refused wallet params coins).flatMap fun c => c.group.outputs) ++ eligibleCoins wallet params coins

/-- By how much the coins are worth less than the refused groups and the eligible coins. -/
def overcount : ℤ :=
  ((coins.map Prod.snd).map fun coin =>
    (counted wallet params coins).count coin * selectionAmount params coin).sum -
      ((coins.map Prod.snd).map fun coin => coin.txout.nValue).sum

end

variable {wallet : CWallet} {params : CoinSelectionParams} {coins : List (OutputType × COutput)}
  {c : Candidate}

variable (params) in
lemma selectionAmount_le (coin : COutput) : selectionAmount params coin ≤ coin.txout.nValue := by
  rw [selectionAmount]
  split_ifs
  · rfl
  · exact sub_le_self _ coin.fee_nonneg

/-- The coins of a group are known, and its amount is that of the coins. -/
structure Made (params : CoinSelectionParams) (known : List COutput) (group : OutputGroup) :
  Prop where
  sub : group.outputs ⊆ known
  fees : group.subtractFeeOutputs = params.subtractFeeOutputs

lemma Made.amount {known : List COutput} {group : OutputGroup} (made : Made params known group) :
  group.getSelectionAmount = (group.outputs.map (selectionAmount params)).sum := by
  rw [getSelectionAmount, made.fees, group.value_eq, group.effective_eq]
  unfold selectionAmount
  split_ifs <;> rfl

lemma insertOutput_made {known : List COutput} {coin : COutput} {groups : List OutputGroup}
  (mem : coin ∈ known) (made : ∀ group ∈ groups, Made params known group) :
  ∀ group ∈ insertOutput wallet params groups coin, Made params known group := by
  have new : Made params known (newGroup wallet params coin) :=
    ⟨by simpa [newGroup, OutputGroup.insert] using mem, rfl⟩
  cases groups with
  | nil => exact forall_mem_singleton.mpr new
  | cons last groups =>
    rw [insertOutput]
    split_ifs
    · exact forall_mem_cons.mpr ⟨new, made⟩
    · obtain ⟨hl, made⟩ := forall_mem_cons.mp made
      exact forall_mem_cons.mpr ⟨⟨append_subset.mpr ⟨hl.sub, by simpa using mem⟩, hl.fees⟩, made⟩

lemma pushOutputGroups_made {positiveOnly : Bool}
  (mem : c ∈ pushOutputGroups wallet params coins positiveOnly) :
  Made params (coins.map Prod.snd) c.group := by
  simp only [pushOutputGroups, mem_flatMap, mem_mapIdx] at mem
  obtain ⟨key, -, i, bound, rfl⟩ := mem
  -- the invariant of the loop over the coins of one script
  refine foldlRecOn (motive := fun groups => ∀ group ∈ groups, Made params (coins.map Prod.snd) group)
    _ _ (by simp) (fun groups ih coin inScript => ?_) _ (getElem_mem bound)
  exact insertOutput_made ((filter_sublist.map _).subset inScript) ih

lemma candidates_made (mem : c ∈ candidates wallet params coins) :
  Made params (coins.map Prod.snd) c.group := by
  rw [candidates] at mem
  split_ifs at mem
  · rcases mem_append.mp mem with mem | mem
    · exact pushOutputGroups_made mem
    · have made := pushOutputGroups_made mem
      exact ⟨Subset.trans made.sub (filter_sublist.map _).subset, made.fees⟩
  · obtain ⟨coin, inCoins, rfl⟩ := mem_map.mp mem
    exact ⟨cons_subset.mpr ⟨mem_map_of_mem inCoins, nil_subset _⟩, rfl⟩

/-- A coin by itself is in one group. -/
lemma counted_of_single (nodup : (coins.map Prod.snd).Nodup)
  (single : params.avoidPartialSpends = false) : (counted wallet params coins).Nodup := by
  have groups : candidates wallet params coins =
    coins.map fun coin => ⟨newGroup wallet params coin.2, coin.1, false, true, true⟩ := by
    rw [candidates, single]
    rfl
  have accepted : ∀ group type, Candidate.accepted ⟨group, type, false, true, true⟩ =
    group.eligibleForSpending := by
    intro group type
    funext f
    simp [Candidate.accepted]
  have others : (refused wallet params coins).flatMap (fun c => c.group.outputs) =
    (coins.map Prod.snd).filter fun coin => !(orderedFilters wallet params).any
      (newGroup wallet params coin).eligibleForSpending := by
    rw [refused, groups, filter_map, filter_map, flatMap_map, map_eq_flatMap]
    simp only [Function.comp_def, accepted]
    rfl
  rw [counted, others]
  refine (nodup.filter _).append (nodup.filter _) fun coin out mem => ?_
  rw [eligibleCoins, mem_filter, groups, any_map, any_eq_true] at mem
  obtain ⟨-, other, -, found⟩ := mem
  obtain ⟨inGroup, eligible⟩ := Bool.and_eq_true_iff.mp found
  obtain rfl : coin = other.2 := mem_singleton.mp (of_decide_eq_true inGroup)
  simpa [eligible] using (mem_filter.mp out).2

lemma sum_map_count {known l : List COutput} (nodup : known.Nodup) (sub : l ⊆ known)
  (amount : COutput → ℤ) :
  (l.map amount).sum = (known.map fun coin => l.count coin * amount coin).sum := by
  have finite : l.toFinset ⊆ known.toFinset := fun coin mem =>
    mem_toFinset.mpr (sub (mem_toFinset.mp mem))
  rw [Finset.sum_list_map_count, Finset.sum_subset finite, List.sum_toFinset _ nodup]
  · simp only [nsmul_eq_mul]
  · intro coin _ out
    rw [count_eq_zero.mpr fun mem => out (mem_toFinset.mpr mem), zero_smul]

/-- What is left after the discarded groups is the amount of the eligible coins less the excess. -/
lemma total_sub_discarded (available : CoinsResult) (nodup : (available.coins.map Prod.snd).Nodup) :
  available.totalAmount -
      ((discardedGroups wallet params available.coins).map getSelectionAmount).sum =
    ((eligibleCoins wallet params available.coins).map (selectionAmount params)).sum -
      overcount wallet params available.coins := by
  have sub : counted wallet params available.coins ⊆ available.coins.map Prod.snd := by
    refine append_subset.mpr ⟨fun coin mem => ?_, filter_subset_self _⟩
    obtain ⟨c, inCandidates, mem⟩ := mem_flatMap.mp mem
    exact (candidates_made (mem_filter.mp inCandidates).1).sub mem
  have all := sum_map_count nodup sub (selectionAmount params)
  have groups : ((discardedGroups wallet params available.coins).map getSelectionAmount).sum =
    (((refused wallet params available.coins).flatMap fun c => c.group.outputs).map
      (selectionAmount params)).sum := by
    have made : ∀ c ∈ refused wallet params available.coins, _ := fun c mem =>
      (candidates_made (mem_filter.mp mem).1).amount
    change (((refused wallet params available.coins).map Candidate.group).map _).sum = _
    generalize refused wallet params available.coins = groups at made
    induction groups with
    | nil => rfl
    | cons c groups ih =>
      obtain ⟨first, made⟩ := forall_mem_cons.mp made
      rw [map_cons, map_cons, sum_cons, flatMap_cons, map_append, sum_append, first, ih made]
  have total : available.totalAmount =
    ((available.coins.map Prod.snd).map fun coin => coin.txout.nValue).sum := by
    rw [available.total_eq, map_map]
    rfl
  rw [counted, map_append, sum_append, ← groups] at all
  rw [total, overcount, counted]
  omega

/-- Transaction 2 is in the mempool, on a long chain. -/
def plainWallet : CWallet :=
  ⟨fun hash => if hash = 2 then (30, 30) else (0, 0), 25, 25, true, true⟩

def confirmedCoin : COutput := ⟨⟨1, 0⟩, ⟨100000, [0x51]⟩, 10, false, 0, by decide, by decide⟩

/-- Change of the wallet's own that is not confirmed yet. -/
def changeCoin : COutput := ⟨⟨2, 0⟩, ⟨60000, [0x52]⟩, 0, true, 0, by decide, by decide⟩

def twoCoins : CoinsResult :=
  ⟨[(.bech32, confirmedCoin), (.bech32, changeCoin)], 160000, by decide, by decide⟩

end CoinSelection
