import Andaluzcoin.LockTime
import Andaluzcoin.TxVerify

/-!
# Lock points

The relative lock times of a transaction in the mempool are worked out once for the tip it was
accepted at and kept with it, next to the highest block they depend on. After a reorganisation the
kept values are used again as long as that block is still in the chain.
-/

namespace MempoolLocks

open Transaction LockTime ChainIndex ParentTree TxVerify List BlockChain
open Option (map_some getD_some map_eq_some_iff)

def mempoolHeight : ℕ := 0x7fffffff
def standardLocktimeVerifyFlags : ℕ := locktimeVerifySequence

abbrev CoinsView := COutPoint → Option Coin

/-- `CCoinsViewMemPool::GetCoin`: an output of a transaction in the mempool comes before the coins
below. -/
def viewMempool (mempool : Txid → Option CTransaction) (base : CoinsView) : CoinsView :=
  fun outpoint =>
    match mempool outpoint.hash with
    | some ptx => ptx.vout[outpoint.n]?.map fun out => ⟨out, false, mempoolHeight⟩
    | none => base outpoint

structure LockPoints (B : Type*) where
  height : ℤ
  time : ℤ
  maxInputBlock : Option B
  deriving DecidableEq

section
variable {B : Type*} (chain : BlockChain B) (tip : B)

/-- The index together with `next_tip`, a block on the tip that is not in the index. -/
def withNextTip : BlockChain (Option B) where
  pprev := fun b => b.elim (some (some tip)) fun b => (chain.pprev b).map some
  nHeight := fun b => b.elim (chain.nHeight tip + 1) chain.nHeight
  nTime := fun b => b.elim 0 chain.nTime
  graded := by
    intro b parent edge
    cases b with
    | none =>
      cases edge
      rfl
    | some b =>
      obtain ⟨p, known, rfl⟩ := Option.map_eq_some_iff.mp edge
      exact chain.graded b p known
  genesis := by
    intro b edge
    cases b with
    | none => cases edge
    | some b => exact chain.genesis b (Option.map_eq_none_iff.mp edge)

/-- The height at which an input's coin counts as created: that of the next block for an output of
a transaction in the mempool. -/
def prevHeight (coin : Coin) : ℤ :=
  if coin.nHeight = mempoolHeight then chain.nHeight tip + 1 else coin.nHeight

def calculatePrevHeights (coins : CoinsView) (tx : CTransaction) : Option (List ℤ) :=
  tx.vin.mapM fun txin => (coins txin.prevout).map (prevHeight chain tip)

/-- `max_input_height`. Coins of the mempool do not count. -/
def maxInputHeight (prevHeights : List ℤ) : ℤ :=
  prevHeights.foldl
    (fun highest (height : ℤ) =>
      if height ≠ chain.nHeight tip + 1 then max highest height else highest) 0

/-- There is no result for a transaction with an input whose coin is missing. An ancestor that is
missing ends the program. -/
def calculateLockPointsAtTip (coins : CoinsView) (tx : CTransaction) :
  Option (Option (LockPoints B)) :=
  match calculatePrevHeights chain tip coins tx with
  | none => some none
  | some prevHeights =>
    (calculateSequenceLocks tx (withNextTip chain tip) standardLocktimeVerifyFlags prevHeights
      none).bind fun r =>
        (chain.getAncestor tip (maxInputHeight chain tip r.2)).map fun maxInputBlock =>
          some ⟨r.1.nMinHeight, r.1.nMinTime, some maxInputBlock⟩

def checkSequenceLocksAtTip (lockPoints : LockPoints B) : Option Bool :=
  evaluateSequenceLocks (withNextTip chain tip) none ⟨lockPoints.height, lockPoints.time⟩

def checkFinalTxAtTip (tx : CTransaction) : Bool :=
  isFinalTx tx (chain.nHeight tip + 1) (chain.getMedianTimePast tip)

variable [DecidableEq B]

/-- `CChain::Contains` of the chain that ends in the tip. -/
def contains (pindex : B) : Bool := chain.getAncestor tip (chain.nHeight pindex) == some pindex

def testLockPointValidity (lp : LockPoints B) : Bool :=
  match lp.maxInputBlock with
  | some maxInputBlock => contains chain tip maxInputBlock
  | none => true

structure CTxMemPoolEntry (B : Type*) where
  tx : CTransaction
  lockPoints : LockPoints B
  spendsCoinbase : Bool

/-- The loop over the inputs of a transaction that spends a coinbase. A coin that is neither in the
mempool nor unspent ends the program. -/
def spendsImmature (mempool : Txid → Option CTransaction) (coinsTip : CoinsView) :
  List CTxIn → Option Bool
  | [] => some false
  | txin :: vin =>
    if (mempool txin.prevout.hash).isSome then spendsImmature mempool coinsTip vin
    else
      let coin := (coinsTip txin.prevout).getD .empty
      if coin.isSpent then none
      else if coin.fCoinBase ∧ (chain.nHeight tip : ℤ) + 1 - coin.nHeight < coinbaseMaturity then
        some true
      else spendsImmature mempool coinsTip vin

/-- Lock points that pass, or none. -/
def passing (lockPoints : LockPoints B) : Option (Option (LockPoints B)) :=
  (checkSequenceLocksAtTip chain tip lockPoints).map fun passes =>
    if passes then some lockPoints else none

/-- The lock points of an entry after `filter_final_and_mature` has looked at them, or none when
the entry has to go because of them. -/
def refreshLockPoints (mempool : Txid → Option CTransaction) (coinsTip : CoinsView)
  (it : CTxMemPoolEntry B) : Option (Option (LockPoints B)) :=
  if testLockPointValidity chain tip it.lockPoints then passing chain tip it.lockPoints
  else
    (calculateLockPointsAtTip chain tip (viewMempool mempool coinsTip) it.tx).bind
      fun newLockPoints => newLockPoints.elim (some none) (passing chain tip)

/-- Whether the entry has to leave the mempool, and the entry with its lock points updated. -/
def filterFinalAndMature (mempool : Txid → Option CTransaction) (coinsTip : CoinsView)
  (it : CTxMemPoolEntry B) : Option (Bool × CTxMemPoolEntry B) :=
  if ¬ checkFinalTxAtTip chain tip it.tx then some (true, it)
  else
    (refreshLockPoints chain tip mempool coinsTip it).bind fun refreshed =>
      refreshed.elim (some (true, it)) fun lockPoints =>
        let it := { it with lockPoints }
        if it.spendsCoinbase then
          (spendsImmature chain tip mempool coinsTip it.tx.vin).map fun immature => (immature, it)
        else some (false, it)

end

section
variable {B : Type*} (C : BlockChain B) (tip : B)

lemma up_withNextTip (n : ℕ) (b : B) :
  up (withNextTip C tip).pprev n (some b) = (up C.pprev n b).map some := by
  induction n generalizing b with
  | zero => rfl
  | succ n ih =>
    change ((C.pprev b).map some).bind _ = ((C.pprev b).bind _).map some
    cases C.pprev b with
    | none => rfl
    | some parent => exact ih parent

lemma trail_withNextTip (n : ℕ) (b : B) :
  trail (withNextTip C tip).pprev n (some b) = (trail C.pprev n b).map some := by
  induction n generalizing b with
  | zero => rfl
  | succ n ih =>
    change some b :: ((C.pprev b).map some).elim [] _ = some b :: _
    cases C.pprev b with
    | none => rfl
    | some parent => exact congrArg _ (ih parent)

lemma getMedianTimePast_withNextTip (b : B) :
  (withNextTip C tip).getMedianTimePast (some b) = C.getMedianTimePast b := by
  rw [getMedianTimePast, getMedianTimePast, trail_withNextTip, map_map]
  rfl

lemma getAncestor_withNextTip {height : ℤ} (le : height ≤ C.nHeight tip) :
  (withNextTip C tip).getAncestor none height = (C.getAncestor tip height).map some := by
  rw [BlockChain.getAncestor, BlockChain.getAncestor]
  split_ifs with hn
  · rfl
  have low : height.toNat ≤ C.nHeight tip := by omega
  have steps : C.nHeight tip + 1 - height.toNat = C.nHeight tip - height.toNat + 1 := by
    omega
  rw [ParentTree.getAncestor, ParentTree.getAncestor, if_pos low]
  change (if height.toNat ≤ C.nHeight tip + 1 then
    up _ (C.nHeight tip + 1 - height.toNat) none else none) = _
  rw [if_pos (by omega), steps]
  exact up_withNextTip C tip _ tip

end

section
variable {B : Type*} {C : BlockChain B} {block : B}

/-- Both locks are below a height and a time exactly when those of all inputs are over. -/
lemma sequenceLocksLoop_map {vin : List CTxIn} {nCoinHeight : CTxIn → ℤ}
  (hk : ∀ txin ∈ vin, txin.nSequence &&& sequenceLocktimeDisableFlag = 0 →
    ∃ before, C.getAncestor block (max (nCoinHeight txin - 1) 0) = some before)
  (locks : LockPair) : ∃ locks', sequenceLocksLoop C block vin (vin.map nCoinHeight) locks
      = some (locks', vin.map (cleared nCoinHeight)) ∧
    ∀ nHeight nTime, locks'.nMinHeight < nHeight ∧ locks'.nMinTime < nTime ↔
      (locks.nMinHeight < nHeight ∧ locks.nMinTime < nTime) ∧
        ∀ txin ∈ vin, Over C block nHeight nTime txin (nCoinHeight txin) := by
  have pairs : vin.zip (vin.map nCoinHeight) = vin.map fun txin => (txin, nCoinHeight txin) := by
    simpa using zip_map' (f := id) (g := nCoinHeight) (l := vin)
  have runs := @sequenceLocksLoop_runs _ C block vin (vin.map nCoinHeight) locks (by
    rw [pairs, forall_mem_map]
    exact fun txin mem he _ => hk txin mem he)
  obtain ⟨⟨locks', heights⟩, run⟩ := Option.isSome_iff_exists.mp runs
  obtain ⟨rfl, below⟩ := sequenceLocksLoop_spec (length_map _) run
  simp only [pairs, forall_mem_map] at below
  exact ⟨locks', by rw [run, zipWith_map_right, zipWith_self]; rfl, below⟩

end

section
variable {B : Type*} (chain : BlockChain B) (tip : B) (coins : CoinsView) (tx : CTransaction)
  {txin : CTxIn}

/-- The height that the coin of an input counts with. -/
def inputHeight (txin : CTxIn) : ℤ := ((coins txin.prevout).map (prevHeight chain tip)).getD 0

/-- The coin of an input is in the mempool, or in the chain up to the tip. -/
def Held (txin : CTxIn) : Prop :=
  ∃ coin, coins txin.prevout = some coin ∧
    (coin.nHeight = mempoolHeight ∨ coin.nHeight ≤ chain.nHeight tip)

variable {chain tip coins tx}

lemma Held.inputHeight_le (held : Held chain tip coins txin) :
  0 ≤ inputHeight chain tip coins txin ∧
    inputHeight chain tip coins txin ≤ chain.nHeight tip + 1 := by
  obtain ⟨coin, hf, place⟩ := held
  rw [inputHeight, hf, map_some, getD_some, prevHeight]
  split_ifs with mempool
  · omega
  · have := place.resolve_left mempool
    omega

lemma calculatePrevHeights_eq (held : ∀ txin ∈ tx.vin, Held chain tip coins txin) :
  calculatePrevHeights chain tip coins tx = some (tx.vin.map (inputHeight chain tip coins)) := by
  rw [calculatePrevHeights]
  generalize tx.vin = vin at held
  induction vin with
  | nil => rfl
  | cons txin vin ih =>
    obtain ⟨coin, hf, -⟩ := held txin (.head _)
    have later := ih fun txin' hm => held txin' (.tail _ hm)
    rw [mapM_cons, later, map_cons, inputHeight, hf]
    rfl

/-- The block with the highest coin is in the chain. -/
lemma maxInputHeight_spec {prevHeights : List ℤ}
  (le : ∀ height ∈ prevHeights, height ≤ chain.nHeight tip + 1) :
  ∃ maxInputBlock, chain.getAncestor tip (maxInputHeight chain tip prevHeights)
      = some maxInputBlock ∧ Ancestor chain.pprev maxInputBlock tip ∧
    ∀ height ∈ prevHeights, height ≠ chain.nHeight tip + 1 →
      height ≤ chain.nHeight maxInputBlock := by
  let Highest (done : List ℤ) (highest : ℤ) := 0 ≤ highest ∧ highest ≤ chain.nHeight tip ∧
    ∀ height ∈ done, height ≠ chain.nHeight tip + 1 → height ≤ highest
  obtain ⟨low, high, all⟩ : Highest prevHeights (maxInputHeight chain tip prevHeights) := by
    refine foldl_inv Highest ⟨le_rfl, Int.natCast_nonneg _, by simp⟩ ?_
    intro done height later highest eq ⟨low, high, all⟩
    have := le height (by simp [eq])
    simp only [Highest, forall_mem_append, forall_mem_singleton]
    split_ifs with counts
    · refine ⟨by omega, by omega, fun height' hm below => ?_, fun _ => le_max_right _ _⟩
      exact (all height' hm below).trans (le_max_left _ _)
    · exact ⟨low, high, all, fun counts' => absurd counts' counts⟩
  obtain ⟨maxInputBlock, hf, ha, atHeight⟩ := chain.exists_getAncestor tip low high
  exact ⟨maxInputBlock, hf, ha, fun height hm below => atHeight ▸ all height hm below⟩

lemma calculateLockPointsAtTip_eq (held : ∀ txin ∈ tx.vin, Held chain tip coins txin)
  {locks : LockPair} {heights : List ℤ}
  (run : calculateSequenceLocks tx (withNextTip chain tip) standardLocktimeVerifyFlags
    (tx.vin.map (inputHeight chain tip coins)) none = some (locks, heights))
  (le : ∀ height ∈ heights, height ≤ chain.nHeight tip + 1) :
  ∃ maxInputBlock, calculateLockPointsAtTip chain tip coins tx
      = some (some ⟨locks.nMinHeight, locks.nMinTime, some maxInputBlock⟩) ∧
    Ancestor chain.pprev maxInputBlock tip ∧ ∀ height ∈ heights, height ≠ chain.nHeight tip + 1 →
      height ≤ chain.nHeight maxInputBlock := by
  obtain ⟨maxInputBlock, hf, ha, highest⟩ := maxInputHeight_spec le
  refine ⟨maxInputBlock, ?_, ha, highest⟩
  rw [calculateLockPointsAtTip, calculatePrevHeights_eq held]
  dsimp only
  rw [run, Option.bind_some, hf, map_some]

lemma cleared_le {nCoinHeight : CTxIn → ℤ} {n : ℕ}
  (le : nCoinHeight txin ≤ n + 1) : cleared nCoinHeight txin ≤ n + 1 := by
  rw [cleared]
  split_ifs
  · omega
  · exact le

/-- Every block that the loop looks up is there. -/
lemma Held.known (held : Held chain tip coins txin) :
  ∃ before, (withNextTip chain tip).getAncestor none
    (max (inputHeight chain tip coins txin - 1) 0) = some before := by
  have heights := held.inputHeight_le
  obtain ⟨before, hf, -⟩ := chain.exists_getAncestor tip
    (le_max_right (inputHeight chain tip coins txin - 1) 0) (by omega)
  rw [getAncestor_withNextTip _ _ (by omega), hf]
  exact ⟨_, rfl⟩

/-- Lock points are worked out whenever all coins are there. They pass where the locks of all
inputs are over, and their block is not below any coin of the chain that an input locks. -/
lemma calculateLockPointsAtTip_spec (held : ∀ txin ∈ tx.vin, Held chain tip coins txin) :
  ∃ lp maxInputBlock, calculateLockPointsAtTip chain tip coins tx = some (some lp) ∧
    lp.maxInputBlock = some maxInputBlock ∧ Ancestor chain.pprev maxInputBlock tip ∧
    (∀ nHeight nTime, lp.height < nHeight ∧ lp.time < nTime ↔
      (-1 < nHeight ∧ -1 < nTime) ∧ (2 ≤ tx.version → ∀ txin ∈ tx.vin,
        Over (withNextTip chain tip) none nHeight nTime txin (inputHeight chain tip coins txin))) ∧
    (2 ≤ tx.version → ∀ txin ∈ tx.vin, txin.nSequence &&& sequenceLocktimeDisableFlag = 0 →
      inputHeight chain tip coins txin ≠ chain.nHeight tip + 1 →
        inputHeight chain tip coins txin ≤ chain.nHeight maxInputBlock) := by
  by_cases version : 2 ≤ tx.version
  · obtain ⟨locks, run, below⟩ := sequenceLocksLoop_map
      (fun txin hm _ => (held txin hm).known) ⟨-1, -1⟩
    have run : calculateSequenceLocks tx (withNextTip chain tip) standardLocktimeVerifyFlags
      (tx.vin.map (inputHeight chain tip coins)) none
        = some (locks, tx.vin.map (cleared (inputHeight chain tip coins))) := by
      rw [calculateSequenceLocks, if_neg (by simp), if_neg (not_not.mpr ⟨version, by decide⟩), run]
    obtain ⟨maxInputBlock, hc, ha, highest⟩ := calculateLockPointsAtTip_eq held run
      (forall_mem_map.mpr fun txin hm => cleared_le (held txin hm).inputHeight_le.2)
    refine ⟨_, maxInputBlock, hc, rfl, ha, fun nHeight nTime => ?_, ?_⟩
    · exact (below nHeight nTime).trans (and_congr_right' (imp_iff_right version).symm)
    intro _ txin hm he hco
    have kept : cleared (inputHeight chain tip coins) txin = inputHeight chain tip coins txin :=
      if_neg (not_not.mpr he)
    rw [← kept] at hco ⊢
    exact highest _ (mem_map_of_mem hm) hco
  · obtain ⟨maxInputBlock, hc, ha, -⟩ := calculateLockPointsAtTip_eq held
      (by rw [calculateSequenceLocks, if_neg (by simp), if_pos (fun hen => version hen.1)])
      (forall_mem_map.mpr fun txin hm => (held txin hm).inputHeight_le.2)
    refine ⟨_, maxInputBlock, hc, rfl, ha, fun nHeight nTime => ?_, ?_⟩
    · exact (and_iff_left fun hen => absurd hen version).symm
    · exact fun hen => absurd hen version

lemma checkSequenceLocksAtTip_eq (C : BlockChain B) (tip : B) (lp : LockPoints B) :
  checkSequenceLocksAtTip C tip lp
    = some (decide (lp.height < C.nHeight tip + 1 ∧ lp.time < C.getMedianTimePast tip)) := by
  change some (!(decide (lp.height ≥ (C.nHeight tip + 1 : ℕ)) ||
    decide (lp.time ≥ (withNextTip C tip).getMedianTimePast (some tip)))) = _
  rw [getMedianTimePast_withNextTip, Bool.decide_and, Bool.not_or]
  push_cast
  simp only [ge_iff_le, ← not_le, decide_not]

end

section
variable {B : Type*} {chain : BlockChain B} {tip tip' b : B} {nHeight nTime : ℤ} {txin : CTxIn}
  {coins coins' : CoinsView} {tx : CTransaction} {nCoinHeight : ℤ}

lemma over_withNextTip (le : nCoinHeight ≤ chain.nHeight tip + 1) :
  Over (withNextTip chain tip) none nHeight nTime txin nCoinHeight ↔
    Over chain tip nHeight nTime txin nCoinHeight := by
  simp only [Over, getAncestor_withNextTip chain tip (by omega : max (nCoinHeight - 1) 0 ≤ _),
    map_eq_some_iff]
  refine imp_congr_right fun _ => ?_
  split_ifs
  · constructor
    · rintro ⟨_, ⟨before, hf, rfl⟩, over'⟩
      exact ⟨before, hf, by rwa [getMedianTimePast_withNextTip] at over'⟩
    · rintro ⟨before, hf, over'⟩
      exact ⟨_, ⟨before, hf, rfl⟩, by rwa [getMedianTimePast_withNextTip]⟩
  · exact Iff.rfl

lemma getAncestor_of_above (ha : Ancestor chain.pprev b tip) {height : ℤ}
  (le : height ≤ chain.nHeight b) : chain.getAncestor tip height = chain.getAncestor b height := by
  have below := ha.height_le chain.graded
  rw [BlockChain.getAncestor, BlockChain.getAncestor]
  by_cases hn : height < 0
  · rw [if_pos hn, if_pos hn]
  have steps : chain.nHeight tip - height.toNat
    = (chain.nHeight tip - chain.nHeight b) + (chain.nHeight b - height.toNat) := by omega
  rw [if_neg hn, if_neg hn, ParentTree.getAncestor, ParentTree.getAncestor,
    if_pos (by omega), if_pos (by omega), steps, up_add, ha.up_eq chain.graded]
  rfl

/-- The lock on a coin that is not above a block depends on the chain up to that block only. -/
lemma over_of_above (ha : Ancestor chain.pprev b tip) (le : nCoinHeight ≤ chain.nHeight b) :
  Over chain tip nHeight nTime txin nCoinHeight ↔ Over chain b nHeight nTime txin nCoinHeight := by
  rw [Over, Over, getAncestor_of_above ha (by omega)]

/-- A coin of the mempool counts from the tip. -/
lemma over_mempool (he : txin.nSequence &&& sequenceLocktimeDisableFlag = 0) :
  Over chain tip nHeight nTime txin (chain.nHeight tip + 1) ↔
    if txin.nSequence &&& sequenceLocktimeTypeFlag ≠ 0 then
      chain.getMedianTimePast tip + ((txin.nSequence &&& sequenceLocktimeMask) <<<
        sequenceLocktimeGranularity : ℕ) - 1 < nTime
    else ((chain.nHeight tip : ℤ) + 1 + (txin.nSequence &&& sequenceLocktimeMask : ℕ) - 1).bmod
      (2 ^ 32) < nHeight := by
  have self : chain.getAncestor tip (max ((chain.nHeight tip : ℤ) + 1 - 1) 0) = some tip := by
    rw [add_sub_cancel_right, max_eq_left (by omega), BlockChain.getAncestor, if_neg (by omega)]
    exact getAncestor_of_ancestor chain.graded (.refl tip)
  rw [Over, self]
  simp [he]

/-- Lock points that were worked out at a tip and passed there. -/
def Cached (chain : BlockChain B) (tip : B) (coins : CoinsView) (tx : CTransaction)
  (lp : LockPoints B) : Prop :=
  calculateLockPointsAtTip chain tip coins tx = some (some lp) ∧
    checkSequenceLocksAtTip chain tip lp = some true

/-- The coin of an input is still there: in the chain at the same height, or in the mempool. -/
def StillAvailable (chain : BlockChain B) (tip tip' : B) (coins coins' : CoinsView)
  (txin : CTxIn) : Prop :=
  ∃ coin coin', coins txin.prevout = some coin ∧ coins' txin.prevout = some coin' ∧
    (coin.nHeight = mempoolHeight ∧ coin'.nHeight = mempoolHeight ∨
      coin'.nHeight = coin.nHeight ∧ coin.nHeight ≤ chain.nHeight tip ∧
        coin.nHeight ≤ chain.nHeight tip')

/-- The tip has not moved back behind a relative lock that an input puts on a coin of the mempool:
not in time for a lock by time, and not in height for another. -/
def InputMovedForward (chain : BlockChain B) (tip tip' : B) (coins : CoinsView) (txin : CTxIn) :
  Prop :=
  txin.nSequence &&& sequenceLocktimeDisableFlag = 0 →
    (∃ coin, coins txin.prevout = some coin ∧ coin.nHeight = mempoolHeight) →
    if txin.nSequence &&& sequenceLocktimeTypeFlag ≠ 0 then
      chain.getMedianTimePast tip ≤ chain.getMedianTimePast tip'
    else chain.nHeight tip ≤ chain.nHeight tip'

def MovedForward (chain : BlockChain B) (tip tip' : B) (coins : CoinsView) (tx : CTransaction) :
  Prop :=
  2 ≤ tx.version → ∀ txin ∈ tx.vin, InputMovedForward chain tip tip' coins txin

lemma StillAvailable.held (available : StillAvailable chain tip tip' coins coins' txin) :
  Held chain tip coins txin ∧ Held chain tip' coins' txin := by
  obtain ⟨coin, coin', hf, hf', ⟨mempool, mempool'⟩ | ⟨hs, le, le'⟩⟩ := available
  · exact ⟨⟨coin, hf, .inl mempool⟩, ⟨coin', hf', .inl mempool'⟩⟩
  · exact ⟨⟨coin, hf, .inr le⟩, ⟨coin', hf', .inr (hs ▸ le')⟩⟩

/-- An input counts from the tip if its coin is in the mempool, and otherwise from the same height
as before. -/
lemma StillAvailable.inputHeight_eq (available : StillAvailable chain tip tip' coins coins' txin) :
  ((∃ coin, coins txin.prevout = some coin ∧ coin.nHeight = mempoolHeight) ∧
    inputHeight chain tip coins txin = chain.nHeight tip + 1 ∧
    inputHeight chain tip' coins' txin = chain.nHeight tip' + 1) ∨
  ((¬ ∃ coin, coins txin.prevout = some coin ∧ coin.nHeight = mempoolHeight) ∧
    inputHeight chain tip coins txin ≠ chain.nHeight tip + 1 ∧
    inputHeight chain tip' coins' txin = inputHeight chain tip coins txin) := by
  obtain ⟨coin, coin', hf, hf', places⟩ := available
  simp only [inputHeight, hf, hf', map_some, getD_some, prevHeight,
    Option.some.injEq, exists_eq_left']
  rcases places with ⟨mempool, mempool'⟩ | ⟨hs, le, le'⟩
  · exact .inl ⟨mempool, if_pos mempool, if_pos mempool'⟩
  by_cases mempool : coin.nHeight = mempoolHeight
  · exact .inl ⟨mempool, if_pos mempool, if_pos (hs.trans mempool)⟩
  · rw [if_neg mempool, hs, if_neg mempool]
    exact .inr ⟨mempool, by omega, rfl⟩

/-- The height branch of a lock on a coin of the mempool, which has passed at the old tip and so has
the value zero. -/
lemma wrapped_iff {n n' : ℕ} {nSequence : ℕ} (low : n < 2 ^ 31 - 2 ^ 16)
  (hp : ((n : ℤ) + 1 + (nSequence &&& sequenceLocktimeMask : ℕ) - 1).bmod (2 ^ 32) < n + 1) :
  ((n : ℤ) + 1 + (nSequence &&& sequenceLocktimeMask : ℕ) - 1).bmod (2 ^ 32) < n' + 1 ↔
    ((n' : ℤ) + 1 + (nSequence &&& sequenceLocktimeMask : ℕ) - 1).bmod (2 ^ 32) < n' + 1 ∧
      n ≤ n' := by
  have same : Low ((n : ℤ) + 1) := ⟨by omega, by omega⟩
  rw [same.bmod_eq] at hp ⊢
  have zero : nSequence &&& sequenceLocktimeMask = 0 := by omega
  have wrapped : ((n' : ℤ) + 1 + (0 : ℕ) - 1).bmod (2 ^ 32) < n' + 1 := by
    rw [Int.bmod_def]
    split_ifs <;> omega
  rw [zero, and_iff_right wrapped]
  omega

/-- One input: at the new tip its lock is over for the cached lock points exactly when it is over
for new ones and the tip has not moved back behind it. -/
lemma over_iff (low : chain.nHeight tip < 2 ^ 31 - 2 ^ 16) (ha : Ancestor chain.pprev b tip)
  (ha' : Ancestor chain.pprev b tip') (available : StillAvailable chain tip tip' coins coins' txin)
  (highest : txin.nSequence &&& sequenceLocktimeDisableFlag = 0 →
    inputHeight chain tip coins txin ≠ chain.nHeight tip + 1 →
      inputHeight chain tip coins txin ≤ chain.nHeight b)
  (hp : Over chain tip (chain.nHeight tip + 1) (chain.getMedianTimePast tip) txin
    (inputHeight chain tip coins txin)) :
  Over chain tip (chain.nHeight tip' + 1) (chain.getMedianTimePast tip') txin
      (inputHeight chain tip coins txin) ↔
    Over chain tip' (chain.nHeight tip' + 1) (chain.getMedianTimePast tip') txin
        (inputHeight chain tip' coins' txin) ∧ InputMovedForward chain tip tip' coins txin := by
  rw [InputMovedForward]
  by_cases he : txin.nSequence &&& sequenceLocktimeDisableFlag = 0
  · rcases available.inputHeight_eq with ⟨mempool, height, height'⟩ | ⟨hc, below, hs⟩
    · rw [height, over_mempool he] at hp
      rw [height, height', over_mempool he, over_mempool he]
      simp only [he, mempool, forall_const]
      split_ifs at hp ⊢
      · generalize (txin.nSequence &&& sequenceLocktimeMask) <<< sequenceLocktimeGranularity
          = seconds at hp ⊢
        omega
      · exact wrapped_iff low hp
    · have le := highest he below
      rw [hs, over_of_above ha le, over_of_above ha' le]
      exact (and_iff_left fun _ mempool => absurd mempool hc).symm
  · simp only [Over, he, false_implies, and_self]

/-- Lock points pass at the tip they are worked out for where the locks of all inputs are over. -/
lemma passes_iff_over {lp : LockPoints B} (held : ∀ txin ∈ tx.vin, Held chain tip coins txin)
  (hc : calculateLockPointsAtTip chain tip coins tx = some (some lp)) :
  checkSequenceLocksAtTip chain tip lp = some true ↔
    -1 < chain.getMedianTimePast tip ∧ (2 ≤ tx.version → ∀ txin ∈ tx.vin,
      Over chain tip (chain.nHeight tip + 1) (chain.getMedianTimePast tip) txin
        (inputHeight chain tip coins txin)) := by
  obtain ⟨lp', -, hc', -, -, below, -⟩ := calculateLockPointsAtTip_spec held
  obtain rfl : lp' = lp := Option.some.inj (Option.some.inj (hc'.symm.trans hc))
  have started : (-1 : ℤ) < chain.nHeight tip + 1 := by omega
  rw [checkSequenceLocksAtTip_eq, Option.some.injEq, decide_eq_true_eq, below,
    and_iff_right started]
  exact and_congr_right' (imp_congr_right fun _ => forall₂_congr fun txin hm =>
    over_withNextTip (held txin hm).inputHeight_le.2)

variable [DecidableEq B] {lp : LockPoints B}

lemma contains_iff : contains chain tip b = true ↔ Ancestor chain.pprev b tip := by
  rw [contains, beq_iff_eq, BlockChain.getAncestor, if_neg (by omega), Int.toNat_natCast]
  exact ⟨ancestor_of_getAncestor, getAncestor_of_ancestor chain.graded⟩

/-- Cached lock points pass at a new tip exactly when new ones do and the tip has not moved back. -/
lemma Cached.passes_iff (low : chain.nHeight tip < 2 ^ 31 - 2 ^ 16)
  (hca : Cached chain tip coins tx lp)
  (available : ∀ txin ∈ tx.vin, StillAvailable chain tip tip' coins coins' txin)
  (hv : testLockPointValidity chain tip' lp = true) :
  ∃ fresh, calculateLockPointsAtTip chain tip' coins' tx = some (some fresh) ∧
    (checkSequenceLocksAtTip chain tip' lp = some true ↔
      checkSequenceLocksAtTip chain tip' fresh = some true ∧
        MovedForward chain tip tip' coins tx) := by
  have held := fun txin hm => (available txin hm).held
  obtain ⟨lp', b, hc, block, ha, below, highest⟩ :=
    calculateLockPointsAtTip_spec fun txin hm => (held txin hm).1
  obtain ⟨fresh, -, hc', -⟩ := calculateLockPointsAtTip_spec fun txin hm => (held txin hm).2
  obtain ⟨recorded, passed⟩ := hca
  obtain rfl : lp' = lp := Option.some.inj (Option.some.inj (hc.symm.trans recorded))
  have above' : Ancestor chain.pprev b tip' := by
    rw [testLockPointValidity, block] at hv
    exact contains_iff.mp hv
  refine ⟨fresh, hc', ?_⟩
  rw [passes_iff_over (fun txin hm => (held txin hm).1) hc] at passed
  have started : (-1 : ℤ) < chain.nHeight tip' + 1 := by omega
  rw [passes_iff_over (fun txin hm => (held txin hm).2) hc', checkSequenceLocksAtTip_eq,
    Option.some.injEq, decide_eq_true_eq, below, and_iff_right started]
  have each (version : 2 ≤ tx.version) (txin : CTxIn) (hm : txin ∈ tx.vin) :
    Over (withNextTip chain tip) none (chain.nHeight tip' + 1) (chain.getMedianTimePast tip') txin
        (inputHeight chain tip coins txin) ↔
      Over chain tip' (chain.nHeight tip' + 1) (chain.getMedianTimePast tip') txin
          (inputHeight chain tip' coins' txin) ∧ InputMovedForward chain tip tip' coins txin := by
    rw [over_withNextTip (held txin hm).1.inputHeight_le.2]
    exact over_iff low ha above' (available txin hm) (highest version txin hm)
      (passed.2 version txin hm)
  constructor
  · rintro ⟨past, all⟩
    have both := fun version txin hm => (each version txin hm).mp (all version txin hm)
    exact ⟨⟨past, fun version txin hm => (both version txin hm).1⟩,
      fun version txin hm => (both version txin hm).2⟩
  · rintro ⟨⟨past, all⟩, forward⟩
    exact ⟨past, fun version txin hm => (each version txin hm).mpr
      ⟨all version txin hm, forward version txin hm⟩⟩

/-- **Cached lock points.** While the inputs and the highest block they depend on stay, lock points
that passed give at a later tip the same answer as new ones exactly where the tip has not moved back
behind a lock on a coin of the mempool, or where the lock of some input is not over. -/
theorem cachedLockPoints_agree (times : ∀ b, 0 ≤ chain.nTime b)
  (low : chain.nHeight tip < 2 ^ 31 - 2 ^ 16) (cached : Cached chain tip coins tx lp)
  (available : ∀ txin ∈ tx.vin, StillAvailable chain tip tip' coins coins' txin)
  (valid : testLockPointValidity chain tip' lp = true) :
  ∃ fresh, calculateLockPointsAtTip chain tip' coins' tx = some (some fresh) ∧
    (checkSequenceLocksAtTip chain tip' lp = checkSequenceLocksAtTip chain tip' fresh ↔
      MovedForward chain tip tip' coins tx ∨ 2 ≤ tx.version ∧ ∃ txin ∈ tx.vin,
        ¬ Over chain tip' (chain.nHeight tip' + 1) (chain.getMedianTimePast tip') txin
          (inputHeight chain tip' coins' txin)) := by
  obtain ⟨fresh, hc, hp⟩ := cached.passes_iff low available valid
  have hf := passes_iff_over (fun txin hm => (available txin hm).held.2) hc
  have past := getMedianTimePast_of_times (P := fun t => 0 ≤ t) le_rfl times tip'
  rw [and_iff_right (by omega)] at hf
  refine ⟨fresh, hc, ?_⟩
  simp only [checkSequenceLocksAtTip_eq, Option.some.injEq, decide_eq_true_eq,
    decide_eq_decide] at hp hf ⊢
  rw [hp, hf, and_iff_left_iff_imp, imp_iff_or_not]
  push Not
  rfl

/-- A spend of a coin in the mempool with a relative lock of zero, of a coin two blocks old and of
one that is old enough in time. -/
def mixedSpend : CTransaction :=
  ⟨[⟨⟨1, 0⟩, [], 0, []⟩, ⟨⟨2, 0⟩, [], 2, []⟩, ⟨⟨3, 0⟩, [], 2 ^ 22 + 1, []⟩], [], 2, 0, 7, 7⟩

/-- One coin in the mempool, the others in the second block. -/
def mixedCoins : CoinsView := fun outpoint =>
  if outpoint.hash = 1 then some ⟨⟨1, []⟩, false, mempoolHeight⟩ else some ⟨⟨1, []⟩, false, 1⟩

theorem cachedLockPoints_agree_mixedSpend :
  ∃ fresh, calculateLockPointsAtTip everyTenMinutes 6 mixedCoins mixedSpend = some (some fresh) ∧
    checkSequenceLocksAtTip everyTenMinutes 6 ⟨5, 511, some 1⟩
      = checkSequenceLocksAtTip everyTenMinutes 6 fresh := by
  have cached : Cached everyTenMinutes 5 mixedCoins mixedSpend ⟨5, 511, some 1⟩ :=
    ⟨by decide, by decide⟩
  have available : ∀ txin ∈ mixedSpend.vin,
    StillAvailable everyTenMinutes 5 6 mixedCoins mixedCoins txin := by
    intro txin hm
    simp only [mixedSpend, mem_cons, not_mem_nil, or_false] at hm
    rcases hm with rfl | rfl | rfl
    · exact ⟨_, _, rfl, rfl, .inl ⟨rfl, rfl⟩⟩
    · exact ⟨_, _, rfl, rfl, .inr ⟨rfl, by decide, by decide⟩⟩
    · exact ⟨_, _, rfl, rfl, .inr ⟨rfl, by decide, by decide⟩⟩
  obtain ⟨fresh, hc, agree⟩ := cachedLockPoints_agree (fun _ => by simp [everyTenMinutes])
    (by decide) cached available (by decide)
  refine ⟨fresh, hc, agree.mpr (.inl fun _ txin _ _ _ => ?_)⟩
  split_ifs
  · decide
  · decide

/-- A spend of a coin in the mempool with a relative lock of zero. -/
def zeroLockSpend : CTransaction := ⟨[⟨⟨1, 0⟩, [], 0, []⟩], [], 2, 0, 7, 7⟩

/-- After the last block is disconnected the cached lock points of a transaction that can be in the
next block do not pass. -/
theorem cachedLockPoints_disagree_disconnected :
  Cached everyTenMinutes 5 mixedCoins zeroLockSpend ⟨5, -1, some 0⟩ ∧ (∀ txin ∈ zeroLockSpend.vin,
      StillAvailable everyTenMinutes 5 4 mixedCoins mixedCoins txin) ∧
    testLockPointValidity everyTenMinutes 4 ⟨5, -1, some 0⟩ = true ∧
    checkSequenceLocksAtTip everyTenMinutes 4 ⟨5, -1, some 0⟩ = some false ∧
    ∃ fresh, calculateLockPointsAtTip everyTenMinutes 4 mixedCoins zeroLockSpend
        = some (some fresh) ∧ checkSequenceLocksAtTip everyTenMinutes 4 fresh = some true := by
  refine ⟨⟨by decide, by decide⟩, ?_, by decide, by decide, ⟨4, -1, some 0⟩, by decide, by decide⟩
  intro txin hm
  rw [mem_singleton.mp hm]
  exact ⟨_, _, rfl, rfl, .inl ⟨rfl, rfl⟩⟩

end

variable {B : Type*} {C : BlockChain B} {tip tip' : B} {coins : CoinsView} {lp : LockPoints B}
  {mempool : Txid → Option CTransaction} {coinsTip : CoinsView} {it it' : CTxMemPoolEntry B}

lemma spendsImmature_eq_false {vin : List CTxIn}
  (hm : spendsImmature C tip mempool coinsTip vin = some false) :
  ∀ txin ∈ vin, mempool txin.prevout.hash = none →
    ∃ coin, coinsTip txin.prevout = some coin ∧ coin.isSpent = false ∧
      (coin.fCoinBase = true → (coinbaseMaturity : ℤ) ≤ C.nHeight tip + 1 - coin.nHeight) := by
  induction vin with
  | nil => simp
  | cons first vin ih =>
    rw [spendsImmature] at hm
    cases found : coinsTip first.prevout <;> grind [Coin.empty_isSpent]

lemma passing_eq_some {passed : LockPoints B} (hp : passing C tip lp = some (some passed)) :
  passed = lp ∧ checkSequenceLocksAtTip C tip lp = some true := by
  obtain ⟨answer, hc, eq⟩ := map_eq_some_iff.mp hp
  cases answer with
  | false => cases eq
  | true => exact ⟨(Option.some.inj eq).symm, hc⟩

variable [DecidableEq B]

/-- Lock points that the filter goes on with pass at the new tip, and so do new ones. -/
lemma refreshLockPoints_spec (low : C.nHeight tip < 2 ^ 31 - 2 ^ 16)
  (hcac : Cached C tip coins it.tx it.lockPoints) (available : ∀ txin ∈ it.tx.vin,
    StillAvailable C tip tip' coins (viewMempool mempool coinsTip) txin)
  (hr : refreshLockPoints C tip' mempool coinsTip it = some (some lp)) :
  checkSequenceLocksAtTip C tip' lp = some true ∧
    ∃ fresh, Cached C tip' (viewMempool mempool coinsTip) it.tx fresh ∧
      (lp = it.lockPoints ∨ lp = fresh) := by
  rw [refreshLockPoints] at hr
  split at hr
  case isTrue hv =>
    obtain ⟨rfl, hc⟩ := passing_eq_some hr
    obtain ⟨fresh, hca, hp⟩ := hcac.passes_iff low available hv
    exact ⟨hc, fresh, ⟨hca, (hp.mp hc).1⟩, .inl rfl⟩
  case isFalse =>
    obtain ⟨fresh, hca, hp⟩ := Option.bind_eq_some_iff.mp hr
    cases fresh with
    | none => cases hp
    | some fresh =>
      obtain ⟨rfl, hc⟩ := passing_eq_some hp
      exact ⟨hc, lp, ⟨hca, hc⟩, .inr rfl⟩

/-- The entries that stay after a reorganisation can be in the next block, by lock points worked
out at the new tip as well, and their own lock points pass there. -/
theorem filterFinalAndMature_keeps (low : C.nHeight tip < 2 ^ 31 - 2 ^ 16)
  (hca : Cached C tip coins it.tx it.lockPoints) (available : ∀ txin ∈ it.tx.vin,
    StillAvailable C tip tip' coins (viewMempool mempool coinsTip) txin)
  (hk : filterFinalAndMature C tip' mempool coinsTip it = some (false, it')) :
  it'.tx = it.tx ∧ checkFinalTxAtTip C tip' it.tx = true ∧
    checkSequenceLocksAtTip C tip' it'.lockPoints = some true ∧
    (∃ fresh, Cached C tip' (viewMempool mempool coinsTip) it.tx fresh ∧
      (it'.lockPoints = it.lockPoints ∨ it'.lockPoints = fresh)) ∧
    (it.spendsCoinbase = true → ∀ txin ∈ it.tx.vin, mempool txin.prevout.hash = none →
      ∃ coin, coinsTip txin.prevout = some coin ∧ coin.isSpent = false ∧ (coin.fCoinBase = true →
          (coinbaseMaturity : ℤ) ≤ C.nHeight tip' + 1 - coin.nHeight)) := by
  rw [filterFinalAndMature] at hk
  split_ifs at hk with final
  swap
  · cases hk
  obtain ⟨_ | lockPoints, refresh, hk⟩ := Option.bind_eq_some_iff.mp hk
  · cases hk
  obtain ⟨hp, fresh, hc, origin⟩ := refreshLockPoints_spec low hca available refresh
  have entry : it' = { it with lockPoints } ∧ (it.spendsCoinbase = true →
    spendsImmature C tip' mempool coinsTip it.tx.vin = some false) := by
    dsimp only [Option.elim_some] at hk
    split_ifs at hk with spends
    · obtain ⟨immature, loop, eq⟩ := map_eq_some_iff.mp hk
      cases eq
      exact ⟨rfl, fun _ => loop⟩
    · cases hk
      exact ⟨rfl, fun base => absurd base spends⟩
  obtain ⟨rfl, mature⟩ := entry
  exact ⟨rfl, by simpa using final, hp, ⟨fresh, hc, origin⟩,
    fun base => spendsImmature_eq_false (mature base)⟩

def agedCoins : CoinsView := fun _ => some ⟨⟨1, []⟩, false, 1⟩

def agedSpend : CTxMemPoolEntry ℕ :=
  ⟨⟨[⟨⟨2, 0⟩, [], 2, []⟩], [], 2, 0, 7, 7⟩, ⟨2, -1, some 1⟩, true⟩

theorem filterFinalAndMature_keeps_agedSpend :
  checkSequenceLocksAtTip everyTenMinutes 6 agedSpend.lockPoints = some true := by
  have cached : Cached everyTenMinutes 5 agedCoins agedSpend.tx agedSpend.lockPoints :=
    ⟨by decide, by decide⟩
  have kept : filterFinalAndMature everyTenMinutes 6 (fun _ => none) agedCoins agedSpend
    = some (false, agedSpend) := rfl
  refine (filterFinalAndMature_keeps (by decide) cached (fun txin hm => ?_) kept).2.2.1
  rw [mem_singleton.mp hm]
  exact ⟨_, _, rfl, rfl, .inr ⟨rfl, by decide, by decide⟩⟩

end MempoolLocks
