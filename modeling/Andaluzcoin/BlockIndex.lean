import Andaluzcoin.ParentTree
import Andaluzcoin.Ranking

/-!
# The block index of a chainstate

What `BlockManager`, `ChainstateManager` and the one `Chainstate` keep about the block
tree, without pruning and without a snapshot: the fields of `CBlockIndex` as functions of
the entry, the candidates for the next tip, the blocks that wait for a parent, the tip and
the best header. An entry is named by its address, which stands for its hash as well.
-/

namespace BlockIndex

open ParentTree Ranking

abbrev BlockId := ℕ

/-- The entries and what is fixed when they are added: a tree under genesis. -/
structure BlockMap where
  ids : List BlockId
  genesis : BlockId
  pprev : BlockId → Option BlockId
  nHeight : BlockId → ℕ
  nChainWork : BlockId → ℕ
  nodup : ids.Nodup
  rooted : ∀ b ∈ ids, (pprev b = none ∧ nHeight b = 0 ∧ b = genesis) ∨
    ∃ p ∈ ids, pprev b = some p ∧ nHeight b = nHeight p + 1
  outside : ∀ b, b ∉ ids → pprev b = none

namespace BlockMap

variable (index : BlockMap)

/-- One block is on the path from genesis to the other. -/
def Above (a b : BlockId) : Prop := Ancestor index.pprev a b

def getAncestor (b : BlockId) (height : ℕ) : Option BlockId :=
  ParentTree.getAncestor index.pprev index.nHeight b height

/-- `b->GetAncestor(a->nHeight) == a`. -/
def descends (b a : BlockId) : Bool := index.getAncestor b (index.nHeight a) == some a

end BlockMap

/-- The levels of `BLOCK_VALID_MASK`. -/
inductive Validity where
  | unknown
  | reserved
  | tree
  | transactions
  | chain
  | scripts
  deriving DecidableEq

def Validity.level : Validity → ℕ
  | unknown => 0
  | reserved => 1
  | tree => 2
  | transactions => 3
  | chain => 4
  | scripts => 5

structure Chainstate where
  index : BlockMap
  nTx : BlockId → ℕ
  chainTxCount : BlockId → ℕ
  validity : BlockId → Validity
  haveData : BlockId → Bool
  failedValid : BlockId → Bool
  nSequenceId : BlockId → Int
  setBlockIndexCandidates : List BlockId
  blocksUnlinked : List (BlockId × BlockId)
  tip : BlockId
  bestHeader : BlockId
  bestInvalid : Option BlockId
  nBlockSequenceId : Int
  nBlockReverseSequenceId : Int
  nLastPreciousChainwork : ℕ

inductive ChainError where
  | assertion (what : String)
  | outOfFuel
  deriving DecidableEq

namespace Chainstate

variable (s : Chainstate)

/-- `CBlockIndexWorkComparator`, with the addresses of the entries as last resort. -/
def workLess (pa pb : ℕ) : Bool :=
  if s.index.nChainWork pa > s.index.nChainWork pb then false
  else if s.index.nChainWork pa < s.index.nChainWork pb then true
  else if s.nSequenceId pa < s.nSequenceId pb then false
  else if s.nSequenceId pa > s.nSequenceId pb then true
  else if pa < pb then false
  else if pa > pb then true
  else false

/-- `m_chain.Contains`: the active chain is the path to the tip. -/
def contains (b : BlockId) : Bool := s.index.descends s.tip b

def haveNumChainTxs (b : BlockId) : Bool := s.chainTxCount b != 0

def isValid (b : BlockId) (nUpTo : Validity) : Bool :=
  !s.failedValid b && (s.validity b).level ≥ nUpTo.level

def raiseValidity (b : BlockId) (nUpTo : Validity) : Chainstate :=
  if s.failedValid b || (s.validity b).level ≥ nUpTo.level then s
  else { s with validity := Function.update s.validity b nUpTo }

def markFailed (blocks : List BlockId) : Chainstate :=
  { s with failedValid := fun b => s.failedValid b || decide (b ∈ blocks) }

def insertCandidate (b : BlockId) : Chainstate :=
  { s with setBlockIndexCandidates := s.setBlockIndexCandidates.insert b }

def eraseCandidates (blocks : List BlockId) : Chainstate :=
  { s with setBlockIndexCandidates := s.setBlockIndexCandidates.filter (· ∉ blocks) }

def setBlockFailureFlags (invalidBlock : BlockId) : Chainstate :=
  s.markFailed (s.index.ids.filter fun b => b ≠ invalidBlock ∧ s.index.descends b invalidBlock)

/-- The loop over the index goes on from the better header. -/
def recalculateBestHeader : Chainstate :=
  { s with bestHeader := s.index.ids.foldl (fun best b =>
      if !s.failedValid b && decide (s.index.nChainWork best < s.index.nChainWork b) then b
      else best) s.tip }

def noteInvalid (pindexNew : BlockId) : Chainstate :=
  match s.bestInvalid with
  | some best =>
    if s.index.nChainWork pindexNew > s.index.nChainWork best then
      { s with bestInvalid := some pindexNew }
    else s
  | none => { s with bestInvalid := some pindexNew }

def invalidChainFound (pindexNew : BlockId) : Chainstate :=
  let s := (s.noteInvalid pindexNew).setBlockFailureFlags pindexNew
  if s.index.descends s.bestHeader pindexNew then s.recalculateBestHeader else s

/-- `InvalidBlockFound` for a block that was not mutated. -/
def invalidBlockFound (pindex : BlockId) : Chainstate :=
  ((s.markFailed [pindex]).eraseCandidates [pindex]).invalidChainFound pindex

def pruneBlockIndexCandidates : Except ChainError Chainstate :=
  let pruned := s.setBlockIndexCandidates.filter fun c => !s.workLess c s.tip
  if pruned.isEmpty then .error (.assertion "!setBlockIndexCandidates.empty()")
  else .ok { s with setBlockIndexCandidates := pruned }

/-- The first block on the way from a candidate to the active chain that cannot be used. -/
def firstUnusable : ℕ → BlockId → Except ChainError (Option BlockId)
  | 0, _ => .error .outOfFuel
  | fuel + 1, pindexTest =>
    if s.contains pindexTest then .ok none
    else if !s.haveNumChainTxs pindexTest && s.index.nHeight pindexTest != 0 then
      .error (.assertion "pindexTest->HaveNumChainTxs() || pindexTest->nHeight == 0")
    else if s.failedValid pindexTest || !s.haveData pindexTest then .ok (some pindexTest)
    else
      match s.index.pprev pindexTest with
      | none => .ok none
      | some prev => firstUnusable fuel prev

/-- Remove an unusable chain from the candidates, and mark it or let it wait for the data. -/
def dropChain (pindexNew pindexTest : BlockId) : Chainstate :=
  let fFailedChain := s.failedValid pindexTest
  let chain := trail s.index.pprev (s.index.nHeight pindexNew - s.index.nHeight pindexTest) pindexNew
  let s := if fFailedChain then (s.noteInvalid pindexNew).markFailed chain
    else { s with blocksUnlinked := s.blocksUnlinked
      ++ chain.filterMap fun b => (s.index.pprev b).map (·, b) }
  s.eraseCandidates (pindexTest :: chain)

end Chainstate

/-- The loop of `FindMostWorkChain`. -/
def findMostWork : ℕ → Chainstate → Except ChainError (Option BlockId × Chainstate)
  | 0, _ => .error .outOfFuel
  | fuel + 1, s =>
    match greatest s.workLess s.setBlockIndexCandidates with
    | none => .ok (none, s)
    | some pindexNew => do
      match ← s.firstUnusable (s.index.nHeight pindexNew + 1) pindexNew with
      | none => .ok (some pindexNew, s)
      | some pindexTest => findMostWork fuel (s.dropChain pindexNew pindexTest)

def findMostWorkChain (s : Chainstate) : Except ChainError (Option BlockId × Chainstate) :=
  findMostWork (s.setBlockIndexCandidates.length + 1) s

end BlockIndex
