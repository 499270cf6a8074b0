import Andaluzcoin.ActivateBestChain
import Andaluzcoin.Pow

/-!
# Operations on the block index

`AcceptBlockHeader` with `AddToBlockIndex`, `ReceivedBlockTransactions`, `InvalidateBlock`,
`ResetBlockFailureFlags` and `PreciousBlock` of `validation.cpp` and `node/blockstorage.cpp`,
for one chainstate without pruning and without a snapshot.
-/

namespace BlockIndexOps

open BlockIndex ActivateBestChain Pow List Function

/-- `SEQ_ID_INIT_FROM_DISK`. -/
def seqIdInitFromDisk : Int := 1

/-- A header with what the checks read. The entry it gets is named by its hash; the outcome of
`ContextualCheckBlockHeader` is a field. -/
structure BlockHeader where
  id : BlockId
  hashPrevBlock : BlockId
  nBits : BitVec 32
  hash : ArithUint256
  contextualCheck : Bool
  deriving DecidableEq

inductive HeaderResult where
  | accepted
  | duplicateInvalid
  | highHash
  | prevBlkNotFound
  | badPrevblk
  | contextual
  | tooLittleChainwork
  deriving DecidableEq

/-- `CheckBlockHeader`: the hash meets the target that the bits stand for. -/
def checkBlockHeader (powLimit : ArithUint256) (block : BlockHeader) : Bool :=
  match deriveTarget block.nBits powLimit with
  | none => false
  | some target => block.hash ≤ target

/-- The tree with one more entry. -/
def addEntry (index : BlockMap) (id prev : BlockId) (work : ℕ) (fresh : id ∉ index.ids)
  (known : prev ∈ index.ids) : BlockMap where
  ids := index.ids ++ [id]
  genesis := index.genesis
  pprev := update index.pprev id (some prev)
  nHeight := update index.nHeight id (index.nHeight prev + 1)
  nChainWork := update index.nChainWork id (index.nChainWork prev + work)
  nodup := by
    rw [nodup_append]
    refine ⟨index.nodup, nodup_singleton id, ?_⟩
    rintro a old b new rfl
    exact fresh (mem_singleton.mp new ▸ old)
  rooted := by
    intro b member
    rcases mem_append.mp member with old | new
    · have ne : b ≠ id := fun same => fresh (same ▸ old)
      rw [update_of_ne ne, update_of_ne ne]
      rcases index.rooted b old with root | ⟨p, inside, edge, height⟩
      · exact .inl root
      have neParent : p ≠ id := fun same => fresh (same ▸ inside)
      refine .inr ⟨p, mem_append_left _ inside, edge, ?_⟩
      rw [update_of_ne neParent]
      exact height
    · obtain rfl := mem_singleton.mp new
      have ne : prev ≠ b := fun same => fresh (same ▸ known)
      refine .inr ⟨prev, mem_append_left _ known, by simp, ?_⟩
      rw [update_self, update_of_ne ne]
  outside := by
    intro b away
    have ne : b ≠ id := fun same => away (by simp [same])
    rw [update_of_ne ne]
    exact index.outside b fun old => away (mem_append_left _ old)

/-- `AddToBlockIndex` of a header that is not in the index, after a header that is. -/
def addToBlockIndex (s : Chainstate) (id prev : BlockId) (work : ℕ) (fresh : id ∉ s.index.ids)
  (known : prev ∈ s.index.ids) : Chainstate :=
  let index := addEntry s.index id prev work fresh known
  { s with
    index := index
    nTx := update s.nTx id 0
    chainTxCount := update s.chainTxCount id 0
    validity := update s.validity id .tree
    haveData := update s.haveData id false
    failedValid := update s.failedValid id false
    nSequenceId := update s.nSequenceId id seqIdInitFromDisk
    bestHeader := if index.nChainWork s.bestHeader < index.nChainWork id then id else s.bestHeader }

/-- The hash of genesis is not checked, and as its entry is there nothing is added for it. -/
def acceptBlockHeader (powLimit : ArithUint256) (s : Chainstate) (block : BlockHeader)
  (minPowChecked : Bool) : HeaderResult × Chainstate :=
  if block.id = s.index.genesis then
    if !minPowChecked then (.tooLittleChainwork, s) else (.accepted, s)
  else if fresh : block.id ∈ s.index.ids then
    if s.failedValid block.id then (.duplicateInvalid, s) else (.accepted, s)
  else if !checkBlockHeader powLimit block then (.highHash, s)
  else if known : block.hashPrevBlock ∈ s.index.ids then
    if s.failedValid block.hashPrevBlock then (.badPrevblk, s)
    else if !block.contextualCheck then (.contextual, s)
    else if !minPowChecked then (.tooLittleChainwork, s)
    else (.accepted, addToBlockIndex s block.id block.hashPrevBlock
      (getBitsProof block.nBits).toNat fresh known)
  else (.prevBlkNotFound, s)

def tryAddBlockIndexCandidate (s : Chainstate) (pindex : BlockId) : Chainstate :=
  if s.workLess pindex s.tip then s else s.insertCandidate pindex

/-- `prev_tx_sum`. -/
def prevTxSum (s : Chainstate) (b : BlockId) : ℕ :=
  s.nTx b + match s.index.pprev b with
    | none => 0
    | some prev => s.chainTxCount prev

/-- Count the transactions up to a block all of whose ancestors are there, and number it. -/
def linkBlock (s : Chainstate) (pindex : BlockId) : Chainstate :=
  tryAddBlockIndexCandidate { s with
    chainTxCount := update s.chainTxCount pindex (prevTxSum s pindex)
    nSequenceId := update s.nSequenceId pindex s.nBlockSequenceId
    nBlockSequenceId := s.nBlockSequenceId + 1 } pindex

/-- The loop over the blocks that can be linked, with those that waited for them. -/
def linkQueue : ℕ → List BlockId → Chainstate → Except ChainError Chainstate
  | _, [], s => .ok s
  | 0, _ :: _, _ => .error .outOfFuel
  | fuel + 1, pindex :: queue, s =>
    let linked := linkBlock s pindex
    let waiting := linked.blocksUnlinked.filter (·.1 = pindex)
    linkQueue fuel (queue ++ waiting.map Prod.snd)
      { linked with blocksUnlinked := linked.blocksUnlinked.filter (·.1 ≠ pindex) }

def receivedBlockTransactions (s : Chainstate) (pindexNew : BlockId) (nTx : ℕ) :
  Except ChainError Chainstate :=
  let s := { s with
    nTx := update s.nTx pindexNew nTx
    haveData := update s.haveData pindexNew true }.raiseValidity pindexNew .transactions
  match s.index.pprev pindexNew with
  | none => linkQueue (s.blocksUnlinked.length + 1) [pindexNew] s
  | some prev =>
    if s.haveNumChainTxs prev then linkQueue (s.blocksUnlinked.length + 1) [pindexNew] s
    else if s.isValid prev .tree then
      .ok { s with blocksUnlinked := s.blocksUnlinked ++ [(prev, pindexNew)] }
    else .ok s

/-- `AcceptBlock` hands a block on when its header is known and not failed, its data is not
there yet and it has transactions. -/
def acceptBlock (s : Chainstate) (pindex : BlockId) (nTx : ℕ) : Except ChainError Chainstate :=
  if pindex ∈ s.index.ids ∧ s.failedValid pindex = false ∧ s.haveData pindex = false ∧ nTx ≠ 0 then
    receivedBlockTransactions s pindex nTx
  else .ok s

/-- The variables of the loop of `InvalidateBlock`. -/
structure Invalidation where
  state : Chainstate
  headers : List BlockId
  toMarkFailed : BlockId
  pindexWasInChain : Bool

/-- What the loop over `highpow_outofchain_headers` does with one of them. -/
def considerHeader (disconnectedTip newTip : BlockId) (needsUpdate : Bool)
  (s : Chainstate) (candidate : BlockId) : Chainstate :=
  if s.index.nChainWork candidate < s.index.nChainWork newTip then s
  else if s.index.descends candidate disconnectedTip then s.markFailed [candidate]
  else
    let s := if !s.workLess candidate newTip && s.isValid candidate .transactions
      && s.haveNumChainTxs candidate then s.insertCandidate candidate else s
    if needsUpdate && s.index.nChainWork s.bestHeader < s.index.nChainWork candidate
    then { s with bestHeader := candidate } else s

/-- One round of the loop, which disconnects the tip and marks it. The headers that descend
from it leave the cache. -/
def invalidateTip (at_ : Invalidation) : Except ChainError Invalidation := do
  let disconnectedTip := at_.state.tip
  let s ← disconnectTip at_.state
  let newTip := s.tip
  let needsUpdate := s.index.descends s.bestHeader disconnectedTip
  let s := ((s.markFailed [disconnectedTip]).eraseCandidates [disconnectedTip]).insertCandidate newTip
  let s := { s with bestHeader := if needsUpdate then newTip else s.bestHeader }
  .ok {
    state := at_.headers.foldl (considerHeader disconnectedTip newTip needsUpdate) s
    headers := at_.headers.filter fun c =>
      s.index.nChainWork c < s.index.nChainWork newTip || !s.index.descends c disconnectedTip
    toMarkFailed := disconnectedTip
    pindexWasInChain := true }

def invalidateLoop (pindex : BlockId) : ℕ → Invalidation → Except ChainError Invalidation
  | 0, at_ => if at_.state.contains pindex then .error .outOfFuel else .ok at_
  | fuel + 1, at_ =>
    if at_.state.contains pindex then invalidateTip at_ >>= invalidateLoop pindex fuel else .ok at_

/-- Every block that can be connected and is not worse than the tip becomes a candidate. -/
def addMissingCandidates (s : Chainstate) : Chainstate :=
  s.index.ids.foldl (fun s b =>
    if s.isValid b .transactions && s.haveNumChainTxs b && !s.workLess b s.tip
    then s.insertCandidate b else s) s

/-- The blocks outside the active chain that may become candidates. -/
def highpowOutofchainHeaders (s : Chainstate) (prev : BlockId) : List BlockId :=
  s.index.ids.filter fun c => !s.contains c && !s.workLess c prev && !s.failedValid c

/-- What is done after the loop. -/
def finishInvalidation (pindex : BlockId) (at_ : Invalidation) : Chainstate :=
  if at_.state.contains at_.toMarkFailed then at_.state
  else
    let s := if !at_.pindexWasInChain && !at_.state.failedValid pindex
      then (at_.state.markFailed [pindex]).eraseCandidates [pindex] else at_.state
    (addMissingCandidates s).invalidChainFound at_.toMarkFailed

def invalidateBlock (s : Chainstate) (pindex : BlockId) : Except ChainError Chainstate :=
  if s.index.nHeight pindex = 0 then .ok s
  else
    match s.index.pprev pindex with
    | none => .error (.assertion "pindex->pprev")
    | some prev => (invalidateLoop pindex (s.index.nHeight s.tip)
        ⟨s, highpowOutofchainHeaders s prev, pindex, false⟩).map (finishInvalidation pindex)

/-- What the loop of `ResetBlockFailureFlags` does with one entry. -/
def resetFlag (pindex : BlockId) (s : Chainstate) (b : BlockId) : Chainstate :=
  if s.failedValid b && (s.index.descends b pindex || s.index.descends pindex b) then
    let s := { s with failedValid := update s.failedValid b false }
    let s := if s.isValid b .transactions && s.haveNumChainTxs b && s.workLess s.tip b
      then s.insertCandidate b else s
    if s.bestInvalid = some b then { s with bestInvalid := none } else s
  else s

def resetBlockFailureFlags (s : Chainstate) (pindex : BlockId) : Chainstate :=
  s.index.ids.foldl (resetFlag pindex) s

/-- The lowest `int32_t`. -/
def lowestSequenceId : Int := -2 ^ 31

/-- The number that the next precious block gets: the counter starts anew when the chain has
been extended since the last call. -/
def preciousSequenceId (s : Chainstate) : Int :=
  if s.index.nChainWork s.tip > s.nLastPreciousChainwork then -1 else s.nBlockReverseSequenceId

/-- `PreciousBlock` up to the call of `ActivateBestChain`, unless the block has too little work. -/
def makePrecious (s : Chainstate) (pindex : BlockId) : Except ChainError Chainstate :=
  let id := preciousSequenceId s
  let s := { s.eraseCandidates [pindex] with
    nLastPreciousChainwork := s.index.nChainWork s.tip
    nSequenceId := update s.nSequenceId pindex id
    nBlockReverseSequenceId := if id > lowestSequenceId then id - 1 else id }
  if s.isValid pindex .transactions && s.haveNumChainTxs pindex then
    (s.insertCandidate pindex).pruneBlockIndexCandidates
  else .ok s

def preciousBlock (connects : BlockId → Bool) (s : Chainstate) (pindex : BlockId) :
  Except ChainError Chainstate :=
  if s.index.nChainWork pindex < s.index.nChainWork s.tip then .ok s
  else makePrecious s pindex >>= activateBestChain connects

/-- The operations, with the outcomes of `ConnectBlock` where blocks are connected. -/
inductive Operation where
  | acceptBlockHeader (block : BlockHeader) (minPowChecked : Bool)
  | receivedBlockTransactions (pindex : BlockId) (nTx : ℕ)
  | activateBestChain (connects : BlockId → Bool)
  | invalidateBlock (pindex : BlockId)
  | resetBlockFailureFlags (pindex : BlockId)
  | preciousBlock (pindex : BlockId) (connects : BlockId → Bool)

namespace Operation

/-- Entries are given by pointers, so an operation names an entry of the index. -/
def run (powLimit : ArithUint256) (s : Chainstate) : Operation → Except ChainError Chainstate
  | .acceptBlockHeader block minPowChecked =>
    .ok (BlockIndexOps.acceptBlockHeader powLimit s block minPowChecked).2
  | .receivedBlockTransactions pindex nTx => acceptBlock s pindex nTx
  | .activateBestChain connects => ActivateBestChain.activateBestChain connects s
  | .invalidateBlock pindex =>
    if pindex ∈ s.index.ids then BlockIndexOps.invalidateBlock s pindex else .ok s
  | .resetBlockFailureFlags pindex =>
    if pindex ∈ s.index.ids then
      .ok (BlockIndexOps.resetBlockFailureFlags s pindex).recalculateBestHeader
    else .ok s
  | .preciousBlock pindex connects =>
    if pindex ∈ s.index.ids then BlockIndexOps.preciousBlock connects s pindex else .ok s

/-- The outcomes of `ConnectBlock` that the operation may ask for. -/
def outcomes : Operation → Option (BlockId → Bool)
  | .activateBestChain connects => some connects
  | .preciousBlock _ connects => some connects
  | _ => none

end Operation

def runAll (powLimit : ArithUint256) : List Operation → Chainstate → Except ChainError Chainstate
  | [], s => .ok s
  | op :: ops, s => op.run powLimit s >>= runAll powLimit ops

/-- An index that holds only genesis, with its data. -/
def genesisOnly (genesis : BlockId) (work nTx : ℕ) : Chainstate where
  index :=
    { ids := [genesis]
      genesis := genesis
      pprev := fun _ => none
      nHeight := fun _ => 0
      nChainWork := fun _ => work
      nodup := nodup_singleton genesis
      rooted := by simp
      outside := fun _ _ => rfl }
  nTx := fun b => if b = genesis then nTx else 0
  chainTxCount := fun b => if b = genesis then nTx else 0
  validity := fun b => if b = genesis then .transactions else .unknown
  haveData := fun b => b == genesis
  failedValid := fun _ => false
  nSequenceId := fun _ => seqIdInitFromDisk
  setBlockIndexCandidates := [genesis]
  blocksUnlinked := []
  tip := genesis
  bestHeader := genesis
  bestInvalid := none
  nBlockSequenceId := seqIdInitFromDisk + 1
  nBlockReverseSequenceId := -1
  nLastPreciousChainwork := 0

end BlockIndexOps
