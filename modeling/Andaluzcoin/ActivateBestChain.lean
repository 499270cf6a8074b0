import Andaluzcoin.BlockIndex

/-!
# Activating the best chain

`ConnectTip`, `DisconnectTip`, `ActivateBestChainStep` and `ActivateBestChain` of
`validation.cpp`, as far as they change the block index. Whether a block connects is the
outcome of `ConnectBlock`, which is a function of the block here; errors of the system and
interruptions do not occur.
-/

namespace ActivateBestChain

open ParentTree BlockIndex

variable (connects : BlockId → Bool)

/-- The loop of `CChain::FindFork`. -/
def forkFrom (s : Chainstate) : ℕ → BlockId → Option BlockId
  | 0, _ => none
  | fuel + 1, pindex =>
    if s.contains pindex then some pindex else (s.index.pprev pindex).bind (forkFrom s fuel)

def findFork (s : Chainstate) (pindex : BlockId) : Option BlockId :=
  (if s.index.nHeight pindex > s.index.nHeight s.tip
    then s.index.getAncestor pindex (s.index.nHeight s.tip) else some pindex).bind
    fun pindex => forkFrom s (s.index.nHeight pindex + 1) pindex

def disconnectTip (s : Chainstate) : Except ChainError Chainstate :=
  match s.index.pprev s.tip with
  | none => .error (.assertion "pindexDelete->pprev")
  | some prev => .ok { s with tip := prev }

/-- Disconnect blocks until the tip is the given block. -/
def disconnectTo (pindexFork : BlockId) : ℕ → Chainstate → Except ChainError Chainstate
  | 0, s => if s.tip = pindexFork then .ok s else .error .outOfFuel
  | fuel + 1, s => if s.tip = pindexFork then .ok s
    else disconnectTip s >>= disconnectTo pindexFork fuel

/-- Connect a block on the tip; whether it was connected. -/
def connectTip (s : Chainstate) (pindexNew : BlockId) : Except ChainError (Bool × Chainstate) :=
  if s.index.pprev pindexNew ≠ some s.tip then
    .error (.assertion "pindexNew->pprev == m_chain.Tip()")
  else if connects pindexNew then
    .ok (true, { s.raiseValidity pindexNew .scripts with tip := pindexNew })
  else .ok (false, s.invalidBlockFound pindexNew)

/-- How the connecting of blocks goes on. -/
inductive Progress where
  | goOn
  | stop
  | invalidFound
  deriving DecidableEq

/-- The loop over the blocks of one batch, the last of which is `front`. -/
def connectBlocks (oldTip front : BlockId) :
  List BlockId → Chainstate → Except ChainError (Progress × Chainstate)
  | [], s => .ok (.goOn, s)
  | pindexConnect :: rest, s => do
    let (connected, s) ← connectTip connects s pindexConnect
    if connected then
      let s ← s.pruneBlockIndexCandidates
      if s.index.nChainWork s.tip > s.index.nChainWork oldTip then .ok (.stop, s)
      else connectBlocks oldTip front rest s
    else .ok (.invalidFound, s.invalidChainFound front)

/-- The blocks above a height up to a block, the lowest first. -/
def blocksToConnect (s : Chainstate) (nHeight : ℕ) (pindexIter : BlockId) : List BlockId :=
  (trail s.index.pprev (s.index.nHeight pindexIter - nHeight) pindexIter).reverse

/-- The loop that connects batches of 32 blocks towards the most work. -/
def connectHeights (oldTip pindexMostWork : BlockId) :
  ℕ → ℕ → Chainstate → Except ChainError (Progress × Chainstate)
  | 0, _, _ => .error .outOfFuel
  | fuel + 1, nHeight, s =>
    if nHeight = s.index.nHeight pindexMostWork then .ok (.stop, s)
    else
      let nTargetHeight := min (nHeight + 32) (s.index.nHeight pindexMostWork)
      match s.index.getAncestor pindexMostWork nTargetHeight with
      | none => connectHeights oldTip pindexMostWork fuel nTargetHeight s
      | some front => do
        let (progress, s) ← connectBlocks connects oldTip front (blocksToConnect s nHeight front) s
        if progress = .goOn then connectHeights oldTip pindexMostWork fuel nTargetHeight s
        else .ok (progress, s)

/-- One step towards the most work; whether an invalid block was found. -/
def activateBestChainStep (s : Chainstate) (pindexMostWork : BlockId) :
  Except ChainError (Bool × Chainstate) :=
  match findFork s pindexMostWork with
  | none => .error (.assertion "pindexDelete->pprev")
  | some pindexFork => do
    let disconnected ← disconnectTo pindexFork (s.index.nHeight s.tip) s
    let (progress, s) ← connectHeights connects s.tip pindexMostWork
      (s.index.nHeight pindexMostWork + 1) (s.index.nHeight pindexFork) disconnected
    .ok (progress = .invalidFound, s)

/-- Where the loops of `ActivateBestChain` stand: the state, the target they remember and
whether a step was made since the outer loop came round. -/
structure Loop where
  state : Chainstate
  pindexMostWork : Option BlockId
  blocksConnected : Bool

/-- The target that is remembered, or else the best candidate. -/
def Loop.chooseTarget (at_ : Loop) : Except ChainError (Option BlockId × Chainstate) :=
  match at_.pindexMostWork with
  | some target => .ok (some target, at_.state)
  | none => findMostWorkChain at_.state

/-- The inner loop, which goes on while the tip is worse than the one it started from. -/
def stepLoop (startingTip : BlockId) : ℕ → Loop → Except ChainError Loop
  | 0, _ => .error .outOfFuel
  | fuel + 1, at_ => do
    let (pindexMostWork, s) ← at_.chooseTarget
    match pindexMostWork with
    | none => .ok { at_ with state := s, pindexMostWork := none }
    | some target =>
      if target = s.tip then .ok { at_ with state := s, pindexMostWork := some target }
      else do
        let (fInvalidFound, s) ← activateBestChainStep connects s target
        let next : Loop := ⟨s, if fInvalidFound then none else some target, true⟩
        if s.workLess s.tip startingTip then stepLoop startingTip fuel next else .ok next

/-- The outer loop, which goes on until the tip is the target. -/
def activateLoop : ℕ → Chainstate → Option BlockId → Except ChainError Chainstate
  | 0, _, _ => .error .outOfFuel
  | fuel + 1, s, pindexMostWork => do
    let at_ ← stepLoop connects s.tip (fuel + 1) ⟨s, pindexMostWork, false⟩
    if !at_.blocksConnected || at_.pindexMostWork == some at_.state.tip then .ok at_.state
    else activateLoop fuel at_.state at_.pindexMostWork

/-- Enough rounds: in each one a block is newly marked, the work of the tip grows or the target
is reached. -/
def rounds (s : Chainstate) : ℕ := 2 * (s.index.ids.length + 1) * (s.index.ids.length + 1) + 2

def activateBestChain (s : Chainstate) : Except ChainError Chainstate :=
  activateLoop connects (rounds s) s none

end ActivateBestChain
