import Andaluzcoin.OrderedIndex

/-!
# The transaction request tracker

`TxRequestTracker::Impl` of `txrequest.cpp`. The announcements are kept in the orders of the indexes
`ByTxHash` and `ByTime`. The index `ByPeer` has no two equal keys and only serves to look them up. An
iterator is an announcement with the data it has at the time; its peer and its hash never change and
address it. Peers, hashes and the sums that `SipHash` computes are of any type.
-/

namespace TxRequest

open OrderedIndex Function

/-- `GenTxid`: the hash of a transaction without or with its witness. -/
structure GenTxid (H : Type) where
  isWtxid : Bool
  hash : H
  deriving DecidableEq

inductive State where
  | candidateDelayed | candidateReady | candidateBest | requested | completed
  deriving DecidableEq

/-- The value of the enumeration, by which `ByTxHash` is sorted. -/
def State.value : State → ℕ
  | candidateDelayed => 0
  | candidateReady => 1
  | candidateBest => 2
  | requested => 3
  | completed => 4

structure Announcement (H P : Type) where
  gtxid : GenTxid H
  time : ℤ
  peer : P
  sequence : ℕ
  preferred : Bool
  state : State
  deriving DecidableEq

inductive WaitState where
  | futureEvent | noEvent | pastEvent
  deriving DecidableEq

def WaitState.value : WaitState → ℕ
  | futureEvent => 0
  | noEvent => 1
  | pastEvent => 2

section
variable {H P : Type}

namespace Announcement

def txhash (ann : Announcement H P) : H := ann.gtxid.hash

def setState (state : State) (ann : Announcement H P) : Announcement H P :=
  { ann with state := state }

def isSelected (ann : Announcement H P) : Bool :=
  ann.state = .candidateBest ∨ ann.state = .requested

def isWaiting (ann : Announcement H P) : Bool :=
  ann.state = .requested ∨ ann.state = .candidateDelayed

def isSelectable (ann : Announcement H P) : Bool :=
  ann.state = .candidateReady ∨ ann.state = .candidateBest

def getWaitState (ann : Announcement H P) : WaitState :=
  if ann.isWaiting then .futureEvent else if ann.isSelectable then .pastEvent else .noEvent

/-- The two announcements are of one hash by one peer. -/
def isAt [DecidableEq H] [DecidableEq P] (it ann : Announcement H P) : Bool :=
  ann.peer = it.peer ∧ ann.txhash = it.txhash

end Announcement

/-- `PriorityComputer`, with the sum of a hash and a peer. -/
structure PriorityComputer (H P : Type) where
  sipHash : H → P → ℕ

def PriorityComputer.compute (computer : PriorityComputer H P) (txhash : H) (peer : P) (preferred : Bool) : ℕ :=
  (computer.sipHash txhash peer % 2 ^ 64) >>> 1 ||| (if preferred then 1 else 0) <<< 63

def PriorityComputer.ofAnn (computer : PriorityComputer H P) (ann : Announcement H P) : ℕ :=
  computer.compute ann.txhash ann.peer ann.preferred

/-- `ByTxHashView`: the hash, the state and, for a candidate that is ready, the priority. -/
def byTxHashView (computer : PriorityComputer H P) (ann : Announcement H P) : H ×ₗ ℕ ×ₗ ℕ :=
  toLex (ann.txhash, toLex (ann.state.value,
    if ann.state = .candidateReady then computer.ofAnn ann else 0))

/-- `ByTimeView`. -/
def byTimeView (ann : Announcement H P) : ℕ ×ₗ ℤ := toLex (ann.getWaitState.value, ann.time)

end

/-- `Index`, in two of its orders. -/
structure Index (H P : Type) where
  byTxHash : List (Announcement H P)
  byTime : List (Announcement H P)

structure PeerInfo where
  total : ℕ
  completed : ℕ
  requested : ℕ
  deriving DecidableEq

def PeerInfo.new : PeerInfo := ⟨0, 0, 0⟩

/-- Take a state out of the numbers of a peer. -/
def PeerInfo.remove (state : State) (info : PeerInfo) : PeerInfo :=
  { info with
    completed := info.completed - if state = .completed then 1 else 0
    requested := info.requested - if state = .requested then 1 else 0 }

def PeerInfo.add (state : State) (info : PeerInfo) : PeerInfo :=
  { info with
    completed := info.completed + if state = .completed then 1 else 0
    requested := info.requested + if state = .requested then 1 else 0 }

/-- `TxRequestTracker::Impl` without its computer of priorities. -/
structure Tracker (H P : Type) where
  currentSequence : ℕ
  index : Index H P
  peerinfo : P → Option PeerInfo

section
variable {H P : Type} [LinearOrder H] [DecidableEq P] (computer : PriorityComputer H P)

namespace Tracker

def empty : Tracker H P := ⟨0, ⟨[], []⟩, fun _ => none⟩

/-- `Erase`. -/
def erase (t : Tracker H P) (it : Announcement H P) : Tracker H P :=
  let info := (t.peerinfo it.peer).bind fun info =>
    let info := info.remove it.state
    if info.total - 1 = 0 then none else some { info with total := info.total - 1 }
  { t with
    index := ⟨t.index.byTxHash.eraseP it.isAt, t.index.byTime.eraseP it.isAt⟩
    peerinfo := update t.peerinfo it.peer info }

/-- `Modify`. -/
def modify (t : Tracker H P) (it : Announcement H P)
  (modifier : Announcement H P → Announcement H P) : Tracker H P :=
  let info := (t.peerinfo it.peer).map fun info =>
    (info.remove it.state).add (modifier it).state
  { t with
    index := ⟨OrderedIndex.modify (byTxHashView computer) it.isAt modifier t.index.byTxHash,
      OrderedIndex.modify byTimeView it.isAt modifier t.index.byTime⟩
    peerinfo := update t.peerinfo it.peer info }

/-- `std::next` in `ByTxHash`. -/
def next (t : Tracker H P) (it : Announcement H P) : Option (Announcement H P) :=
  (after it.isAt t.index.byTxHash).head?

/-- `std::prev` in `ByTxHash`. -/
def prev (t : Tracker H P) (it : Announcement H P) : Option (Announcement H P) :=
  (before it.isAt t.index.byTxHash).getLast?

def promoteCandidateReady (t : Tracker H P) (it : Announcement H P) : Tracker H P :=
  let t := t.modify computer it (.setState .candidateReady)
  let it := it.setState .candidateReady
  match t.next it with
  | none => t.modify computer it (.setState .candidateBest)
  | some itNext =>
    if itNext.txhash ≠ it.txhash ∨ itNext.state = .completed then
      t.modify computer it (.setState .candidateBest)
    else if itNext.state = .candidateBest ∧ computer.ofAnn it > computer.ofAnn itNext then
      (t.modify computer itNext (.setState .candidateReady)).modify computer it
        (.setState .candidateBest)
    else t

/-- The candidate that is selected when an announcement no longer is. -/
def reselect (t : Tracker H P) (it : Announcement H P) : Tracker H P :=
  if it.isSelected then
    match t.prev it with
    | none => t
    | some itPrev =>
      if itPrev.txhash = it.txhash ∧ itPrev.state = .candidateReady then
        t.modify computer itPrev (.setState .candidateBest)
      else t
  else t

def changeAndReselect (t : Tracker H P) (it : Announcement H P) (newState : State) : Tracker H P :=
  (t.reselect computer it).modify computer it (.setState newState)

def isOnlyNonCompleted (t : Tracker H P) (it : Announcement H P) : Bool :=
  if (t.prev it).any fun itPrev => itPrev.txhash = it.txhash then false
  else if (t.next it).any fun itNext => itNext.txhash = it.txhash ∧ itNext.state ≠ .completed then
    false
  else true

def eraseAll (t : Tracker H P) (anns : List (Announcement H P)) : Tracker H P :=
  anns.foldl erase t

/-- Whether the announcement still exists comes with the tracker. -/
def makeCompleted (t : Tracker H P) (it : Announcement H P) : Tracker H P × Bool :=
  if it.state = .completed then (t, true)
  else if t.isOnlyNonCompleted it then
    (t.eraseAll (it :: (after it.isAt t.index.byTxHash).takeWhile fun ann => ann.txhash = it.txhash),
      false)
  else (t.changeAndReselect computer it .completed, true)

/-- The first loop of `SetTimePoint`; every round ends the wait of an announcement. -/
def passEvents (now : ℤ) : ℕ → Tracker H P → List (P × GenTxid H) →
  Tracker H P × List (P × GenTxid H)
  | 0, t, expired => (t, expired)
  | fuel + 1, t, expired =>
    match t.index.byTime.head? with
    | none => (t, expired)
    | some it =>
      if it.state = .candidateDelayed ∧ it.time ≤ now then
        passEvents now fuel (t.promoteCandidateReady computer it) expired
      else if it.state = .requested ∧ it.time ≤ now then
        passEvents now fuel (t.makeCompleted computer it).1 (expired ++ [(it.peer, it.gtxid)])
      else (t, expired)

/-- The second loop of `SetTimePoint`, for a time before the last one. -/
def delayEvents (now : ℤ) : ℕ → Tracker H P → Tracker H P
  | 0, t => t
  | fuel + 1, t =>
    match t.index.byTime.getLast? with
    | none => t
    | some it =>
      if it.isSelectable ∧ it.time > now then
        delayEvents now fuel (t.changeAndReselect computer it .candidateDelayed)
      else t

/-- The requests that have expired come with the tracker. -/
def setTimePoint (t : Tracker H P) (now : ℤ) : Tracker H P × List (P × GenTxid H) :=
  let passed := passEvents computer now t.index.byTxHash.length t []
  (delayEvents computer now passed.1.index.byTxHash.length passed.1, passed.2)

/-- The announcements of a peer in the order of `ByPeer`. -/
def byPeer (t : Tracker H P) (peer : P) : List (Announcement H P) :=
  (t.index.byTxHash.filter fun ann => ann.peer = peer ∧ ann.state ≠ .candidateBest) ++
    t.index.byTxHash.filter fun ann => ann.peer = peer ∧ ann.state = .candidateBest

/-- The loop of `DisconnectedPeer`. The iterator moves on to what is the first announcement of the
peer once the one before is gone. -/
def disconnectLoop (peer : P) : ℕ → Tracker H P → Tracker H P
  | 0, t => t
  | fuel + 1, t =>
    match (t.byPeer peer).head? with
    | none => t
    | some it =>
      let made := t.makeCompleted computer it
      if made.2 then disconnectLoop peer fuel (made.1.erase (it.setState .completed))
      else disconnectLoop peer fuel made.1

def disconnectedPeer (t : Tracker H P) (peer : P) : Tracker H P :=
  disconnectLoop computer peer t.index.byTxHash.length t

def forgetTxHash (t : Tracker H P) (txhash : H) : Tracker H P :=
  let lowerBound : H ×ₗ ℕ ×ₗ ℕ := toLex (txhash, toLex (State.candidateDelayed.value, 0))
  t.eraseAll ((t.index.byTxHash.dropWhile fun ann => byTxHashView computer ann < lowerBound).takeWhile
    fun ann => ann.txhash = txhash)

/-- Look an announcement up in `ByPeer`. -/
def find (t : Tracker H P) (peer : P) (best : Bool) (txhash : H) : Option (Announcement H P) :=
  t.index.byTxHash.find? fun ann =>
    ann.peer = peer ∧ decide (ann.state = .candidateBest) = best ∧ ann.txhash = txhash

def receivedInv (t : Tracker H P) (peer : P) (gtxid : GenTxid H) (preferred : Bool) (reqtime : ℤ) :
  Tracker H P :=
  if (t.find peer true gtxid.hash).isSome then t
  else if (t.find peer false gtxid.hash).isSome then t
  else
    let ann : Announcement H P :=
      ⟨gtxid, reqtime, peer, t.currentSequence, preferred, .candidateDelayed⟩
    let info := (t.peerinfo peer).getD .new
    { currentSequence := t.currentSequence + 1
      index := ⟨insertUpper (byTxHashView computer) ann t.index.byTxHash,
        insertUpper byTimeView ann t.index.byTime⟩
      peerinfo := update t.peerinfo peer (some { info with total := info.total + 1 }) }

/-- The transactions to request now from a peer, and the requests that have expired. -/
def getRequestable (t : Tracker H P) (peer : P) (now : ℤ) :
  Tracker H P × List (GenTxid H) × List (P × GenTxid H) :=
  let moved := t.setTimePoint computer now
  let selected := moved.1.index.byTxHash.filter fun ann =>
    ann.peer = peer ∧ ann.state = .candidateBest
  let sorted := selected.insertionSort fun a b => a.sequence ≤ b.sequence
  (moved.1, sorted.map Announcement.gtxid, moved.2)

/-- Make way for a request of another announcement of the hash. -/
def releaseSelected (t : Tracker H P) (txhash : H) : Tracker H P :=
  let lowerBound : H ×ₗ ℕ ×ₗ ℕ := toLex (txhash, toLex (State.candidateBest.value, 0))
  match t.index.byTxHash.find? fun ann => lowerBound ≤ byTxHashView computer ann with
  | none => t
  | some itOld =>
    if itOld.txhash = txhash then
      if itOld.state = .candidateBest then t.modify computer itOld (.setState .candidateReady)
      else if itOld.state = .requested then t.modify computer itOld (.setState .completed)
      else t
    else t

def makeRequested (t : Tracker H P) (it : Announcement H P) (expiry : ℤ) : Tracker H P :=
  t.modify computer it fun ann => { ann with state := .requested, time := expiry }

def requestedTx (t : Tracker H P) (peer : P) (txhash : H) (expiry : ℤ) : Tracker H P :=
  match t.find peer true txhash with
  | some it => t.makeRequested computer it expiry
  | none =>
    match t.find peer false txhash with
    | none => t
    | some it =>
      if it.state ≠ .candidateDelayed ∧ it.state ≠ .candidateReady then t
      else (t.releaseSelected computer txhash).makeRequested computer it expiry

def receivedResponse (t : Tracker H P) (peer : P) (txhash : H) : Tracker H P :=
  match (t.find peer false txhash).or (t.find peer true txhash) with
  | none => t
  | some it => (t.makeCompleted computer it).1

end Tracker

/-- A call of a function that is not `const`. -/
inductive Call (H P : Type) where
  | receivedInv (peer : P) (gtxid : GenTxid H) (preferred : Bool) (reqtime : ℤ)
  | requestedTx (peer : P) (txhash : H) (expiry : ℤ)
  | receivedResponse (peer : P) (txhash : H)
  | forgetTxHash (txhash : H)
  | disconnectedPeer (peer : P)
  | getRequestable (peer : P) (now : ℤ)

def Tracker.call (t : Tracker H P) : Call H P → Tracker H P
  | .receivedInv peer gtxid preferred reqtime => t.receivedInv computer peer gtxid preferred reqtime
  | .requestedTx peer txhash expiry => t.requestedTx computer peer txhash expiry
  | .receivedResponse peer txhash => t.receivedResponse computer peer txhash
  | .forgetTxHash txhash => t.forgetTxHash computer txhash
  | .disconnectedPeer peer => t.disconnectedPeer computer peer
  | .getRequestable peer now => (t.getRequestable computer peer now).1

/-- A new tracker after some calls. -/
def Tracker.run (calls : List (Call H P)) : Tracker H P := calls.foldl (Tracker.call computer) .empty

end

variable {H P : Type} [LinearOrder H] [DecidableEq P]

/-- `RecomputePeerInfo`. -/
def recomputePeerInfo (anns : List (Announcement H P)) (peer : P) : Option PeerInfo :=
  let own := anns.filter fun ann => ann.peer = peer
  if own.length = 0 then none
  else some ⟨own.length, own.countP (·.state = .completed), own.countP (·.state = .requested)⟩

structure TxHashInfo (P : Type) where
  candidateDelayed : ℕ
  candidateReady : ℕ
  candidateBest : ℕ
  requested : ℕ
  priorityCandidateBest : ℕ
  priorityBestCandidateReady : ℕ
  peers : List P

/-- The entry of `ComputeTxHashInfo` for a hash. -/
def computeTxHashInfo (computer : PriorityComputer H P) (anns : List (Announcement H P))
  (txhash : H) : TxHashInfo P :=
  let own := anns.filter fun ann => ann.txhash = txhash
  { candidateDelayed := own.countP (·.state = .candidateDelayed)
    candidateReady := own.countP (·.state = .candidateReady)
    candidateBest := own.countP (·.state = .candidateBest)
    requested := own.countP (·.state = .requested)
    priorityCandidateBest :=
      own.foldl (fun prio ann => if ann.state = .candidateBest then computer.ofAnn ann else prio)
        (2 ^ 64 - 1)
    priorityBestCandidateReady :=
      own.foldl (fun prio ann =>
        if ann.state = .candidateReady then max prio (computer.ofAnn ann) else prio) 0
    peers := own.map Announcement.peer }

/-- The assertions of `SanityCheck` about one hash. -/
structure TxHashInfo.Sane (info : TxHashInfo P) : Prop where
  notOnlyCompleted :
    0 < info.candidateDelayed + info.candidateReady + info.candidateBest + info.requested
  oneSelected : info.candidateBest + info.requested ≤ 1
  selectedIfReady : 0 < info.candidateReady → info.candidateBest + info.requested = 1
  bestPriority : 0 < info.candidateReady → 0 < info.candidateBest →
    info.priorityBestCandidateReady ≤ info.priorityCandidateBest
  noPeerTwice : info.peers.Nodup

/-- `SanityCheck`. -/
structure Tracker.SanityCheck (computer : PriorityComputer H P) (t : Tracker H P) : Prop where
  peerinfo : t.peerinfo = recomputePeerInfo t.index.byTxHash
  hashes : ∀ ann ∈ t.index.byTxHash,
    (computeTxHashInfo computer t.index.byTxHash ann.txhash).Sane

/-- `PostGetRequestableSanityCheck`. -/
def Tracker.PostGetRequestableSanityCheck (t : Tracker H P) (now : ℤ) : Prop :=
  ∀ ann ∈ t.index.byTxHash,
    if ann.isWaiting then ann.time > now else ann.isSelectable → ann.time ≤ now

end TxRequest
