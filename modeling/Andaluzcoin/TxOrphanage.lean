import Andaluzcoin.FeeFrac
import Andaluzcoin.TxSerialization
import Andaluzcoin.TxVerify

/-!
# The transaction orphanage

`TxOrphanageImpl` of `node/txorphanage.cpp`. The announcements are a list in no particular order,
from which each index takes what it is asked for in its own order. The announcements of one
transaction have different peers, and all announcements have different sequence numbers, so that
these orders have no ties. A `std::set` of hashes that is walked through is a list.
-/

namespace TxOrphanage

open Transaction TxSerialization TxVerify

abbrev NodeId := ℤ
abbrev Wtxid := Uint256

def maxStandardTxWeight : ℕ := 400000

def getTransactionWeight (tx : CTransaction) : ℕ :=
  let tx : CMutableTransaction := ⟨tx.vin, tx.vout, tx.version, tx.nLockTime⟩
  (serializeTransaction false tx).length * (witnessScaleFactor - 1) +
    (serializeTransaction true tx).length

structure Announcement where
  tx : CTransaction
  announcer : NodeId
  entrySequence : ℕ
  reconsider : Bool
  deriving DecidableEq

namespace Announcement

def wtxid (ann : Announcement) : Wtxid := ann.tx.witnessHash

def getMemUsage (ann : Announcement) : ℤ := getTransactionWeight ann.tx

def getLatencyScore (ann : Announcement) : ℕ := 1 + ann.tx.vin.length / 10

end Announcement

/-- `FeeFrac`'s `<=>`: by ratio, and of equal ratios the one of greater size is less. -/
def compareFrac (a b : FeeFrac) : Ordering :=
  (compare (a.fee * b.size) (b.fee * a.size)).then (compare b.size a.size)

/-- The conversion to the `int32_t` that a `FeeFrac` has as its size. -/
def toInt32 (n : ℤ) : ℤ := n.bmod (2 ^ 32)

structure PeerDoSInfo where
  totalUsage : ℤ
  countAnnouncements : ℕ
  totalLatencyScore : ℕ
  deriving DecidableEq

namespace PeerDoSInfo

def new : PeerDoSInfo := ⟨0, 0, 0⟩

def add (info : PeerDoSInfo) (ann : Announcement) : PeerDoSInfo :=
  ⟨info.totalUsage + ann.getMemUsage, info.countAnnouncements + 1,
    info.totalLatencyScore + ann.getLatencyScore⟩

/-- `Subtract`, without its result, which says whether no announcement is left. -/
def subtract (info : PeerDoSInfo) (ann : Announcement) : PeerDoSInfo :=
  ⟨info.totalUsage - ann.getMemUsage, info.countAnnouncements - 1,
    info.totalLatencyScore - ann.getLatencyScore⟩

/-- The greater of the two ratios to what a peer may use. Both limits have been checked to be
positive. -/
def getDosScore (info : PeerDoSInfo) (maxPeerLatencyScore : ℕ) (maxPeerMemory : ℤ) : FeeFrac :=
  let latencyScore : FeeFrac := ⟨info.totalLatencyScore, toInt32 maxPeerLatencyScore⟩
  let memScore : FeeFrac := ⟨info.totalUsage, toInt32 maxPeerMemory⟩
  if compareFrac latencyScore memScore = .lt then memScore else latencyScore

end PeerDoSInfo

abbrev OutpointMap := AList fun _ : COutPoint => List Wtxid
abbrev PeerMap := AList fun _ : NodeId => PeerDoSInfo

structure TxOrphanageImpl where
  maxGlobalLatencyScore : ℕ
  reservedUsagePerPeer : ℤ
  currentSequence : ℕ
  orphans : List Announcement
  uniqueOrphans : ℕ
  uniqueOrphanUsage : ℤ
  uniqueRoundedInputScores : ℕ
  outpointToOrphanWtxids : OutpointMap
  reconsiderableWtxids : Finset Wtxid
  peerOrphanageInfo : PeerMap

namespace TxOrphanageImpl

def new (maxGlobalLatencyScore : ℕ) (reservedPeerUsage : ℤ) : TxOrphanageImpl :=
  ⟨maxGlobalLatencyScore, reservedPeerUsage, 0, [], 0, 0, 0, ∅, ∅, ∅⟩

variable (s : TxOrphanageImpl)

/-- The announcements of a transaction in the order of `ByWtxid`. -/
def byWtxid (wtxid : Wtxid) : List Announcement :=
  (s.orphans.filter fun ann => ann.wtxid = wtxid).insertionSort fun a b => a.announcer ≤ b.announcer

/-- The announcements of a peer in the order of `ByPeer`. -/
def byPeer (peer : NodeId) : List Announcement :=
  (s.orphans.filter fun ann => ann.announcer = peer).insertionSort fun a b =>
    a.reconsider < b.reconsider ∨
      a.reconsider = b.reconsider ∧ a.entrySequence ≤ b.entrySequence

def isUnique (it : Announcement) : Bool := (s.byWtxid it.wtxid).length = 1

def haveTx (wtxid : Wtxid) : Bool := s.orphans.any fun ann => ann.wtxid = wtxid

def totalLatencyScore : ℕ := s.uniqueRoundedInputScores + s.orphans.length

def maxPeerLatencyScore : ℕ := s.maxGlobalLatencyScore / max s.peerOrphanageInfo.keys.length 1

def maxGlobalUsage : ℤ := s.reservedUsagePerPeer * (max s.peerOrphanageInfo.keys.length 1 : ℕ)

def needsTrim : Bool :=
  s.totalLatencyScore > s.maxGlobalLatencyScore || s.uniqueOrphanUsage > s.maxGlobalUsage

/-- The part of `Erase` that is about the peer. -/
def leavePeer (it : Announcement) (infos : PeerMap) : PeerMap :=
  match infos.lookup it.announcer with
  | none => infos
  | some info =>
    if (info.subtract it).countAnnouncements = 0 then infos.erase it.announcer
    else infos.insert it.announcer (info.subtract it)

/-- Take a hash away from an outpoint. -/
def unlinkInput (wtxid : Wtxid) (outpoints : OutpointMap) (input : CTxIn) : OutpointMap :=
  match outpoints.lookup input.prevout with
  | none => outpoints
  | some wtxids =>
    let wtxids := wtxids.filter fun other => other ≠ wtxid
    if wtxids = [] then outpoints.erase input.prevout else outpoints.insert input.prevout wtxids

def linkInput (wtxid : Wtxid) (outpoints : OutpointMap) (input : CTxIn) : OutpointMap :=
  outpoints.insert input.prevout (((outpoints.lookup input.prevout).getD []).insert wtxid)

/-- The part of `Erase` for the last announcement of a transaction. -/
def forget (it : Announcement) : TxOrphanageImpl :=
  { s with
    uniqueOrphans := s.uniqueOrphans - 1
    uniqueRoundedInputScores := s.uniqueRoundedInputScores - (it.getLatencyScore - 1)
    uniqueOrphanUsage := s.uniqueOrphanUsage - it.getMemUsage
    outpointToOrphanWtxids :=
      it.tx.vin.foldl (unlinkInput it.wtxid) s.outpointToOrphanWtxids }

def erase (it : Announcement) : TxOrphanageImpl :=
  let s' := if s.isUnique it then s.forget it else s
  { s' with
    peerOrphanageInfo := leavePeer it s.peerOrphanageInfo
    reconsiderableWtxids :=
      if it.reconsider then s.reconsiderableWtxids.erase it.wtxid else s.reconsiderableWtxids
    orphans := s.orphans.erase it }

/-- The announcement that is stored next for a transaction and a peer. -/
def next (tx : CTransaction) (peer : NodeId) : Announcement := ⟨tx, peer, s.currentSequence, false⟩

/-- Store an announcement and count it for its peer, unless the peer has announced the transaction
before. -/
def emplace (tx : CTransaction) (peer : NodeId) : Option TxOrphanageImpl :=
  if s.orphans.any fun ann => ann.wtxid = tx.witnessHash ∧ ann.announcer = peer then none
  else
    let peerInfo := (s.peerOrphanageInfo.lookup peer).getD .new
    some { s with
      orphans := s.next tx peer :: s.orphans
      currentSequence := s.currentSequence + 1
      peerOrphanageInfo := s.peerOrphanageInfo.insert peer (peerInfo.add (s.next tx peer)) }

/-- The part of `AddTx` for the first announcement of a transaction. -/
def link (iter : Announcement) : TxOrphanageImpl :=
  { s with
    outpointToOrphanWtxids := iter.tx.vin.foldl (linkInput iter.wtxid) s.outpointToOrphanWtxids
    uniqueOrphans := s.uniqueOrphans + 1
    uniqueOrphanUsage := s.uniqueOrphanUsage + iter.getMemUsage
    uniqueRoundedInputScores := s.uniqueRoundedInputScores + (iter.getLatencyScore - 1) }

section

/-- `compare_score` of two peers and their scores: the left one is less. -/
def compareScore (left right : NodeId × FeeFrac) : Bool :=
  if left.2 ≠ right.2 then compareFrac left.2 right.2 = .lt else left.1 < right.1

/-- `pop_heap`: the greatest entry, and the others. -/
def popHeap : List (NodeId × FeeFrac) → Option ((NodeId × FeeFrac) × List (NodeId × FeeFrac))
  | [] => none
  | first :: others =>
    let worst := others.foldl (fun worst entry => if compareScore worst entry then entry else worst)
      first
    some (worst, (first :: others).erase worst)

def dosThreshold (heap : List (NodeId × FeeFrac)) : FeeFrac :=
  (popHeap heap).elim ⟨1, 1⟩ fun r => r.1.2

variable (maxLat : ℕ) (maxMem : ℤ)

/-- The peers with a score above one. -/
def dosyPeers : List (NodeId × FeeFrac) :=
  s.peerOrphanageInfo.entries.filterMap fun entry =>
    let dosScore := entry.2.getDosScore maxLat maxMem
    if FeeFrac.higherFeeRate dosScore ⟨1, 1⟩ then some (entry.1, dosScore) else none

/-- The inner loop, over the announcements of the worst peer. -/
def trimPeer (worstPeer : NodeId) (dosThreshold : FeeFrac) :
  List Announcement → TxOrphanageImpl → TxOrphanageImpl
  | [], s => s
  | itAnn :: later, s =>
    if s.needsTrim then
      let s := s.erase itAnn
      match s.peerOrphanageInfo.lookup worstPeer with
      | none => s
      | some info =>
        if compareFrac (info.getDosScore maxLat maxMem) dosThreshold ≠ .gt then s
        else trimPeer worstPeer dosThreshold later s
    else s

/-- A peer goes back to the heap with its new score. -/
def pushHeap (worstPeer : NodeId) (heap : List (NodeId × FeeFrac)) : List (NodeId × FeeFrac) :=
  match s.peerOrphanageInfo.lookup worstPeer with
  | none => heap
  | some info =>
    if info.countAnnouncements > 0 then (worstPeer, info.getDosScore maxLat maxMem) :: heap else heap

/-- The outer loop. An empty heap ends the program, and so does a peer in it that is not known. -/
def trimLoop : ℕ → List (NodeId × FeeFrac) → TxOrphanageImpl → Option TxOrphanageImpl
  | 0, _, _ => none
  | fuel + 1, heap, s =>
    match popHeap heap with
    | none => none
    | some ((worstPeer, _), heap) =>
      if worstPeer ∉ s.peerOrphanageInfo then none
      else
        let s := trimPeer maxLat maxMem worstPeer (dosThreshold heap) (s.byPeer worstPeer) s
        if s.needsTrim then trimLoop fuel (s.pushHeap maxLat maxMem worstPeer heap) s else some s

/-- The assertions of `GetDosScore` are about the limits, which stay the same, and come first for
the peers with which the heap is filled. Every round takes an announcement away. -/
def limitOrphans : Option TxOrphanageImpl :=
  if s.needsTrim then
    let maxLat := s.maxPeerLatencyScore
    let maxMem := s.reservedUsagePerPeer
    if s.peerOrphanageInfo.entries ≠ [] ∧ ¬ (maxLat > 0 ∧ maxMem > 0) then none
    else trimLoop maxLat maxMem s.orphans.length (s.dosyPeers maxLat maxMem) s
  else some s

end

/-- `AddTx` until the orphanage is limited, or none when nothing is added. -/
def addTxUnlimited (tx : CTransaction) (peer : NodeId) : Option TxOrphanageImpl :=
  if getTransactionWeight tx > maxStandardTxWeight then none
  else (s.emplace tx peer).map fun s' =>
    if s.haveTx tx.witnessHash then s' else s'.link (s.next tx peer)

def addTx (tx : CTransaction) (peer : NodeId) : Option (Bool × TxOrphanageImpl) :=
  match s.addTxUnlimited tx peer with
  | none => some (false, s)
  | some s' => s'.limitOrphans.map fun s'' => (!s.haveTx tx.witnessHash, s'')

/-- `AddAnnouncer` until the orphanage is limited, or none when nothing is added. -/
def addAnnouncerUnlimited (wtxid : Wtxid) (peer : NodeId) : Option TxOrphanageImpl :=
  (s.byWtxid wtxid).head?.bind fun it => s.emplace it.tx peer

def addAnnouncer (wtxid : Wtxid) (peer : NodeId) : Option (Bool × TxOrphanageImpl) :=
  match s.addAnnouncerUnlimited wtxid peer with
  | none => some (false, s)
  | some s' => s'.limitOrphans.map fun s'' => (true, s'')

def eraseTxInternal (wtxid : Wtxid) : TxOrphanageImpl := (s.byWtxid wtxid).foldl erase s

def eraseTx (wtxid : Wtxid) : Option (Bool × TxOrphanageImpl) :=
  (s.eraseTxInternal wtxid).limitOrphans.map fun s' => (s.haveTx wtxid, s')

/-- `EraseForPeer` until the orphanage is limited. -/
def eraseForPeerUnlimited (peer : NodeId) : TxOrphanageImpl := (s.byPeer peer).foldl erase s

def eraseForPeer (peer : NodeId) : Option TxOrphanageImpl :=
  if s.byPeer peer = [] then some s else (s.eraseForPeerUnlimited peer).limitOrphans

/-- `wtxids_to_erase`. -/
def wtxidsToErase (vtx : List CTransaction) : List Wtxid :=
  (vtx.flatMap fun blockTx => blockTx.vin.flatMap fun input =>
    (s.outpointToOrphanWtxids.lookup input.prevout).getD []).dedup

/-- `EraseForBlock` until the orphanage is limited. -/
def eraseForBlockUnlimited (vtx : List CTransaction) : TxOrphanageImpl :=
  (s.wtxidsToErase vtx).foldl eraseTxInternal s

def eraseForBlock (vtx : List CTransaction) : Option TxOrphanageImpl :=
  if s.orphans = [] then some s else (s.eraseForBlockUnlimited vtx).limitOrphans

/-- Set whether an announcement is to be reconsidered. -/
def modify (it : Announcement) (reconsider : Bool) : TxOrphanageImpl :=
  { s with
    orphans := { it with reconsider } :: s.orphans.erase it
    reconsiderableWtxids :=
      if reconsider then insert it.wtxid s.reconsiderableWtxids
      else s.reconsiderableWtxids.erase it.wtxid }

/-- One orphan gets into the work set of one of its announcers. A transaction is assigned at most
once in a call, so that the random numbers are given by transaction. -/
def assignWork (randrange : Wtxid → ℕ) (r : List (Wtxid × NodeId) × TxOrphanageImpl)
  (wtxid : Wtxid) : List (Wtxid × NodeId) × TxOrphanageImpl :=
  if wtxid ∈ r.2.reconsiderableWtxids then r
  else
    let announcements := r.2.byWtxid wtxid
    match announcements[randrange wtxid % announcements.length]? with
    | none => r
    | some it => (r.1 ++ [(wtxid, it.announcer)], r.2.modify it true)

def addChildrenToWorkSet (tx : CTransaction) (randrange : Wtxid → ℕ) :
  List (Wtxid × NodeId) × TxOrphanageImpl :=
  (List.range tx.vout.length).foldl
    (fun r i => ((r.2.outpointToOrphanWtxids.lookup ⟨tx.hash, i⟩).getD []).foldl
      (assignWork randrange) r) ([], s)

def getTxToReconsider (peer : NodeId) : Option CTransaction × TxOrphanageImpl :=
  match (s.byPeer peer).find? fun ann => ann.reconsider with
  | none => (none, s)
  | some it => (some it.tx, s.modify it false)

def reconstructedPeerInfo : List Announcement → PeerMap
  | [] => ∅
  | ann :: orphans =>
    let infos := reconstructedPeerInfo orphans
    infos.insert ann.announcer (((infos.lookup ann.announcer).getD .new).add ann)

def uniqueWtxidsToScores : List Announcement → AList fun _ : Wtxid => ℤ × ℕ
  | [] => ∅
  | ann :: orphans =>
    let scores := uniqueWtxidsToScores orphans
    if ann.wtxid ∈ scores then scores
    else scores.insert ann.wtxid (ann.getMemUsage, ann.getLatencyScore - 1)

def allOutpoints : List COutPoint :=
  (s.orphans.flatMap fun ann => ann.tx.vin.map fun input => input.prevout).dedup

/-- The hashes of announcements to be reconsidered, one for each announcement. -/
def reconsidered : List Wtxid := (s.orphans.filter fun ann => ann.reconsider).map fun ann => ann.wtxid

/-- `SanityCheck`, with a field for each assertion. -/
@[mk_iff]
structure SanityCheck : Prop where
  reconsideredOnce : s.reconsidered.Nodup
  peerCount : (reconstructedPeerInfo s.orphans).keys.length = s.peerOrphanageInfo.keys.length
  peers : (reconstructedPeerInfo s.orphans).entries.Perm s.peerOrphanageInfo.entries
  reconsiderable : s.reconsiderableWtxids = s.reconsidered.toFinset
  outpointCount : s.allOutpoints.length = s.outpointToOrphanWtxids.keys.length
  outpoints : ∀ entry ∈ s.outpointToOrphanWtxids.entries,
    entry.1 ∈ s.allOutpoints ∧ ∀ wtxid ∈ entry.2, wtxid ∈ uniqueWtxidsToScores s.orphans
  uniqueLe : s.orphans.length ≥ s.uniqueOrphans
  announcementsLe : s.orphans.length ≤ s.peerOrphanageInfo.keys.length * s.uniqueOrphans
  unique : (uniqueWtxidsToScores s.orphans).keys.length = s.uniqueOrphans
  dedupUsage : ((uniqueWtxidsToScores s.orphans).entries.map fun entry => entry.2.1).sum
    = s.uniqueOrphanUsage
  summedUsage : (s.peerOrphanageInfo.entries.map fun entry => entry.2.totalUsage).sum
    ≥ s.uniqueOrphanUsage
  dedupScores : ((uniqueWtxidsToScores s.orphans).entries.map fun entry => entry.2.2).sum
    = s.uniqueRoundedInputScores
  summedLatencyScore : (s.peerOrphanageInfo.entries.map fun entry => entry.2.totalLatencyScore).sum
    ≥ s.uniqueRoundedInputScores + s.orphans.length
  withinLimits : ¬ s.needsTrim

instance : Decidable s.SanityCheck := decidable_of_iff' _ s.sanityCheck_iff

end TxOrphanageImpl

end TxOrphanage
