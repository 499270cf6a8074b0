import Andaluzcoin.LinkedChain
import Andaluzcoin.Pow

/-!
# Headers presync

`HeadersSyncState` of `headerssync.cpp`. A peer's headers are downloaded twice: in PRESYNC
only one bit of every so many headers is kept, until their work is sufficient; in
REDOWNLOAD the headers are checked against these bits and released from a buffer once
enough later headers have been checked, or the work is sufficient again.
-/

namespace HeadersSync

open LinkedChain Pow

structure CBlockHeader where
  nVersion : BitVec 32
  hashPrevBlock : BitVec 256
  hashMerkleRoot : BitVec 256
  nTime : BitVec 32
  nBits : BitVec 32
  nNonce : BitVec 32
  deriving DecidableEq

/-- The header that `SetNull` leaves. -/
def CBlockHeader.null : CBlockHeader := ⟨0, 0, 0, 0, 0, 0⟩

def getBlockProof (header : CBlockHeader) : ArithUint256 := getBitsProof header.nBits

/-- A header without the hash of its predecessor. -/
structure CompressedHeader where
  nVersion : BitVec 32
  hashMerkleRoot : BitVec 256
  nTime : BitVec 32
  nBits : BitVec 32
  nNonce : BitVec 32
  deriving DecidableEq

def CompressedHeader.ofHeader (header : CBlockHeader) : CompressedHeader :=
  ⟨header.nVersion, header.hashMerkleRoot, header.nTime, header.nBits, header.nNonce⟩

def CompressedHeader.getFullHeader (hashPrevBlock : BitVec 256) (header : CompressedHeader) :
  CBlockHeader :=
  ⟨header.nVersion, hashPrevBlock, header.hashMerkleRoot, header.nTime, header.nBits,
    header.nNonce⟩

structure HeadersSyncParams where
  commitmentPeriod : ℕ
  redownloadBufferSize : ℕ

/-- What is read of the block index entry that the peer's headers branch from. -/
structure ChainStart where
  header : CBlockHeader
  nHeight : ℕ
  nChainWork : ArithUint256
  medianTimePast : Int

def maxFutureBlockTime : Int := 2 * 60 * 60

/-- What is fixed when a sync is constructed: its arguments, the hash of a header and the
salted hash of that, the random offset and the time. -/
structure Sync where
  getHash : CBlockHeader → BitVec 256
  hasher : BitVec 256 → ℕ
  consensusParams : Params
  params : HeadersSyncParams
  chainStart : ChainStart
  minimumRequiredWork : ArithUint256
  now : Int
  commitOffset : ℕ
  offset_lt : commitOffset < params.commitmentPeriod

inductive State where
  | presync
  | redownload
  | final
  deriving DecidableEq

structure HeadersSyncState where
  downloadState : State
  currentChainWork : ArithUint256
  headerCommitments : List Bool
  lastHeaderReceived : CBlockHeader
  currentHeight : Int
  redownloadedHeaders : List CompressedHeader
  redownloadBufferLastHeight : Int
  redownloadBufferLastHash : BitVec 256
  redownloadBufferFirstPrevHash : BitVec 256
  redownloadChainWork : ArithUint256
  processAllRemainingHeaders : Bool
  deriving DecidableEq

structure ProcessingResult where
  powValidatedHeaders : List CBlockHeader
  success : Bool
  requestMore : Bool
  deriving DecidableEq

namespace Sync

variable (sync : Sync)

/-- The bound on commitments, from six blocks a second since the start. -/
def maxCommitments : ℕ :=
  ((6 * (sync.now - sync.chainStart.medianTimePast + maxFutureBlockTime)) % 2 ^ 64).toNat
    / sync.params.commitmentPeriod

/-- Whether a header at this height is committed to; the height is converted to `size_t`. -/
def commitsAt (height : Int) : Bool :=
  (height % 2 ^ 64).toNat % sync.params.commitmentPeriod == sync.commitOffset

/-- The bit that is kept of a header. -/
def commitment (header : CBlockHeader) : Bool := sync.hasher (sync.getHash header) % 2 == 1

def initial : HeadersSyncState where
  downloadState := .presync
  currentChainWork := sync.chainStart.nChainWork
  headerCommitments := []
  lastHeaderReceived := sync.chainStart.header
  currentHeight := sync.chainStart.nHeight
  redownloadedHeaders := []
  redownloadBufferLastHeight := 0
  redownloadBufferLastHash := 0
  redownloadBufferFirstPrevHash := 0
  redownloadChainWork := 0
  processAllRemainingHeaders := false

/-- The height is kept in an `int` here. -/
def validateAndProcessSingleHeader (s : HeadersSyncState) (current : CBlockHeader) :
  Bool × HeadersSyncState :=
  if s.downloadState ≠ .presync then (false, s)
  else
    let nextHeight := (s.currentHeight + 1).bmod (2 ^ 32)
    if !permittedDifficultyTransition sync.consensusParams nextHeight s.lastHeaderReceived.nBits
        current.nBits then (false, s)
    else
      let headerCommitments := if sync.commitsAt nextHeight
        then s.headerCommitments ++ [sync.commitment current] else s.headerCommitments
      if sync.commitsAt nextHeight && headerCommitments.length > sync.maxCommitments then
        (false, { s with headerCommitments })
      else
        (true, { s with
          headerCommitments
          currentChainWork := s.currentChainWork + getBlockProof current
          lastHeaderReceived := current
          currentHeight := nextHeight })

/-- The switch to REDOWNLOAD, which starts over from the start of the chain. -/
def startRedownload (s : HeadersSyncState) : HeadersSyncState :=
  { s with
    redownloadedHeaders := []
    redownloadBufferLastHeight := sync.chainStart.nHeight
    redownloadBufferFirstPrevHash := sync.getHash sync.chainStart.header
    redownloadBufferLastHash := sync.getHash sync.chainStart.header
    redownloadChainWork := sync.chainStart.nChainWork
    downloadState := .redownload }

/-- Whether the first of the headers connects to the last one received. -/
def connects (s : HeadersSyncState) : List CBlockHeader → Bool
  | [] => true
  | first :: _ => first.hashPrevBlock == sync.getHash s.lastHeaderReceived

def validateAndStoreHeadersCommitments (s : HeadersSyncState) (headers : List CBlockHeader) :
  Bool × HeadersSyncState :=
  if headers.isEmpty then (true, s)
  else if s.downloadState ≠ .presync then (false, s)
  else if !sync.connects s headers then (false, s)
  else
    let processed := untilRefused sync.validateAndProcessSingleHeader s headers
    if !processed.1 then processed
    else if processed.2.currentChainWork ≥ sync.minimumRequiredWork then
      (true, sync.startRedownload processed.2)
    else processed

/-- The bits of the header before the next one. -/
def previousNBits (s : HeadersSyncState) : BitVec 32 :=
  match s.redownloadedHeaders.getLast? with
  | some back => back.nBits
  | none => sync.chainStart.header.nBits

/-- Track the work of the redownloaded chain, and whether it has been sufficient. -/
def trackWork (s : HeadersSyncState) (header : CBlockHeader) : HeadersSyncState :=
  let redownloadChainWork := s.redownloadChainWork + getBlockProof header
  { s with
    redownloadChainWork
    processAllRemainingHeaders := s.processAllRemainingHeaders
      || decide (redownloadChainWork ≥ sync.minimumRequiredWork) }

/-- Store a header for later processing. -/
def storeHeader (s : HeadersSyncState) (header : CBlockHeader) : HeadersSyncState :=
  { s with
    redownloadedHeaders := s.redownloadedHeaders ++ [CompressedHeader.ofHeader header]
    redownloadBufferLastHeight := s.redownloadBufferLastHeight + 1
    redownloadBufferLastHash := sync.getHash header }

def validateAndStoreRedownloadedHeader (s : HeadersSyncState) (header : CBlockHeader) :
  Bool × HeadersSyncState :=
  if s.downloadState ≠ .redownload then (false, s)
  else
    let nextHeight := s.redownloadBufferLastHeight + 1
    if header.hashPrevBlock ≠ s.redownloadBufferLastHash then (false, s)
    else if !permittedDifficultyTransition sync.consensusParams nextHeight (sync.previousNBits s)
        header.nBits then (false, s)
    else
      let s := sync.trackWork s header
      if !s.processAllRemainingHeaders && sync.commitsAt nextHeight then
        match s.headerCommitments with
        | [] => (false, s)
        | expectedCommitment :: rest =>
          let s := { s with headerCommitments := rest }
          if sync.commitment header ≠ expectedCommitment then (false, s)
          else (true, sync.storeHeader s header)
      else (true, sync.storeHeader s header)

/-- The loop of `PopHeadersReadyForAcceptance` over the buffer: the headers it takes out, the
buffer it leaves and the hash before that. -/
def popHeaders (processAllRemainingHeaders : Bool) (firstPrevHash : BitVec 256) :
  List CompressedHeader → List CBlockHeader × List CompressedHeader × BitVec 256
  | [] => ([], [], firstPrevHash)
  | front :: rest =>
    if rest.length + 1 > sync.params.redownloadBufferSize || processAllRemainingHeaders then
      let full := front.getFullHeader firstPrevHash
      let later := popHeaders processAllRemainingHeaders (sync.getHash full) rest
      (full :: later.1, later.2)
    else ([], front :: rest, firstPrevHash)

def popHeadersReadyForAcceptance (s : HeadersSyncState) : List CBlockHeader × HeadersSyncState :=
  if s.downloadState ≠ .redownload then ([], s)
  else
    let popped := sync.popHeaders s.processAllRemainingHeaders s.redownloadBufferFirstPrevHash
      s.redownloadedHeaders
    (popped.1, { s with
      redownloadedHeaders := popped.2.1
      redownloadBufferFirstPrevHash := popped.2.2 })

def finalize (s : HeadersSyncState) : HeadersSyncState :=
  { s with
    headerCommitments := []
    lastHeaderReceived := CBlockHeader.null
    redownloadedHeaders := []
    redownloadBufferLastHash := 0
    redownloadBufferFirstPrevHash := 0
    processAllRemainingHeaders := false
    currentHeight := 0
    downloadState := .final }

/-- What a call does in the state it finds, before it may finalize. -/
def processHeaders (s : HeadersSyncState) (receivedHeaders : List CBlockHeader)
  (fullHeadersMessage : Bool) : ProcessingResult × HeadersSyncState :=
  match s.downloadState with
  | .final => (⟨[], false, false⟩, s)
  | .presync =>
    let stored := sync.validateAndStoreHeadersCommitments s receivedHeaders
    (⟨[], stored.1,
      stored.1 && (fullHeadersMessage || stored.2.downloadState == .redownload)⟩, stored.2)
  | .redownload =>
    let stored := untilRefused sync.validateAndStoreRedownloadedHeader s receivedHeaders
    if !stored.1 then (⟨[], false, false⟩, stored.2)
    else
      let popped := sync.popHeadersReadyForAcceptance stored.2
      let complete := popped.2.redownloadedHeaders.isEmpty && popped.2.processAllRemainingHeaders
      (⟨popped.1, true, !complete && fullHeadersMessage⟩, popped.2)

def processNextHeaders (s : HeadersSyncState) (receivedHeaders : List CBlockHeader)
  (fullHeadersMessage : Bool) : ProcessingResult × HeadersSyncState :=
  if receivedHeaders.isEmpty || s.downloadState == .final then (⟨[], false, false⟩, s)
  else
    let processed := sync.processHeaders s receivedHeaders fullHeadersMessage
    if processed.1.success && processed.1.requestMore then processed
    else (processed.1, finalize processed.2)

end Sync

end HeadersSync
