import Andaluzcoin.BlockTree

/-!
# The coins database and replaying blocks

`CCoinsViewDB::BatchWrite` of `txdb.cpp` as the list of batches it hands to the
database, each of them written as a whole, and `Chainstate::ReplayBlocks` of
`validation.cpp`, which a node runs when it finds the database in the middle of a flush.
-/

namespace ReplayBlocks

open Transaction Coins TxVerify ConnectBlock DisconnectBlock BlockTree

/-- The database: coins and the keys `DB_BEST_BLOCK` and `DB_HEAD_BLOCKS`, where a missing
key reads as the null hash and as the empty vector. -/
structure CCoinsViewDB extends CoinsViewBottom where
  headBlocks : List Uint256

inductive DbWrite where
  | eraseBestBlock
  | writeBestBlock (hash : Uint256)
  | eraseHeadBlocks
  | writeHeadBlocks (hashes : List Uint256)
  | eraseCoin (o : COutPoint)
  | writeCoin (o : COutPoint) (coin : Coin) (unspent : coin.isSpent = false)

abbrev CDBBatch := List DbWrite

namespace CCoinsViewDB

def write (db : CCoinsViewDB) : DbWrite → CCoinsViewDB
  | .eraseBestBlock => { db with bestBlock := 0 }
  | .writeBestBlock hash => { db with bestBlock := hash }
  | .eraseHeadBlocks => { db with headBlocks := [] }
  | .writeHeadBlocks hashes => { db with headBlocks := hashes }
  | .eraseCoin o => ⟨db.erase o, db.headBlocks⟩
  | .writeCoin o coin unspent => ⟨db.insert o coin unspent, db.headBlocks⟩

def writeBatch (db : CCoinsViewDB) (batch : CDBBatch) : CCoinsViewDB := batch.foldl write db

def writeBatches (db : CCoinsViewDB) (batches : List CDBBatch) : CCoinsViewDB :=
  batches.foldl writeBatch db

end CCoinsViewDB

inductive ReplayError where
  | assertion (what : String)
  | unknownState
  | unknownNewTip
  | unknownOldTip
  | disconnectFailed
  | logicError (error : CoinsError)
  | rollforward (failure : Failure BlockValidationResult)

def entryWrites (p : COutPoint × CCoinsCacheEntry) : CDBBatch :=
  if p.2.dirty then
    if unspent : p.2.coin.isSpent = false then [.writeCoin p.1 p.2.coin unspent]
    else [.eraseCoin p.1]
  else []

/-- The loop of `BatchWrite`: the partial batches it has written and the one it leaves. A
batch is written when it is `full`, as its size and `batch_write_bytes` decide. -/
def batchLoop (full : CDBBatch → Bool) (batch : CDBBatch) :
  List (COutPoint × CCoinsCacheEntry) → List CDBBatch × CDBBatch
  | [] => ([], batch)
  | p :: rest =>
    if full (batch ++ entryWrites p) then
      let later := batchLoop full [] rest
      ((batch ++ entryWrites p) :: later.1, later.2)
    else batchLoop full (batch ++ entryWrites p) rest

/-- The tip that a new flush starts from; in the middle of a flush, the one of that flush. -/
def oldTip (db : CCoinsViewDB) (hashBlock : Uint256) : Except ReplayError Uint256 :=
  if db.bestBlock = 0 then
    match db.headBlocks with
    | [new, old] =>
      if new = hashBlock then .ok old else .error (.assertion "old_heads[0] == hashBlock")
    | _ => .ok 0
  else .ok db.bestBlock

def batchWrite (full : CDBBatch → Bool) (db : CCoinsViewDB)
  (entries : List (COutPoint × CCoinsCacheEntry)) (hashBlock : Uint256) :
  Except ReplayError (List CDBBatch) := do
  if hashBlock = 0 then .error (.assertion "!hashBlock.IsNull()")
  else
    let old ← oldTip db hashBlock
    let written := batchLoop full [.eraseBestBlock, .writeHeadBlocks [hashBlock, old]] entries
    .ok (written.1 ++ [written.2 ++ [.eraseHeadBlocks, .writeBestBlock hashBlock]])

/-- `Flush` of a cache on top of the database. -/
def flushBatches (full : CDBBatch → Bool) (db : CCoinsViewDB) (cache : CCoinsViewCache) :
  Except ReplayError (List CDBBatch) :=
  batchWrite full db cache.layer.cursor cache.layer.hashBlock

/-- The body of the loop that rolls back; genesis is never disconnected. -/
def rollbackBlock (t : Tree) (old : Uint256) (b : StoredBlock) (cache : CCoinsViewCache) :
  Except ReplayError CCoinsViewCache :=
  if b.nHeight > 0 then do
    let (result, cache) ←
      (disconnectBlock b.block b.undo (position t.blockIndex old) cache).mapError .logicError
    if result = .failed then .error .disconnectFailed else .ok cache
  else .ok cache

/-- Roll back from `old` until the fork is reached, for at most `fuel` blocks. -/
def rollback (t : Tree) (fork : Uint256) : ℕ → Uint256 → CCoinsViewCache →
  Except ReplayError CCoinsViewCache
  | 0, old, cache => if old = fork then .ok cache else .error (.assertion "pindexOld")
  | fuel + 1, old, cache =>
    if old = fork then .ok cache
    else
      match t.blockIndex old with
      | none => .error (.assertion "pindexOld")
      | some b => do
        let cache ← rollbackBlock t old b cache
        match b.pprev with
        | none => .error (.assertion "pindexOld")
        | some p => rollback t fork fuel p cache

/-- Roll forward the blocks at the given heights on the way to `new`. -/
def rollforward (t : Tree) (new : Uint256) : List ℕ → CCoinsViewCache →
  Except ReplayError CCoinsViewCache
  | [], cache => .ok cache
  | nHeight :: rest, cache =>
    match (ParentTree.getAncestor t.pprev t.nHeight new nHeight).bind t.blockIndex with
    | none => .error (.assertion "pindexNew->GetAncestor(nHeight)")
    | some b => do
      let cache ← (rollforwardBlock b.block b.nHeight cache).mapError .rollforward
      rollforward t new rest cache

/-- The fork between the tips of an interrupted flush; none for a first flush. -/
def replayFork (t : Tree) (new old : Uint256) : Except ReplayError (Option Uint256) :=
  if old = 0 then .ok none
  else if (t.blockIndex old).isSome then
    match ParentTree.lastCommonAncestor t.pprev t.nHeight old new with
    | none => .error (.assertion "pindexFork != nullptr")
    | some fork => .ok (some fork)
  else .error .unknownOldTip

/-- `ReplayBlocks` up to its flush: the cache it flushes, or none where the database is in a
consistent state. -/
def replayBlocks (t : Tree) (db : CCoinsViewDB) : Except ReplayError (Option CCoinsViewCache) :=
  match db.headBlocks with
  | [] => .ok none
  | [new, old] =>
    if (t.blockIndex new).isSome then do
      let fork ← replayFork t new old
      let nForkHeight := fork.elim 0 t.nHeight
      let cache : CCoinsViewCache := ⟨CacheLayer.new false, .bottom db.toCoinsViewBottom⟩
      let cache ← (match fork with
        | none => .ok cache
        | some fork => rollback t fork (t.nHeight old) old cache : Except ReplayError _)
      let cache ← rollforward t new
        ((List.range (t.nHeight new - nForkHeight)).map (nForkHeight + 1 + ·)) cache
      .ok (some (cache.setBestBlock new))
    else .error .unknownNewTip
  | _ => .error .unknownState

/-- A run of `ReplayBlocks` that ends after `written` of the batches of its flush. -/
def replayUntil (t : Tree) (full : CDBBatch → Bool) (db : CCoinsViewDB) (written : ℕ) :
  Except ReplayError CCoinsViewDB := do
  match ← replayBlocks t db with
  | none => .ok db
  | some cache =>
    let batches ← flushBatches full db cache
    .ok (db.writeBatches (batches.take written))

/-- A run of `ReplayBlocks` to its end. -/
def replay (t : Tree) (full : CDBBatch → Bool) (db : CCoinsViewDB) :
  Except ReplayError CCoinsViewDB := do
  match ← replayBlocks t db with
  | none => .ok db
  | some cache =>
    let batches ← flushBatches full db cache
    .ok (db.writeBatches batches)

/-- Starts of the node that are all interrupted in the flush of `ReplayBlocks`, and a last
one that is not. -/
def restarts (t : Tree) (full : CDBBatch → Bool) : CCoinsViewDB → List ℕ →
  Except ReplayError CCoinsViewDB
  | db, [] => replay t full db
  | db, written :: rest => do
    let db ← replayUntil t full db written
    restarts t full db rest

end ReplayBlocks
