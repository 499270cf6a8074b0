import Andaluzcoin.Transaction

/-!
# The coins view and its caches

`CCoinsView`, `CCoinsViewCache`, `CoinsViewOverlay` and `CoinsViewCacheCursor` of
`coins.h` and `coins.cpp`. A view is a map of unspent coins at the bottom with
any number of cache layers above it. The doubly linked list of flagged entries
is the list of their keys, in the order the sentinel's `Next` pointers give.
Lookups pass the view on, since a miss fills the caches it went through.
-/

namespace Coins

open Transaction

/-- The ways an operation of a coins view stops the program. -/
inductive CoinsError where
  | addSpentCoin
  | overwriteUnspent
  | freshMisapplied
  | flagsNotCleared
  deriving DecidableEq

/-- `memusage::MallocUsage` on a 64-bit platform. -/
def mallocUsage (alloc : ℕ) : ℕ := if alloc = 0 then 0 else ((alloc + 31) / 16) * 16

/-- A script of at most 36 bytes is stored in the `prevector` itself. -/
def dynamicMemoryUsage (coin : Coin) : ℕ :=
  if coin.out.scriptPubKey.length ≤ 36 then 0 else mallocUsage coin.out.scriptPubKey.length

@[simp] lemma dynamicMemoryUsage_empty : dynamicMemoryUsage Coin.empty = 0 := rfl

/-- `TrySub`: the counter is left alone when it would underflow. -/
def trySub (i j : ℕ) : ℕ := if i < j then i else i - j

structure CCoinsCacheEntry where
  coin : Coin
  dirty : Bool
  fresh : Bool
  deriving DecidableEq

namespace CCoinsCacheEntry

/-- The default-constructed entry that `emplace` and `try_emplace` insert. -/
def new : CCoinsCacheEntry := ⟨Coin.empty, false, false⟩

def isFlagged (e : CCoinsCacheEntry) : Bool := e.dirty || e.fresh

def setClean (e : CCoinsCacheEntry) : CCoinsCacheEntry := { e with dirty := false, fresh := false }

/-- The coin of an entry as `GetCoin` and `PeekCoin` report it. -/
def unspent (e : CCoinsCacheEntry) : Option Coin := if e.coin.isSpent then none else some e.coin

end CCoinsCacheEntry

abbrev CCoinsMap := AList fun _ : COutPoint => CCoinsCacheEntry

/-- The members of one `CCoinsViewCache`, apart from the pointer to its base.
`isOverlay` tells a `CoinsViewOverlay`. -/
structure CacheLayer where
  isOverlay : Bool
  hashBlock : Uint256
  flagged : List COutPoint
  cacheCoins : CCoinsMap
  cachedCoinsUsage : ℕ
  dirtyCount : ℕ

namespace CacheLayer

def new (isOverlay : Bool) : CacheLayer := ⟨isOverlay, 0, [], ∅, 0, 0⟩

def entry (l : CacheLayer) (o : COutPoint) : Option CCoinsCacheEntry := l.cacheCoins.lookup o

/-- `AddFlags` links an entry before the sentinel when it gets its first flag, and
`SetClean` unlinks one that had a flag. -/
def relink (l : CacheLayer) (o : COutPoint) (nowFlagged : Bool) : List COutPoint :=
  match (l.entry o).any CCoinsCacheEntry.isFlagged, nowFlagged with
  | false, true => l.flagged ++ [o]
  | true, false => l.flagged.erase o
  | _, _ => l.flagged

def putEntry (l : CacheLayer) (o : COutPoint) (e : CCoinsCacheEntry) : CacheLayer :=
  { l with cacheCoins := l.cacheCoins.insert o e, flagged := l.relink o e.isFlagged }

/-- Erasing runs the destructor of the entry, which unlinks it. -/
def eraseEntry (l : CacheLayer) (o : COutPoint) : CacheLayer :=
  { l with cacheCoins := l.cacheCoins.erase o, flagged := l.relink o false }

/-- The flagged entries in the order a `CoinsViewCacheCursor` visits them. -/
def cursor (l : CacheLayer) : List (COutPoint × CCoinsCacheEntry) :=
  l.flagged.filterMap fun o => (l.entry o).map fun e => (o, e)

/-- `NextAndMaybeErase` of a cursor whose `m_will_erase` is false. -/
def nextAndMaybeErase (l : CacheLayer) (p : COutPoint × CCoinsCacheEntry) : CacheLayer :=
  let l := { l with dirtyCount := trySub l.dirtyCount p.2.dirty.toNat }
  if p.2.coin.isSpent then l.eraseEntry p.1 else l.putEntry p.1 p.2.setClean

def addCoin (l : CacheLayer) (o : COutPoint) (coin : Coin) (possibleOverwrite : Bool) :
  Except CoinsError CacheLayer :=
  if coin.isSpent then .error .addSpentCoin
  else if isUnspendable coin.out.scriptPubKey then .ok l
  else
    let old := (l.entry o).getD CCoinsCacheEntry.new
    if !possibleOverwrite && !old.coin.isSpent then .error .overwriteUnspent
    else
      let fresh := !possibleOverwrite && !old.dirty
      let usage := trySub l.cachedCoinsUsage (dynamicMemoryUsage old.coin)
      .ok { l.putEntry o ⟨coin, true, old.fresh || fresh⟩ with
        dirtyCount := trySub l.dirtyCount old.dirty.toNat + 1
        cachedCoinsUsage := usage + dynamicMemoryUsage coin }

/-- One iteration of `CCoinsViewCache::BatchWrite`. -/
def batchWriteEntry (l : CacheLayer) (p : COutPoint × CCoinsCacheEntry) :
  Except CoinsError CacheLayer :=
  if !p.2.dirty then .ok l
  else
    match l.entry p.1 with
    | none =>
      if p.2.fresh && p.2.coin.isSpent then .ok l
      else
        .ok { l.putEntry p.1 ⟨p.2.coin, true, p.2.fresh⟩ with
          dirtyCount := l.dirtyCount + 1
          cachedCoinsUsage := l.cachedCoinsUsage + dynamicMemoryUsage p.2.coin }
    | some us =>
      let usage := trySub l.cachedCoinsUsage (dynamicMemoryUsage us.coin)
      if p.2.fresh && !us.coin.isSpent then .error .freshMisapplied
      else if us.fresh && p.2.coin.isSpent then
        .ok { l.eraseEntry p.1 with
          dirtyCount := trySub l.dirtyCount us.dirty.toNat
          cachedCoinsUsage := usage }
      else
        .ok { l.putEntry p.1 ⟨p.2.coin, true, us.fresh⟩ with
          dirtyCount := if us.dirty then l.dirtyCount else l.dirtyCount + 1
          cachedCoinsUsage := usage + dynamicMemoryUsage p.2.coin }

def batchWrite (l : CacheLayer) (entries : List (COutPoint × CCoinsCacheEntry))
  (hashBlock : Uint256) : Except CoinsError CacheLayer :=
  (entries.foldlM batchWriteEntry l).map fun l => { l with hashBlock }

/-- What a cache is after `Flush` has cleared it. -/
def wiped (l : CacheLayer) : CacheLayer :=
  { l with
    flagged := []
    cacheCoins := ∅
    cachedCoinsUsage := 0
    dirtyCount := l.cursor.foldl (fun n p => trySub n p.2.dirty.toNat) l.dirtyCount }

def reset (l : CacheLayer) : CacheLayer := CacheLayer.new l.isOverlay

def uncache (l : CacheLayer) (o : COutPoint) : CacheLayer :=
  match l.entry o with
  | none => l
  | some e =>
    if e.dirty then l
    else
      { l.eraseEntry o with
        cachedCoinsUsage := trySub l.cachedCoinsUsage (dynamicMemoryUsage e.coin) }

end CacheLayer

/-- A map of unspent coins, such as the coins database. -/
structure CoinsViewBottom where
  data : AList fun _ : COutPoint => Coin
  bestBlock : Uint256
  unspent : ∀ o coin, data.lookup o = some coin → coin.isSpent = false

namespace CoinsViewBottom

def getCoin (b : CoinsViewBottom) (o : COutPoint) : Option Coin := b.data.lookup o

def new : CoinsViewBottom := ⟨∅, 0, by simp⟩

def erase (b : CoinsViewBottom) (o : COutPoint) : CoinsViewBottom where
  data := b.data.erase o
  bestBlock := b.bestBlock
  unspent := by
    intro o' coin found
    by_cases same : o' = o
    · subst same
      simp at found
    · exact b.unspent o' coin (by rwa [AList.lookup_erase_ne same] at found)

def insert (b : CoinsViewBottom) (o : COutPoint) (coin : Coin) (h : coin.isSpent = false) :
  CoinsViewBottom where
  data := b.data.insert o coin
  bestBlock := b.bestBlock
  unspent := by
    intro o' coin' found
    by_cases same : o' = o
    · subst same
      obtain rfl : coin = coin' := by simpa using found
      exact h
    · exact b.unspent o' coin' (by rwa [AList.lookup_insert_ne same] at found)

/-- One iteration of `BatchWrite` at the bottom: dirty entries are written through. -/
def batchWriteEntry (b : CoinsViewBottom) (p : COutPoint × CCoinsCacheEntry) : CoinsViewBottom :=
  if p.2.dirty then
    if h : p.2.coin.isSpent = false then b.insert p.1 p.2.coin h else b.erase p.1
  else b

def batchWrite (b : CoinsViewBottom) (entries : List (COutPoint × CCoinsCacheEntry))
  (hashBlock : Uint256) : CoinsViewBottom :=
  { entries.foldl batchWriteEntry b with bestBlock := hashBlock }

end CoinsViewBottom

inductive CoinsView where
  | bottom (b : CoinsViewBottom)
  | cache (layer : CacheLayer) (base : CoinsView)

/-- A cache together with the view it is backed by. -/
structure CCoinsViewCache where
  layer : CacheLayer
  base : CoinsView

/-- `FetchCoin`: the entry at hand, or a clean one holding what the base returned. -/
def CacheLayer.fetchWith (l : CacheLayer) (o : COutPoint) (base : CoinsView)
  (fromBase : Option Coin × CoinsView) : Option CCoinsCacheEntry × CCoinsViewCache :=
  match l.entry o with
  | some e => (some e, ⟨l, base⟩)
  | none =>
    match fromBase.1 with
    | none => (none, ⟨l, fromBase.2⟩)
    | some coin =>
      (some ⟨coin, false, false⟩,
        ⟨{ l.putEntry o ⟨coin, false, false⟩ with
          cachedCoinsUsage := l.cachedCoinsUsage + dynamicMemoryUsage coin }, fromBase.2⟩)

def CCoinsViewCache.toView (v : CCoinsViewCache) : CoinsView := .cache v.layer v.base

namespace CoinsView

def peekCoin : CoinsView → COutPoint → Option Coin
  | .bottom b, o => b.getCoin o
  | .cache l base, o =>
    match l.entry o with
    | some e => e.unspent
    | none => base.peekCoin o

/-- A lookup that fills the caches on its way, up to an overlay, which peeks. -/
def getCoin : CoinsView → COutPoint → Option Coin × CoinsView
  | .bottom b, o => (b.getCoin o, .bottom b)
  | .cache l base, o =>
    let fetched :=
      l.fetchWith o base (if l.isOverlay then (base.peekCoin o, base) else base.getCoin o)
    (fetched.1.bind CCoinsCacheEntry.unspent, fetched.2.toView)

def getBestBlock : CoinsView → Uint256 × CoinsView
  | .bottom b => (b.bestBlock, .bottom b)
  | .cache l base =>
    if l.hashBlock = 0 then
      let r := base.getBestBlock
      (r.1, .cache { l with hashBlock := r.1 } r.2)
    else (l.hashBlock, .cache l base)

def batchWrite (v : CoinsView) (entries : List (COutPoint × CCoinsCacheEntry))
  (hashBlock : Uint256) : Except CoinsError CoinsView :=
  match v with
  | .bottom b => .ok (.bottom (b.batchWrite entries hashBlock))
  | .cache l base => (l.batchWrite entries hashBlock).map fun l => .cache l base

end CoinsView

namespace CCoinsViewCache

def peekCoin (v : CCoinsViewCache) (o : COutPoint) : Option Coin := v.toView.peekCoin o

def fetchCoinFromBase (v : CCoinsViewCache) (o : COutPoint) : Option Coin × CoinsView :=
  if v.layer.isOverlay then (v.base.peekCoin o, v.base) else v.base.getCoin o

def fetchCoin (v : CCoinsViewCache) (o : COutPoint) : Option CCoinsCacheEntry × CCoinsViewCache :=
  v.layer.fetchWith o v.base (v.fetchCoinFromBase o)

def getCoin (v : CCoinsViewCache) (o : COutPoint) : Option Coin × CCoinsViewCache :=
  ((v.fetchCoin o).1.bind CCoinsCacheEntry.unspent, (v.fetchCoin o).2)

def haveCoin (v : CCoinsViewCache) (o : COutPoint) : Bool × CCoinsViewCache :=
  ((v.fetchCoin o).1.any fun e => !e.coin.isSpent, (v.fetchCoin o).2)

def accessCoin (v : CCoinsViewCache) (o : COutPoint) : Coin × CCoinsViewCache :=
  ((v.fetchCoin o).1.elim Coin.empty CCoinsCacheEntry.coin, (v.fetchCoin o).2)

def addCoin (v : CCoinsViewCache) (o : COutPoint) (coin : Coin) (possibleOverwrite : Bool) :
  Except CoinsError CCoinsViewCache :=
  (v.layer.addCoin o coin possibleOverwrite).map fun l => { v with layer := l }

/-- The result is the coin moved out, or `none` where the source returns false. -/
def spendCoin (v : CCoinsViewCache) (o : COutPoint) : Option Coin × CCoinsViewCache :=
  match v.fetchCoin o with
  | (none, v) => (none, v)
  | (some e, v) =>
    let dirtyCount := trySub v.layer.dirtyCount e.dirty.toNat
    let usage := trySub v.layer.cachedCoinsUsage (dynamicMemoryUsage e.coin)
    if e.fresh then
      (some e.coin, { v with layer := { v.layer.eraseEntry o with
        dirtyCount := dirtyCount
        cachedCoinsUsage := usage } })
    else
      (some e.coin, { v with layer := { v.layer.putEntry o ⟨Coin.empty, true, false⟩ with
        dirtyCount := dirtyCount + 1
        cachedCoinsUsage := usage } })

def uncache (v : CCoinsViewCache) (o : COutPoint) : CCoinsViewCache :=
  { v with layer := v.layer.uncache o }

def flush (v : CCoinsViewCache) : Except CoinsError CCoinsViewCache :=
  (v.base.batchWrite v.layer.cursor v.layer.hashBlock).map fun base => ⟨v.layer.wiped, base⟩

def sync (v : CCoinsViewCache) : Except CoinsError CCoinsViewCache := do
  let base ← v.base.batchWrite v.layer.cursor v.layer.hashBlock
  let layer := v.layer.cursor.foldl CacheLayer.nextAndMaybeErase v.layer
  if layer.flagged ≠ [] then .error .flagsNotCleared else .ok ⟨layer, base⟩

def reset (v : CCoinsViewCache) : CCoinsViewCache := { v with layer := v.layer.reset }

def getBestBlock (v : CCoinsViewCache) : Uint256 × CCoinsViewCache :=
  if v.layer.hashBlock = 0 then
    let r := v.base.getBestBlock
    (r.1, ⟨{ v.layer with hashBlock := r.1 }, r.2⟩)
  else (v.layer.hashBlock, v)

def setBestBlock (v : CCoinsViewCache) (hashBlock : Uint256) : CCoinsViewCache :=
  { v with layer := { v.layer with hashBlock } }

end CCoinsViewCache

end Coins
