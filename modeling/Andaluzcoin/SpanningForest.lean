import Andaluzcoin.DepGraph
import Andaluzcoin.Ranking

/-!
# The spanning-forest linearization algorithm

`SpanningForestState` and `Linearize`. The vectors of the source indexed by transaction or by set
are functions, `INVALID_SET_IDX` is `none`, and the random number generator is any stream of
numbers, of which every draw takes the next one into its range. The loops over a chunk or over
the merges of a chunk have as fuel the number of sets or of chunks, and the two optimization
loops the cost limit, all of which suffice.
-/

namespace ClusterLinearize

open Function

/-- The answers of the generator, and how many of them have been used. -/
structure Rng where
  answers : ℕ → ℕ
  used : ℕ

namespace Rng

def randrange (rng : Rng) (range : ℕ) : ℕ × Rng :=
  (rng.answers rng.used % range, { rng with used := rng.used + 1 })

def rand64 (rng : Rng) : ℕ × Rng := rng.randrange (2 ^ 64)

def randbool (rng : Rng) : Bool × Rng :=
  let (bit, rng) := rng.randrange 2
  (bit == 1, rng)

end Rng

/-- An entry of the queue of chunks to minimize. -/
structure NonminimalChunk where
  chunkIdx : ℕ
  pivotIdx : ℕ
  movePivotDown : Bool
  secondStage : Bool
  deriving DecidableEq

structure SpanningForestState where
  chunkIdxs : Finset ℕ
  suboptimalIdxs : Finset ℕ
  depTopIdx : ℕ → ℕ → ℕ
  activeChildren : ℕ → Finset ℕ
  chunkIdx : ℕ → ℕ
  setInfo : ℕ → SetInfo
  reachable : ℕ → Finset ℕ × Finset ℕ
  suboptimalChunks : List ℕ
  nonminimalChunks : List NonminimalChunk
  rng : Rng
  cost : ℕ

/-- The children of a transaction: those that have it among their reduced parents. -/
def DepGraph.children (graph : DepGraph) (i : ℕ) : Finset ℕ :=
  graph.positions.filter fun child => i ∈ graph.getReducedParents child

/-- Append to a queue, and swap the new entry with the one at the drawn position. -/
def pushRandom {α : Type} (queue : List α) (entry : α) (j : ℕ) : List α :=
  match queue[j]? with
  | some other => queue.set j entry ++ [other]
  | none => queue ++ [entry]

namespace SpanningForestState

variable (graph : DepGraph)

/-- Every transaction in its own chunk. -/
def init (rng : Rng) : SpanningForestState :=
  let order := ascending graph.positions
  { chunkIdxs := Finset.range order.length
    suboptimalIdxs := ∅
    depTopIdx := fun _ _ => 0
    activeChildren := fun _ => ∅
    chunkIdx := fun i => order.idxOf i
    setInfo := fun idx => (order[idx]?.map (SetInfo.single graph)).getD SetInfo.empty
    reachable := fun idx =>
      (order[idx]?.map fun i => (graph.getReducedParents i, graph.children i)).getD (∅, ∅)
    suboptimalChunks := []
    nonminimalChunks := []
    rng
    cost := 39 * order.length + (48 * order.length +
      4 * (order.map fun i => (graph.getReducedParents i).card).sum) }

variable (s : SpanningForestState)

def charge (amount : ℕ) : SpanningForestState := { s with cost := s.cost + amount }

/-- The active dependencies with a parent among the transactions, in the order of the loops. -/
def activeDeps (transactions : Finset ℕ) : List (ℕ × ℕ) :=
  (ascending transactions).flatMap fun i => (ascending (s.activeChildren i)).map fun child => (i, child)

/-- Change the top set of each given dependency that has the transaction in it. -/
def changeTops (deps : List (ℕ × ℕ)) (pivot : ℕ) (change : SetInfo → SetInfo)
  (setInfo : ℕ → SetInfo) : ℕ → SetInfo :=
  deps.foldl
    (fun setInfo dep =>
      let idx := s.depTopIdx dep.1 dep.2
      if pivot ∈ (setInfo idx).transactions
        then update setInfo idx (change (setInfo idx)) else setInfo)
    setInfo

/-- The out-of-chunk parents and children of a set of transactions. -/
def getReachable (transactions : Finset ℕ) : Finset ℕ × Finset ℕ :=
  (transactions.biUnion graph.getReducedParents \ transactions,
    transactions.biUnion graph.children \ transactions)

/-- Make an inactive dependency between two chunks active; returns the merged chunk. -/
def activate (parentIdx childIdx : ℕ) : ℕ × SpanningForestState :=
  let parentChunkIdx := s.chunkIdx parentIdx
  let childChunkIdx := s.chunkIdx childIdx
  let topInfo := s.setInfo parentChunkIdx
  let bottomInfo := s.setInfo childChunkIdx
  let setInfo := s.changeTops (s.activeDeps topInfo.transactions) parentIdx
    (fun info => info.union bottomInfo) s.setInfo
  let setInfo := s.changeTops (s.activeDeps bottomInfo.transactions) childIdx
    (fun info => info.union topInfo) setInfo
  let merged := bottomInfo.union topInfo
  let above := (s.reachable childChunkIdx).1 ∪ (s.reachable parentChunkIdx).1
  let below := (s.reachable childChunkIdx).2 ∪ (s.reachable parentChunkIdx).2
  (childChunkIdx,
    { s with
      chunkIdxs := s.chunkIdxs.erase parentChunkIdx
      depTopIdx := update s.depTopIdx parentIdx
        (update (s.depTopIdx parentIdx) childIdx parentChunkIdx)
      activeChildren := update s.activeChildren parentIdx
        (insert childIdx (s.activeChildren parentIdx))
      chunkIdx := fun i => if i ∈ topInfo.transactions then childChunkIdx else s.chunkIdx i
      setInfo := update setInfo childChunkIdx merged
      reachable := update s.reachable childChunkIdx
        (above \ merged.transactions, below \ merged.transactions)
      cost := s.cost + (10 * (merged.transactions.card - 1) + 1) })

/-- Make an active dependency inactive; returns the chunks of the parent and of the child. -/
def deactivate (parentIdx childIdx : ℕ) : (ℕ × ℕ) × SpanningForestState :=
  let parentChunkIdx := s.depTopIdx parentIdx childIdx
  let childChunkIdx := s.chunkIdx parentIdx
  let topInfo := s.setInfo parentChunkIdx
  let chunkInfo := s.setInfo childChunkIdx
  let s := { s with
    activeChildren := update s.activeChildren parentIdx
      ((s.activeChildren parentIdx).erase childIdx)
    chunkIdxs := insert parentChunkIdx s.chunkIdxs }
  let bottomInfo := chunkInfo.sdiff topInfo
  let setInfo := update s.setInfo childChunkIdx bottomInfo
  let setInfo := s.changeTops (s.activeDeps topInfo.transactions) parentIdx
    (fun info => info.sdiff bottomInfo) setInfo
  let setInfo := s.changeTops (s.activeDeps bottomInfo.transactions) childIdx
    (fun info => info.sdiff topInfo) setInfo
  ((parentChunkIdx, childChunkIdx),
    { s with
      chunkIdx := fun i => if i ∈ topInfo.transactions then parentChunkIdx else s.chunkIdx i
      setInfo
      reachable := update
        (update s.reachable parentChunkIdx (getReachable graph topInfo.transactions))
        childChunkIdx (getReachable graph bottomInfo.transactions)
      cost := s.cost + (11 * (chunkInfo.transactions.card - 1) + 8) })

/-- Find the picked dependency from the bottom to the top, and count the transactions looked
at. -/
def findDependency (bottom : Finset ℕ) : List ℕ → ℕ → ℕ → Option ((ℕ × ℕ) × ℕ)
  | [], _, _ => none
  | i :: rest, pick, steps =>
    let intersect := graph.children i ∩ bottom
    if pick < intersect.card then
      (ascending intersect)[pick]?.map fun child => ((i, child), steps + 1)
    else findDependency bottom rest (pick - intersect.card) (steps + 1)

/-- Activate a dependency from the bottom set to the top set, which must exist. -/
def mergeChunks (topIdx bottomIdx : ℕ) : Option ℕ × SpanningForestState :=
  let top := (s.setInfo topIdx).transactions
  let bottom := (s.setInfo bottomIdx).transactions
  let numDeps := ∑ i ∈ top, (graph.children i ∩ bottom).card
  let (pick, rng) := s.rng.randrange numDeps
  let s := { s with rng, cost := s.cost + 2 * top.card }
  match findDependency graph bottom (ascending top) pick 0 with
  | some ((parentIdx, childIdx), steps) =>
    let (merged, s) := (s.charge (3 * steps + 5)).activate parentIdx childIdx
    (some merged, s)
  | none => (none, s)

/-- Merge a chunk with one above it or, downward, with one below it. -/
def mergeChunksDirected (downWard : Bool) (chunkIdx mergeChunkIdx : ℕ) :
  Option ℕ × SpanningForestState :=
  if downWard then s.mergeChunks graph chunkIdx mergeChunkIdx
  else s.mergeChunks graph mergeChunkIdx chunkIdx

/-- The best chunk found so far to merge with. -/
structure MergeCandidate where
  feerate : FeeFrac
  idx : Option ℕ
  tiebreak : ℕ

/-- The comparison of a reached chunk with the best one, in a direction. -/
def compareToward (downWard : Bool) (best reached : FeeFrac) : Ordering :=
  if downWard then best.feeRateCompare reached else reached.feeRateCompare best

/-- Look at the chunks of the remaining transactions, one by one. -/
def pickMergeLoop (downWard : Bool) :
  ℕ → Finset ℕ → MergeCandidate → Rng → ℕ → MergeCandidate × Rng × ℕ
  | 0, _, best, rng, steps => (best, rng, steps)
  | fuel + 1, todo, best, rng, steps =>
    match first todo with
    | none => (best, rng, steps)
    | some i =>
      let reachedIdx := s.chunkIdx i
      let reached := s.setInfo reachedIdx
      let cmp := compareToward downWard best.feerate reached.feerate
      if cmp = .gt then
        pickMergeLoop downWard fuel (todo \ reached.transactions) best rng (steps + 1)
      else
        let (tiebreak, rng) := rng.rand64
        let best := if cmp = .lt ∨ best.tiebreak ≤ tiebreak
          then ⟨reached.feerate, some reachedIdx, tiebreak⟩ else best
        pickMergeLoop downWard fuel (todo \ reached.transactions) best rng (steps + 1)

/-- The chunk to merge a chunk with, if any: the lowest-feerate one above of no higher feerate
or, downward, the highest-feerate one below of no lower feerate. -/
def pickMergeCandidate (downWard : Bool) (chunkIdx : ℕ) : Option ℕ × SpanningForestState :=
  let todo := if downWard then (s.reachable chunkIdx).2 else (s.reachable chunkIdx).1
  let (best, rng, steps) := s.pickMergeLoop downWard todo.card todo
    ⟨(s.setInfo chunkIdx).feerate, none, 0⟩ s.rng 0
  (best.idx, { s with rng, cost := s.cost + 8 * steps })

def mergeStep (downWard : Bool) (chunkIdx : ℕ) : Option ℕ × SpanningForestState :=
  let (candidate, s) := s.pickMergeCandidate downWard chunkIdx
  match candidate with
  | none => (none, s)
  | some mergeChunkIdx => s.mergeChunksDirected graph downWard chunkIdx mergeChunkIdx

/-- Merge steps as long as they succeed. -/
def mergeAll (downWard : Bool) : ℕ → SpanningForestState → ℕ → ℕ × SpanningForestState
  | 0, s, chunkIdx => (chunkIdx, s)
  | fuel + 1, s, chunkIdx =>
    match s.mergeStep graph downWard chunkIdx with
    | (none, s) => (chunkIdx, s)
    | (some merged, s) => mergeAll downWard fuel s merged

/-- Queue a chunk for improvement, unless it is there already. -/
def pushSuboptimal (chunkIdx : ℕ) : SpanningForestState :=
  if chunkIdx ∈ s.suboptimalIdxs then s
  else { s with
    suboptimalIdxs := insert chunkIdx s.suboptimalIdxs
    suboptimalChunks := s.suboptimalChunks ++ [chunkIdx] }

/-- A merge sequence; the chunk it ends with is queued. -/
def mergeSequence (downWard : Bool) (chunkIdx : ℕ) : SpanningForestState :=
  let (merged, s) := mergeAll graph downWard s.chunkIdxs.card s chunkIdx
  s.pushSuboptimal merged

/-- Split a chunk, and merge the two new chunks to make the state topological again. -/
def improve (parentIdx childIdx : ℕ) : SpanningForestState :=
  let ((parentChunkIdx, childChunkIdx), s) := s.deactivate graph parentIdx childIdx
  if ((s.reachable parentChunkIdx).1 ∩ (s.setInfo childChunkIdx).transactions).Nonempty then
    match s.mergeChunks graph childChunkIdx parentChunkIdx with
    | (some merged, s) => s.pushSuboptimal merged
    | (none, s) => s
  else (s.mergeSequence graph false parentChunkIdx).mergeSequence graph true childChunkIdx

/-- Pop entries off the queue until one of them is a chunk. -/
def pickChunkLoop : List ℕ → SpanningForestState → ℕ → Option ℕ × SpanningForestState
  | [], s, steps => (none, { s with suboptimalChunks := [], cost := s.cost + (steps + 4) })
  | chunkIdx :: rest, s, steps =>
    let s := { s with
      suboptimalIdxs := s.suboptimalIdxs.erase chunkIdx
      suboptimalChunks := rest }
    if chunkIdx ∈ s.chunkIdxs then (some chunkIdx, s.charge (steps + 1 + 4))
    else pickChunkLoop rest s (steps + 1)

def pickChunkToOptimize : Option ℕ × SpanningForestState := pickChunkLoop s.suboptimalChunks s 0

/-- The best dependency found so far to split at. -/
structure SplitCandidate where
  dep : Option (ℕ × ℕ)
  tiebreak : ℕ
  rng : Rng

/-- A dependency of the chunk whose top set has a higher feerate than the chunk, if any. -/
def pickDependencyToSplit (chunkIdx : ℕ) : Option (ℕ × ℕ) × SpanningForestState :=
  let chunkInfo := s.setInfo chunkIdx
  let best := (s.activeDeps chunkInfo.transactions).foldl
    (fun best dep =>
      let top := s.setInfo (s.depTopIdx dep.1 dep.2)
      if top.feerate.feeRateCompare chunkInfo.feerate = .gt then
        let (tiebreak, rng) := best.rng.rand64
        if tiebreak < best.tiebreak then { best with rng } else ⟨some dep, tiebreak, rng⟩
      else best)
    (⟨none, 0, s.rng⟩ : SplitCandidate)
  (best.dep, { s with
    rng := best.rng
    cost := s.cost + (8 * chunkInfo.transactions.card + 9) })

/-- Merge the chunks upwards one by one, in the order of a linearization. -/
def loadLinearization (linearization : List ℕ) : SpanningForestState :=
  linearization.foldl
    (fun s i => (mergeAll graph false s.chunkIdxs.card s (s.chunkIdx i)).2) s

/-- Queue the chunks in random order. -/
def queueAll : SpanningForestState :=
  (ascending s.chunkIdxs).foldl
    (fun s chunkIdx =>
      let (j, rng) := s.rng.randrange (s.suboptimalChunks.length + 1)
      { s with rng, suboptimalChunks := pushRandom s.suboptimalChunks chunkIdx j })
    { s with suboptimalIdxs := s.chunkIdxs }

/-- One of the merge attempts for a popped chunk: on success, the merged chunk is queued. -/
def attemptMerge (downWard : Bool) (chunkIdx : ℕ) (mergedChunks : Finset ℕ) :
  Option (Finset ℕ) × SpanningForestState :=
  match s.mergeStep graph downWard chunkIdx with
  | (none, s) => (none, s)
  | (some result, s) => (some (insert result mergedChunks), s.pushSuboptimal result)

/-- The two merge attempts for a popped chunk, in the order and the directions given. -/
def attemptMerges (chunkIdx : ℕ) (up down flip : Bool) (mergedChunks : Finset ℕ) :
  Finset ℕ × SpanningForestState :=
  let firstDown := !flip
  let attempt := fun (s : SpanningForestState) (downWard : Bool) =>
    if (if downWard then down else up) then s.attemptMerge graph downWard chunkIdx mergedChunks
    else (none, s)
  match attempt s firstDown with
  | (some merged, s) => (merged, s)
  | (none, s) =>
    match attempt s (!firstDown) with
    | (some merged, s) => (merged, s)
    | (none, s) => (mergedChunks, s)

/-- Pop chunks off the queue and merge them until none is left; counts the steps. -/
def makeTopologicalLoop (initDown : Bool) :
  ℕ → SpanningForestState → Finset ℕ → ℕ → ℕ × SpanningForestState
  | 0, s, _, steps => (steps, s)
  | fuel + 1, s, mergedChunks, steps =>
    match s.suboptimalChunks with
    | [] => (steps, s)
    | chunkIdx :: rest =>
      let s := { s with
        suboptimalChunks := rest
        suboptimalIdxs := s.suboptimalIdxs.erase chunkIdx }
      if chunkIdx ∈ s.chunkIdxs then
        let both := decide (chunkIdx ∈ mergedChunks)
        let (flip, rng) := s.rng.randbool
        let (mergedChunks, s) := { s with rng }.attemptMerges graph chunkIdx
          (both || !initDown) (both || initDown) flip mergedChunks
        makeTopologicalLoop initDown fuel s mergedChunks (steps + 1)
      else makeTopologicalLoop initDown fuel s mergedChunks (steps + 1)

/-- Make the state topological. Each step takes a chunk off the queue, or merges two. -/
def makeTopological : SpanningForestState :=
  let (initDown, rng) := s.rng.randbool
  let chunks := s.chunkIdxs.card
  let s := { s with rng }.queueAll
  let (steps, s) := makeTopologicalLoop graph initDown (2 * chunks) s ∅ 0
  s.charge (20 * chunks + 28 * steps)

def startOptimizing : SpanningForestState :=
  let s := s.queueAll
  s.charge (13 * s.suboptimalChunks.length)

/-- Try to improve the forest; false if it is optimal. -/
def optimizeStep : Bool × SpanningForestState :=
  match s.pickChunkToOptimize with
  | (none, s) => (false, s)
  | (some chunkIdx, s) =>
    match s.pickDependencyToSplit chunkIdx with
    | (none, s) => (!s.suboptimalChunks.isEmpty, s)
    | (some (parentIdx, childIdx), s) => (true, s.improve graph parentIdx childIdx)

/-- A random transaction of a set, which must not be empty. -/
def pickRandomTx (transactions : Finset ℕ) : ℕ × SpanningForestState :=
  let (pos, rng) := s.rng.randrange transactions.card
  ((ascending transactions).getD pos 0, { s with rng })

/-- Queue all chunks for minimization, each with a random pivot and direction. -/
def startMinimizing : SpanningForestState :=
  let s := (ascending s.chunkIdxs).foldl
    (fun s chunkIdx =>
      let (pivotIdx, s) := s.pickRandomTx (s.setInfo chunkIdx).transactions
      let (down, rng) := s.rng.randbool
      let (j, rng) := rng.randrange (s.nonminimalChunks.length + 1)
      { s with
        rng
        nonminimalChunks := pushRandom s.nonminimalChunks ⟨chunkIdx, pivotIdx, down, false⟩ j })
    { s with nonminimalChunks := [] }
  s.charge (18 * s.nonminimalChunks.length)

/-- What the search for an equal-feerate dependency has found. -/
structure EqualCandidate where
  dep : ℕ × ℕ
  tiebreak : ℕ
  haveAny : Bool
  rng : Rng

/-- Look for a dependency of the chunk with top and bottom of equal feerate and the pivot on the
wanted side. -/
def findEqual (entry : NonminimalChunk) : EqualCandidate :=
  let chunkInfo := s.setInfo entry.chunkIdx
  (s.activeDeps chunkInfo.transactions).foldl
    (fun found dep =>
      let top := s.setInfo (s.depTopIdx dep.1 dep.2)
      if top.feerate.lowerFeeRate chunkInfo.feerate then found
      else if entry.movePivotDown = decide (entry.pivotIdx ∈ top.transactions) then
        { found with haveAny := true }
      else
        let (draw, rng) := found.rng.rand64
        let tiebreak := draw ||| 1
        if found.tiebreak < tiebreak then ⟨dep, tiebreak, true, rng⟩
        else { found with haveAny := true, rng })
    ⟨(0, 0), 0, false, s.rng⟩

/-- Queue the two chunks of a split: the one with the pivot goes on with it, the other one gets
a new pivot. -/
def queueSplit (entry : NonminimalChunk) (parentChunkIdx childChunkIdx : ℕ) : SpanningForestState :=
  let newIdx := if entry.movePivotDown then parentChunkIdx else childChunkIdx
  let (newPivot, s) := s.pickRandomTx (s.setInfo newIdx).transactions
  let (down, rng) := s.rng.randbool
  let (swap, rng) := rng.randbool
  let (parent, child) : NonminimalChunk × NonminimalChunk :=
    if entry.movePivotDown then
      (⟨parentChunkIdx, newPivot, down, false⟩, { entry with chunkIdx := childChunkIdx })
    else ({ entry with chunkIdx := parentChunkIdx }, ⟨childChunkIdx, newPivot, down, false⟩)
  { s with
    rng
    nonminimalChunks := s.nonminimalChunks ++ if swap then [child, parent] else [parent, child]
    cost := s.cost + (17 + 7) }

/-- Try to reduce a chunk's size; false if all chunks are minimal. -/
def minimizeStep : Bool × SpanningForestState :=
  match s.nonminimalChunks with
  | [] => (false, s)
  | entry :: rest =>
    let found := s.findEqual entry
    let s := { s with
      nonminimalChunks := rest
      rng := found.rng
      cost := s.cost + (11 * (s.setInfo entry.chunkIdx).transactions.card + 11) }
    if !found.haveAny then (true, s)
    else if found.tiebreak = 0 then
      if entry.secondStage then (true, s)
      else (true, { s with
        nonminimalChunks := s.nonminimalChunks ++
          [{ entry with movePivotDown := !entry.movePivotDown, secondStage := true }] })
    else
      let ((parentChunkIdx, childChunkIdx), s) := s.deactivate graph found.dep.1 found.dep.2
      if ((s.reachable parentChunkIdx).1 ∩ (s.setInfo childChunkIdx).transactions).Nonempty then
        match s.mergeChunks graph childChunkIdx parentChunkIdx with
        | (some merged, s) => (true, { s with
            nonminimalChunks := s.nonminimalChunks ++ [{ entry with chunkIdx := merged }]
            cost := s.cost + 7 })
        | (none, s) => (true, s)
      else (true, s.queueSplit entry parentChunkIdx childChunkIdx)

end SpanningForestState

/-- A strong order of the transactions of a cluster. -/
structure FallbackOrder (graph : DepGraph) where
  compare : ℕ → ℕ → Ordering
  refl : ∀ i ∈ graph.positions, compare i i = .eq
  eq : ∀ i ∈ graph.positions, ∀ j ∈ graph.positions, compare i j = .eq → i = j
  swap : ∀ i ∈ graph.positions, ∀ j ∈ graph.positions, compare i j = (compare j i).swap
  trans : ∀ i ∈ graph.positions, ∀ j ∈ graph.positions, ∀ k ∈ graph.positions,
    compare i j = .lt → compare j k = .lt → compare i k = .lt

/-- What the emission of a linearization has done so far. -/
structure Emission where
  ret : List ℕ
  readyChunks : List (ℕ × ℕ)
  readyTx : List ℕ
  chunkDeps : ℕ → ℕ
  txDeps : ℕ → ℕ

namespace SpanningForestState

variable {graph : DepGraph} (fallback : FallbackOrder graph) (s : SpanningForestState)

/-- The highest element of a chunk, by the fallback order. -/
def maxFallback (chunkIdx : ℕ) : ℕ :=
  match ascending (s.setInfo chunkIdx).transactions with
  | [] => 0
  | i :: rest => rest.foldl (fun ret i => if fallback.compare i ret = .gt then i else ret) i

/-- The transaction appears after the other. -/
def txAfter (a b : ℕ) : Bool :=
  if a = b then false
  else
    let feerateA := graph.feerate a
    let feerateB := graph.feerate b
    match feerateA.feeRateCompare feerateB with
    | .lt => true
    | .gt => false
    | .eq =>
      if feerateA.size ≠ feerateB.size then decide (feerateB.size < feerateA.size)
      else match fallback.compare a b with
        | .gt => true
        | .lt => false
        | .eq => decide (a < b)

/-- The chunk appears after the other. -/
def chunkAfter (a b : ℕ × ℕ) : Bool :=
  if a.1 = b.1 then false
  else
    let feerateA := (s.setInfo a.1).feerate
    let feerateB := (s.setInfo b.1).feerate
    match feerateA.feeRateCompare feerateB with
    | .lt => true
    | .gt => false
    | .eq =>
      if feerateA.size ≠ feerateB.size then decide (feerateB.size < feerateA.size)
      else match fallback.compare a.2 b.2 with
        | .gt => true
        | .lt => false
        | .eq => decide (a.2 < b.2)

/-- The dependency counts at the start, and the chunks without a dependency. -/
def startEmission : Emission :=
  let chunkDeps := (ascending graph.positions).foldl
    (fun deps child =>
      let idx := s.chunkIdx child
      update deps idx
        (deps idx + (graph.getReducedParents child \ (s.setInfo idx).transactions).card))
    (fun _ => 0)
  { ret := []
    readyChunks := ((ascending s.chunkIdxs).filter fun idx => chunkDeps idx == 0).map
      fun idx => (idx, s.maxFallback fallback idx)
    readyTx := []
    chunkDeps
    txDeps := fun i => (graph.getReducedParents i).card }

/-- A parent of this child has been included. -/
def countDown (chunkIdx : ℕ) (e : Emission) (child : ℕ) : Emission :=
  let left := e.txDeps child - 1
  let e := { e with
    txDeps := update e.txDeps child left
    readyTx := if left = 0 ∧ child ∈ (s.setInfo chunkIdx).transactions
      then e.readyTx ++ [child] else e.readyTx }
  let childChunkIdx := s.chunkIdx child
  if childChunkIdx ≠ chunkIdx then
    let left := e.chunkDeps childChunkIdx - 1
    { e with
      chunkDeps := update e.chunkDeps childChunkIdx left
      readyChunks := if left = 0
        then e.readyChunks ++ [(childChunkIdx, s.maxFallback fallback childChunkIdx)]
        else e.readyChunks }
  else e

/-- Include the transactions of a chunk, as they become ready. -/
def emitTransactions (chunkIdx : ℕ) : ℕ → Emission → Emission
  | 0, e => e
  | fuel + 1, e =>
    match Ranking.greatest (txAfter fallback) e.readyTx with
    | none => e
    | some i =>
      emitTransactions chunkIdx fuel ((ascending (graph.children i)).foldl
        (s.countDown fallback chunkIdx)
        { e with readyTx := e.readyTx.erase i, ret := e.ret ++ [i] })

/-- Include the chunks, as they become ready. -/
def emitChunks : ℕ → Emission → Emission
  | 0, e => e
  | fuel + 1, e =>
    match Ranking.greatest (s.chunkAfter fallback) e.readyChunks with
    | none => e
    | some chunk =>
      let transactions := (s.setInfo chunk.1).transactions
      emitChunks fuel (s.emitTransactions fallback chunk.1 transactions.card
        { e with
          readyChunks := e.readyChunks.erase chunk
          readyTx := (ascending transactions).filter fun i => e.txDeps i == 0 })

/-- A topologically valid linearization from a topological forest. -/
def getLinearization : List ℕ :=
  (s.emitChunks fallback s.chunkIdxs.card (s.startEmission fallback)).ret

end SpanningForestState

/-- Optimization steps until there is nothing to improve, or the cost limit is reached. -/
def optimizeLoop (graph : DepGraph) (maxCost : ℕ) : ℕ → SpanningForestState → SpanningForestState
  | 0, s => s
  | fuel + 1, s =>
    match s.optimizeStep graph with
    | (false, s) => s
    | (true, s) => if s.cost < maxCost then optimizeLoop graph maxCost fuel s else s

/-- Minimization steps until all chunks are minimal, or the cost limit is reached. -/
def minimizeLoop (graph : DepGraph) (maxCost : ℕ) :
  ℕ → SpanningForestState → Bool × SpanningForestState
  | 0, s => (false, s)
  | fuel + 1, s =>
    match s.minimizeStep graph with
    | (false, s) => (true, s)
    | (true, s) => if s.cost < maxCost then minimizeLoop graph maxCost fuel s else (false, s)

structure Linearized where
  linearization : List ℕ
  optimal : Bool
  cost : ℕ

/-- The forest for an old linearization or, without one, a topological forest. -/
def loadForest (graph : DepGraph) (rng : Rng) (oldLinearization : List ℕ) (isTopological : Bool) :
  SpanningForestState :=
  let forest := SpanningForestState.init graph rng
  if oldLinearization ≠ [] then
    let forest := forest.loadLinearization graph oldLinearization
    if isTopological then forest else forest.makeTopological graph
  else forest.makeTopological graph

/-- Find or improve a linearization for a cluster. -/
def linearize (graph : DepGraph) (maxCost : ℕ) (rng : Rng) (fallback : FallbackOrder graph)
  (oldLinearization : List ℕ) (isTopological : Bool) : Linearized :=
  let forest := loadForest graph rng oldLinearization isTopological
  let forest := if forest.cost < maxCost
    then optimizeLoop graph maxCost maxCost forest.startOptimizing else forest
  let (optimal, forest) := if forest.cost < maxCost
    then minimizeLoop graph maxCost maxCost forest.startMinimizing else (false, forest)
  ⟨forest.getLinearization fallback, optimal, forest.cost⟩

end ClusterLinearize
