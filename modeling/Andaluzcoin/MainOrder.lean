import Andaluzcoin.BlockBuilder

/-!
# The mining order of the main graph

`CompareMainOrder` orders the transactions of all clusters. A block builder that includes everything
reports them in this order, and `GetWorstMainChunk` is its end.
-/

namespace TxGraph

open List BlockBuilderImpl

section
variable (g : TxGraphImpl)

/-- `CompareMainOrder`, once the clusters of both transactions are acceptable. -/
def compareMainOrder (a b : GraphIndex) : Ordering := g.compareMainTransactions a b

/-- `GetMainChunkFeerate` of a transaction of the main graph. -/
def getMainChunkFeerate (a : GraphIndex) : FeeFrac := (g.entries a).mainChunkFeerate

def getWorstMainChunk : Chunk :=
  match g.mainChunkindex.getLast? with
  | none => ([], FeeFrac.empty)
  | some data =>
    let chunkEndEntry := g.entries data.graphIndex
    match data.chunkCount, chunkEndEntry.cluster with
    | none, _ => ([chunkEndEntry.ref], chunkEndEntry.mainChunkFeerate)
    | some count, some cluster =>
      if count = 1 then ([chunkEndEntry.ref], chunkEndEntry.mainChunkFeerate)
      else
        let startPos := chunkEndEntry.mainLinIndex + 1 - count
        ((cluster.getClusterRefs g count startPos).1.reverse, chunkEndEntry.mainChunkFeerate)
    | some _, none => ([], chunkEndEntry.mainChunkFeerate)

/-- `Include` after every `GetCurrentChunk`. -/
def includeAll (rounds : ℕ) : List Call :=
  (List.replicate rounds [Call.getCurrentChunk, Call.includeChunk]).flatten

/-- What `GetCurrentChunk` returned. -/
def reported (events : List Event) : List Chunk :=
  events.filterMap fun e => if e.1 = .getCurrentChunk then e.2 else none

/-- The chunks that a new builder reports when all of them are included. -/
def reportedChunks (uninitialized : Bool) (rounds : ℕ) : List Chunk :=
  reported ((new g uninitialized).run g (includeAll rounds)).2

end

namespace MainGraph

/-- The order of the transactions of a graph, and what agrees with it. -/
structure MiningOrder (G : MainGraph) : Prop where
  irrefl : ∀ a ∈ G.txs, compareMainOrder G.load a a = .eq
  total : ∀ a ∈ G.txs, ∀ b ∈ G.txs, a ≠ b →
    compareMainOrder G.load a b = .lt ∨ compareMainOrder G.load b a = .lt
  swap : ∀ a ∈ G.txs, ∀ b ∈ G.txs,
    compareMainOrder G.load a b = (compareMainOrder G.load b a).swap
  trans : ∀ a ∈ G.txs, ∀ b ∈ G.txs, ∀ c ∈ G.txs,
    compareMainOrder G.load a b = .lt → compareMainOrder G.load b c = .lt →
      compareMainOrder G.load a c = .lt
  ancestors : ∀ a b, G.Ancestor a b → a ≠ b → compareMainOrder G.load a b = .lt
  feerates : ∀ a ∈ G.txs, ∀ b ∈ G.txs, compareMainOrder G.load a b = .lt →
    (getMainChunkFeerate G.load b).feeRateCompare (getMainChunkFeerate G.load a) ≠ .gt
  contiguous : ∀ c ∈ G.clusters, ∀ chunk ∈ G.chunks c, ∀ a ∈ G.txs, ∀ b ∈ G.txs,
    ∀ x ∈ G.txs, G.refs a ∈ chunk.1 → G.refs b ∈ chunk.1 →
      compareMainOrder G.load a x = .lt → compareMainOrder G.load x b = .lt →
        G.refs x ∈ chunk.1
  builder : ∀ uninitialized rounds, G.load.mainChunkindex.length ≤ rounds →
    ∃ sorted : List GraphIndex, sorted.Perm G.txs ∧
      sorted.Pairwise (fun a b => compareMainOrder G.load a b = .lt) ∧
      ((reportedChunks G.load uninitialized rounds).flatMap Prod.fst) = sorted.map G.refs
  worst : ∀ uninitialized rounds, G.load.mainChunkindex.length ≤ rounds →
    getWorstMainChunk G.load =
      (((reportedChunks G.load uninitialized rounds).getLastD ([], FeeFrac.empty)).1.reverse,
        ((reportedChunks G.load uninitialized rounds).getLastD ([], FeeFrac.empty)).2)

variable {G : MainGraph} {c c' : Cluster} {u u' : ChunkUpdate} {a b k k' : ℕ}

section

/-- The order of two chunks, wherever in them one looks. -/
def compareChunks (G : MainGraph) (u u' : ChunkUpdate) : Ordering :=
  (compare u'.feerate.rate u.feerate.rate).then
    ((compare u.prefixSize u'.prefixSize).then (G.order u.maxElement u'.maxElement))

section
variable (hp : G.Placed a c u k)
include hp

lemma Placed.entry : G.load.entries a = G.stored a c u k :=
  G.load_settled.entries (c, u) (mem_chunksOf.mpr ⟨hp.cluster, hp.chunk⟩) a k hp.place

lemma Placed.compareMainOrder (hp' : G.Placed b c' u' k') :
  compareMainOrder G.load a b = compareEntries G.order (G.stored a c u k) (G.stored b c' u' k') :=
  hp.compare_eq G.load_settled.refOrder hp' hp.entry hp'.entry

lemma Placed.compare_then (hp' : G.Placed b c' u' k') :
  TxGraph.compareMainOrder G.load a b = (G.compareChunks u u').then (compare k k') := by
  rw [hp.compareMainOrder hp', compareChunks, Ordering.then_assoc, Ordering.then_assoc]
  rfl

/-- Within a chunk the places decide. -/
lemma Placed.compare_same (hp' : G.Placed b c u k') :
  TxGraph.compareMainOrder G.load a b = compare k k' := by
  rw [hp.compare_then hp', compareChunks, G.order_self, compare_eq_iff_eq.mpr rfl,
    compare_eq_iff_eq.mpr rfl]
  rfl

/-- Between chunks the places do not matter. -/
lemma Placed.compare_apart (hp' : G.Placed b c' u' k') (ne : ¬ (c = c' ∧ u = u')) :
  TxGraph.compareMainOrder G.load a b = G.compareChunks u u' := by
  have decided : G.compareChunks u u' ≠ .eq := by
    intro hs
    rw [compareChunks, Ordering.then_eq_eq, Ordering.then_eq_eq, compare_eq_iff_eq,
      compare_eq_iff_eq] at hs
    exact ne (hp.same_chunk hp' hs.1.symm hs.2.1 hs.2.2)
  rw [hp.compare_then hp']
  cases order : G.compareChunks u u' with
  | lt => rfl
  | gt => rfl
  | eq => exact absurd order decided

end

lemma Ancestor.compare_lt (ha : G.Ancestor a b) (ne : a ≠ b) :
  TxGraph.compareMainOrder G.load a b = .lt := by
  obtain ⟨c, u, k, u', k', placed, hp', -, less⟩ := ha.placed
  have before := less ne
  obtain ⟨low, hh⟩ := placed.bounds
  obtain ⟨low', hh'⟩ := hp'.bounds
  rcases (laid placed.cluster).2.comparable placed.chunk hp'.chunk with
    rfl | ⟨ahead, -⟩ | ⟨-, after⟩
  · rw [placed.compare_same hp', compare_lt_iff_lt]
    exact before
  · rw [placed.compareMainOrder hp']
    exact compareEntries_of_ahead ahead
  · omega

lemma Placed.between {x n : ℕ} (hp : G.Placed a c u k) (hp' : G.Placed b c u k')
  (hb : G.Placed x c' u' n) (after : TxGraph.compareMainOrder G.load a x = .lt)
  (before : TxGraph.compareMainOrder G.load x b = .lt) : c = c' ∧ u = u' := by
  have trans := compareEntries_trans G.order_trans
  by_contra ne
  rw [hp.compare_apart hb ne, ← hp'.compare_apart hb ne, hp'.compareMainOrder hb] at after
  rw [hb.compareMainOrder hp'] at before
  exact Std.OrientedCmp.not_lt_of_lt after before

end

section
variable {walk ahead : List (Cluster × ChunkUpdate)} {b : BlockBuilderImpl}

variable (hw : G.Walk walk)
include hw

/-- A builder that has excluded nothing reports what is ahead, one chunk in a round. -/
lemma reported_run (hi : ∀ p ∈ ahead, p ∈ walk)
  (hpt : PointsTo b ahead) (hn : b.excludedClusters = []) (rounds : ℕ) :
  reported (b.run G.load (includeAll rounds)).2 = (ahead.take rounds).map G.chunkOf := by
  induction rounds generalizing b ahead with
  | zero => simp [includeAll, run, reported]
  | succ rounds ih =>
    have round : reported (b.run G.load (includeAll (rounds + 1))).2 =
      (b.getCurrentChunk G.load).1.toList ++
        reported (((b.getCurrentChunk G.load).2.includeChunk G.load).run G.load
          (includeAll rounds)).2 := by
      simp only [includeAll, replicate_succ, flatten_cons, cons_append,
        nil_append, run, call, reported,
        filterMap_cons, if_true]
      cases (b.getCurrentChunk G.load).1 <;> simp
    rw [round]
    cases ahead with
    | nil =>
      have iter : b.curIter = [] := hpt.iter
      have current : b.getCurrentChunk G.load = (none, b) := by
        simp only [BlockBuilderImpl.getCurrentChunk, iter]
      have stays : b.includeChunk G.load = b := by
        simp only [BlockBuilderImpl.includeChunk, BlockBuilderImpl.next, iter]
      rw [current, stays, ih hi hpt hn]
      simp
    | cons p hl =>
      obtain ⟨hh, hil⟩ := forall_mem_cons.mp hi
      have current := hw.getCurrentChunk hh hpt.iter hpt.cluster
      rw [current]
      set b₁ : BlockBuilderImpl := { b with knownEndOfCluster := decide (AtEnd p) }
      have iter : b₁.curIter = p.2.chunkEnd :: hl.map fun p => p.2.chunkEnd := hpt.iter
      obtain ⟨beyond, rest, split, all, b', eq, pointsTo', hs, -⟩ := hw.nextLoop hil b₁
      have none : beyond = [] := by
        refine eq_nil_iff_forall_not_mem.mpr fun q hm => ?_
        have excluded : q.1.sequence ∈ b.excludedClusters := all q hm
        simp [hn] at excluded
      have isNext : b₁.includeChunk G.load = b' := (next_of_iter iter).trans eq
      rw [none, nil_append] at split
      rw [← split] at pointsTo'
      rw [isNext, ih hil pointsTo' (hs.trans hn)]
      rfl

lemma reportedChunks_eq (uninitialized : Bool) {rounds : ℕ}
  (he : G.load.mainChunkindex.length ≤ rounds) :
  reportedChunks G.load uninitialized rounds = walk.map G.chunkOf := by
  have start := (Progress.new hw uninitialized).pointsTo
  rw [reportedChunks, reported_run hw (fun p hm => hm) start rfl]
  rw [← hw.index, length_map] at he
  rw [take_of_length_le he]

lemma Walk.txs_sorted : (walk.flatMap fun p => p.2.txs).Pairwise fun a b =>
    TxGraph.compareMainOrder G.load a b = .lt := by
  rw [pairwise_flatMap]
  constructor
  · intro p hm
    obtain ⟨cluster, chunk⟩ := hw.mem.mp hm
    rw [pairwise_iff_getElem]
    intro i j boundI boundJ less
    have place : ∀ n (hb : n < p.2.txs.length), G.Placed p.2.txs[n] p.1 p.2 (p.2.linIndex + n) := by
      intro n hb
      refine ⟨cluster, chunk, ?_⟩
      rw [mk_mem_zipIdx_iff_le_and_getElem?_sub]
      simp [hb]
    rw [(place i boundI).compare_same (place j boundJ), compare_lt_iff_lt]
    omega
  · have trans := compareEntries_trans G.order_trans
    refine hw.sorted.imp_of_mem fun {p q} hmp hmq before a inP b inQ => ?_
    obtain ⟨clusterP, chunkP⟩ := hw.mem.mp hmp
    obtain ⟨clusterQ, chunkQ⟩ := hw.mem.mp hmq
    obtain ⟨k, placed⟩ := exists_place clusterP chunkP inP
    obtain ⟨k', hp'⟩ := exists_place clusterQ chunkQ inQ
    have settled := G.load_settled
    have endP := hw.perm.mem_iff.mp hmp
    have endQ := hw.perm.mem_iff.mp hmq
    have placedP := settled.placed endP (settled.chunkEnd_place endP)
    have placedQ := settled.placed endQ (settled.chunkEnd_place endQ)
    have ne : ¬ (p.1 = q.1 ∧ p.2 = q.2) := by
      rintro ⟨cluster, update⟩
      rw [Prod.ext cluster update] at before
      exact Std.OrientedCmp.not_lt_of_lt before before
    rw [placed.compare_apart hp' ne, ← placedP.compare_apart placedQ ne,
      placedP.compareMainOrder placedQ]
    exact before

lemma Walk.txs_perm : (walk.flatMap fun p => p.2.txs).Perm G.txs := by
  have all : (G.chunksOf G.clusters).flatMap (fun p => p.2.txs) = G.txs := by
    rw [chunksOf, txs, flatMap_assoc]
    refine flatMap_congr fun c hm => ?_
    rw [← (laid hm).1, flatMap_map]
  rw [← all]
  exact hw.perm.flatMap_right _

lemma Walk.worst : getWorstMainChunk G.load =
  (((walk.map G.chunkOf).getLastD ([], FeeFrac.empty)).1.reverse,
    ((walk.map G.chunkOf).getLastD ([], FeeFrac.empty)).2) := by
  rw [getWorstMainChunk, ← hw.index, getLast?_map, getLastD_eq_getLast?, getLast?_map]
  cases last : walk.getLast? with
  | none => rfl
  | some p =>
    have member := mem_of_getLast? last
    obtain ⟨cluster, chunk⟩ := hw.mem.mp member
    obtain ⟨-, -, slice⟩ := hw.bounds member
    simp only [Option.map_some, Option.getD_some, hw.entry member]
    rcases (laid cluster).2.chunkCount chunk with count | ⟨count, single, -⟩
    · have counted : p.2.chunkEnd.chunkCount = some p.2.txs.length := count
      have isCluster : (G.endEntry p).cluster = some p.1 := rfl
      simp only [counted, isCluster]
      split_ifs with single
      · rw [← chunkOf_single single]
        rfl
      · rw [hw.startPos member, getClusterRefs_eq chunk count slice]
        rfl
    · have special : p.2.chunkEnd.chunkCount = none := count
      simp only [special, ← chunkOf_single single, reverse_singleton]

end

/-- If no sum overflows, the transactions of a main graph have one mining order, which keeps chunks
together and ancestors first, and in which a block builder reports them. -/
theorem mainOrder_correct (graph : MainGraph) : graph.MiningOrder := by
  have trans := compareEntries_trans graph.order_trans
  obtain ⟨walk, isWalk⟩ := graph.exists_walk
  refine ⟨?_, ?_, ?_, ?_, fun a b => Ancestor.compare_lt, ?_, ?_, ?_, ?_⟩
  · intro a _
    rw [compareMainOrder, TxGraphImpl.compareMainTransactions, if_pos rfl]
  · intro a hma b hmb ne
    obtain ⟨c, u, k, placed⟩ := exists_placed hma
    obtain ⟨c', u', k', hp'⟩ := exists_placed hmb
    rw [placed.compareMainOrder hp', hp'.compareMainOrder placed]
    cases order : compareEntries graph.order (graph.stored a c u k) (graph.stored b c' u' k') with
    | lt => exact .inl rfl
    | gt => exact .inr (Std.OrientedCmp.lt_of_gt order)
    | eq => exact absurd (placed.eq_of_compare hp' order) ne
  · intro a hma b hmb
    obtain ⟨c, u, k, placed⟩ := exists_placed hma
    obtain ⟨c', u', k', hp'⟩ := exists_placed hmb
    rw [placed.compareMainOrder hp', hp'.compareMainOrder placed]
    exact Std.OrientedCmp.eq_swap
  · intro a hma b hmb x hmx first hs
    obtain ⟨c, u, k, placed⟩ := exists_placed hma
    obtain ⟨c', u', k', hp'⟩ := exists_placed hmb
    obtain ⟨c'', u'', k'', hp''⟩ := exists_placed hmx
    rw [placed.compareMainOrder hp'] at first
    rw [hp'.compareMainOrder hp''] at hs
    rw [placed.compareMainOrder hp'']
    exact Std.TransCmp.lt_trans first hs
  · intro a hma b hmb before
    obtain ⟨c, u, k, placed⟩ := exists_placed hma
    obtain ⟨c', u', k', hp'⟩ := exists_placed hmb
    obtain ⟨-, -, pos⟩ := (laid placed.cluster).2.mem placed.chunk
    obtain ⟨-, -, pos'⟩ := (laid hp'.cluster).2.mem hp'.chunk
    rw [getMainChunkFeerate, getMainChunkFeerate, placed.entry, hp'.entry]
    intro greater
    have higher := (FeeFrac.feeRateCompare_eq_gt pos' pos).mp greater
    rw [placed.compare_then hp', compareChunks, compare_gt_iff_gt.mpr higher] at before
    cases before
  · intro c cluster chunk inC a hma b hmb x hmx inA inB after before
    obtain ⟨u, update, rfl⟩ := mem_map.mp inC
    have inChunk : ∀ {y : ℕ}, y ∈ graph.txs → graph.refs y ∈ (graph.chunkOf (c, u)).1 →
      ∃ k, graph.Placed y c u k := by
      intro y hmy hsh
      obtain ⟨y', inU, eq⟩ := mem_map.mp hsh
      have known := mem_txs cluster (mem_of_chunk cluster update inU)
      obtain rfl := inj_on_of_nodup_map graph.distinct known hmy eq
      exact exists_place cluster update inU
    obtain ⟨k, placed⟩ := inChunk hma inA
    obtain ⟨k', hp'⟩ := inChunk hmb inB
    obtain ⟨c'', u'', n, hb⟩ := exists_placed hmx
    obtain ⟨rfl, rfl⟩ := placed.between hp' hb after before
    exact mem_map_of_mem hb.mem_chunk
  · intro hu rounds he
    refine ⟨walk.flatMap fun p => p.2.txs, isWalk.txs_perm, isWalk.txs_sorted, ?_⟩
    rw [reportedChunks_eq isWalk hu he, flatMap_map, map_flatMap]
    rfl
  · intro hu rounds he
    rw [reportedChunks_eq isWalk hu he]
    exact isWalk.worst

end MainGraph

end TxGraph
