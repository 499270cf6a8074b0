import Andaluzcoin.MainGraph

/-!
# The block builder of a `TxGraph`

A `BlockBuilderImpl` walks the chunk index of the main graph. The constructor does not set
`m_known_end_of_cluster`, so the value it starts with is arbitrary.
-/

namespace TxGraph

open ClusterLinearize List Function

section

structure BlockBuilderImpl where
  excludedClusters : List ℕ
  /-- What the iterator has not passed: `end()` is the empty list. -/
  curIter : List ChunkData
  curCluster : Option Cluster
  knownEndOfCluster : Bool

/-- The transactions of a chunk, and its feerate. -/
abbrev Chunk := List Ref × FeeFrac

/-- The references from a place of the linearization on, and whether they reach its end. -/
def Cluster.getClusterRefs (g : TxGraphImpl) (count startPos : ℕ) : Cluster → List Ref × Bool
  | .generic c =>
    (((c.linearization.drop startPos).take count).map fun i => (g.entries (c.mapping i)).ref,
      startPos + count == c.linearization.length)
  | .singleton c => ([(g.entries c.graphIndex).ref], true)

namespace BlockBuilderImpl

variable (g : TxGraphImpl)

/-- The cluster that an iterator points to. -/
def clusterAt : List ChunkData → Option Cluster
  | [] => none
  | data :: _ => (g.entries data.graphIndex).cluster

/-- The constructor; the memory of `m_known_end_of_cluster` has some value before it. -/
def new (uninitialized : Bool) : BlockBuilderImpl :=
  ⟨[], g.mainChunkindex, clusterAt g g.mainChunkindex, uninitialized⟩

/-- The loop of `Next`, after the iterator has been advanced. -/
def nextLoop (b : BlockBuilderImpl) : List ChunkData → BlockBuilderImpl
  | [] => { b with curIter := [], curCluster := none }
  | data :: rest =>
    let cluster := (g.entries data.graphIndex).cluster
    let b := { b with
      curIter := data :: rest
      curCluster := cluster
      knownEndOfCluster := false }
    if cluster.any fun c => c.sequence ∈ b.excludedClusters then nextLoop b rest else b

def next (b : BlockBuilderImpl) : BlockBuilderImpl :=
  match b.curIter with
  | [] => b
  | _ :: rest => nextLoop g b rest

lemma next_of_iter {g : TxGraphImpl} {b : BlockBuilderImpl} {data : ChunkData}
  {rest : List ChunkData} (iter : b.curIter = data :: rest) : b.next g = b.nextLoop g rest := by
  rw [next, iter]

def getCurrentChunk (b : BlockBuilderImpl) : Option Chunk × BlockBuilderImpl :=
  match b.curIter with
  | [] => (none, b)
  | data :: _ =>
    let chunkEndEntry := g.entries data.graphIndex
    match data.chunkCount, b.curCluster with
    | none, _ =>
      (some ([chunkEndEntry.ref], chunkEndEntry.mainChunkFeerate),
        { b with knownEndOfCluster := true })
    | some count, some cluster =>
      let (refs, isEnd) := cluster.getClusterRefs g count (chunkEndEntry.mainLinIndex + 1 - count)
      (some (refs, chunkEndEntry.mainChunkFeerate), { b with knownEndOfCluster := isEnd })
    | some _, none => (none, b)

/-- `Include`. -/
def includeChunk (b : BlockBuilderImpl) : BlockBuilderImpl := b.next g

def skip (b : BlockBuilderImpl) : BlockBuilderImpl :=
  match b.curCluster with
  | some cluster =>
    if !b.knownEndOfCluster then
      { b with excludedClusters := cluster.sequence :: b.excludedClusters }.next g
    else b.next g
  | none => b.next g

end BlockBuilderImpl

inductive Call where
  | getCurrentChunk
  | includeChunk
  | skip
  deriving DecidableEq

/-- A call, and the chunk that was current when it was made. -/
abbrev Event := Call × Option Chunk

namespace BlockBuilderImpl

variable (g : TxGraphImpl)

def call (b : BlockBuilderImpl) : Call → BlockBuilderImpl
  | .getCurrentChunk => (b.getCurrentChunk g).2
  | .includeChunk => b.includeChunk g
  | .skip => b.skip g

def run (b : BlockBuilderImpl) : List Call → BlockBuilderImpl × List Event
  | [] => (b, [])
  | c :: calls =>
    let (last, events) := run (b.call g c) calls
    (last, (c, (b.getCurrentChunk g).1) :: events)

end BlockBuilderImpl

namespace MainGraph

variable (graph : MainGraph)

/-- A chunk of a cluster, as it is returned. -/
def chunkOf (p : Cluster × ChunkUpdate) : Chunk := (p.2.txs.map graph.refs, p.2.feerate)

/-- The chunks of a cluster. -/
def chunks (c : Cluster) : List Chunk :=
  (c.chunkUpdates graph.order).map fun u => graph.chunkOf (c, u)

/-- The transactions that were included. -/
def included (events : List Event) : List Ref :=
  events.flatMap fun e => if e.1 = .includeChunk then (e.2.map Prod.fst).getD [] else []

/-- The calls seen so far kept a block valid. -/
structure SkipSafe (b : BlockBuilderImpl) (events : List Event) : Prop where
  closed : ∀ x y, graph.Ancestor x y → graph.refs y ∈ included events →
    graph.refs x ∈ included events
  skipped : events.Pairwise fun e e' => e.1 = .skip → ∀ chunk chunk', e.2 = some chunk →
    e'.2 = some chunk' → ∀ c ∈ graph.clusters, chunk ∈ graph.chunks c → chunk' ∉ graph.chunks c
  offered : ∀ c ∈ graph.clusters, ∀ chunk ∈ graph.chunks c, (∃ e ∈ events, e.2 = some chunk) ∨
    (∃ e ∈ events, e.1 = .skip ∧ ∃ chunk' ∈ graph.chunks c, e.2 = some chunk') ∨
    ∃ n, (((fun b => b.includeChunk graph.load)^[n] b).getCurrentChunk graph.load).1 = some chunk

end MainGraph

end

namespace MainGraph

variable {G : MainGraph} {walk : List (Cluster × ChunkUpdate)} {p q : Cluster × ChunkUpdate}

/-- A chunk that ends its cluster. -/
def AtEnd (p : Cluster × ChunkUpdate) : Prop := p.2.linIndex + p.2.txs.length = p.1.txs.length

instance (p : Cluster × ChunkUpdate) : Decidable (AtEnd p) := inferInstanceAs (Decidable (_ = _))

section

lemma mem_chunksOf : p ∈ G.chunksOf G.clusters ↔
  p.1 ∈ G.clusters ∧ p.2 ∈ p.1.chunkUpdates G.order := by
  obtain ⟨c, u⟩ := p
  simp only [chunksOf, mem_flatMap, mem_map, Prod.mk.injEq]
  constructor
  · rintro ⟨c', cluster, u', chunk, rfl, rfl⟩
    exact ⟨cluster, chunk⟩
  · rintro ⟨cluster, chunk⟩
    exact ⟨c, cluster, u, chunk, rfl, rfl⟩

section
variable (hw : G.Walk walk)
include hw

lemma Walk.mem : p ∈ walk ↔ p.1 ∈ G.clusters ∧ p.2 ∈ p.1.chunkUpdates G.order := by
  rw [hw.perm.mem_iff, mem_chunksOf]

lemma Walk.bounds (hm : p ∈ walk) :
  0 < p.2.txs.length ∧ p.2.linIndex + p.2.txs.length ≤ p.1.txs.length ∧
    (p.1.txs.drop p.2.linIndex).take p.2.txs.length = p.2.txs := by
  obtain ⟨cluster, chunk⟩ := hw.mem.mp hm
  obtain ⟨flat, laid⟩ := laid cluster
  obtain ⟨-, hb, slice⟩ := laid.bounds chunk
  rw [flat, Nat.zero_add] at hb
  rw [flat, Nat.sub_zero] at slice
  exact ⟨length_pos_iff.mpr (laid.mem chunk).1, hb, slice⟩

lemma Walk.ordered :
  walk.Pairwise fun p q => p.1 = q.1 → p.2.linIndex + p.2.txs.length ≤ q.2.linIndex := by
  have trans := compareEntries_trans G.order_trans
  refine hw.sorted.imp_of_mem fun {p q} hmp hmq before hs => ?_
  obtain ⟨cluster, chunkP⟩ := hw.mem.mp hmp
  obtain ⟨-, chunkQ⟩ := hw.mem.mp hmq
  rw [← hs] at chunkQ
  rcases (laid cluster).2.comparable chunkP chunkQ with eq | ⟨-, le⟩ | ⟨ahead, -⟩
  · have equal : p = q := Prod.ext hs eq
    rw [equal] at before
    exact absurd before (Std.OrientedCmp.not_lt_of_lt before)
  · exact le
  · have after : compareEntries G.order (G.endEntry q) (G.endEntry p) = .lt :=
      compareEntries_of_ahead ahead
    exact absurd after (Std.OrientedCmp.not_lt_of_lt before)

lemma Walk.entry (hm : p ∈ walk) : G.load.entries p.2.chunkEnd.graphIndex = G.endEntry p := by
  have settled := G.load_settled
  have inside := hw.perm.mem_iff.mp hm
  exact settled.entries p inside _ _ (settled.chunkEnd_place inside)

end

lemma getClusterRefs_eq {c : Cluster} {u : ChunkUpdate} (hc : u ∈ c.chunkUpdates G.order)
  (hco : u.chunkCount = some u.txs.length)
  (hs : (c.txs.drop u.linIndex).take u.txs.length = u.txs) :
  c.getClusterRefs G.load u.txs.length u.linIndex = (u.txs.map G.refs, decide (AtEnd (c, u))) := by
  cases c with
  | generic c =>
    have refs : u.txs.map G.refs =
      ((c.linearization.drop u.linIndex).take u.txs.length).map fun i =>
        G.refs (c.mapping i) := by
      rw [← congrArg (List.map G.refs) hs]
      simp [Cluster.txs, map_drop, map_take, comp_def]
    simp only [Cluster.getClusterRefs, G.load_settled.ref, refs, Prod.mk.injEq, true_and]
    simp [AtEnd, Cluster.txs, Bool.beq_eq_decide_eq]
  | singleton c =>
    obtain rfl := mem_singleton.mp hc
    cases hco

lemma Walk.startPos (hw : G.Walk walk) (hm : p ∈ walk) :
  (G.endEntry p).mainLinIndex + 1 - p.2.txs.length = p.2.linIndex := by
  have pos := (hw.bounds hm).1
  change p.2.linIndex + (p.2.txs.length - 1) + 1 - p.2.txs.length = p.2.linIndex
  omega

lemma chunkOf_single (single : p.2.txs.length = 1) :
  ([(G.endEntry p).ref], (G.endEntry p).mainChunkFeerate) = G.chunkOf p := by
  obtain ⟨i, txs⟩ := length_eq_one_iff.mp single
  simp [endEntry, stored, ChunkUpdate.chunkEnd, chunkOf, txs]

lemma Walk.getCurrentChunk (hw : G.Walk walk) (hm : p ∈ walk) {b : BlockBuilderImpl}
  {rest : List ChunkData} (iter : b.curIter = p.2.chunkEnd :: rest)
  (hc : b.curCluster = some p.1) : b.getCurrentChunk G.load =
    (some (G.chunkOf p), { b with knownEndOfCluster := decide (AtEnd p) }) := by
  obtain ⟨hk, chunk⟩ := hw.mem.mp hm
  obtain ⟨flat, laid⟩ := laid hk
  obtain ⟨pos, hb, slice⟩ := hw.bounds hm
  have refs : ∀ i, (G.load.entries i).ref = G.refs i := G.load_settled.ref
  rw [BlockBuilderImpl.getCurrentChunk]
  simp only [iter, hc, hw.entry hm]
  rcases laid.chunkCount chunk with count | ⟨count, single, ends⟩
  · have counted : p.2.chunkEnd.chunkCount = some p.2.txs.length := count
    simp only [counted, hw.startPos hm, getClusterRefs_eq chunk count slice]
    rfl
  have special : p.2.chunkEnd.chunkCount = none := count
  have atEnd : AtEnd p := by
    rw [flat] at ends
    rw [AtEnd]
    omega
  simp only [special, chunkOf_single single, atEnd, decide_true]

end

lemma chunkOf_inj (hw : G.Walk walk) (hmp : p ∈ walk) (hmq : q ∈ walk)
  (hs : G.chunkOf p = G.chunkOf q) : p = q := by
  obtain ⟨knownP, chunkP⟩ := hw.mem.mp hmp
  obtain ⟨knownQ, chunkQ⟩ := hw.mem.mp hmq
  have refs : p.2.txs.map G.refs = q.2.txs.map G.refs := congrArg Prod.fst hs
  obtain ⟨i, rest, txs⟩ := exists_cons_of_ne_nil ((laid knownP).2.mem chunkP).1
  have listed : i ∈ p.2.txs := by simp [txs]
  obtain ⟨j, memberJ, eq⟩ := mem_map.mp (refs ▸ mem_map_of_mem listed)
  have inP := mem_of_chunk knownP chunkP listed
  have inQ := mem_of_chunk knownQ chunkQ memberJ
  obtain rfl := inj_on_of_nodup_map G.distinct (mem_txs knownQ inQ) (mem_txs knownP inP) eq
  obtain ⟨k, hp⟩ := exists_place knownP chunkP listed
  obtain ⟨k', hp'⟩ := exists_place knownQ chunkQ memberJ
  obtain ⟨cluster, update, -⟩ := hp.unique hp'
  exact Prod.ext cluster update

lemma chunk_mem_iff (hw : G.Walk walk) (hm : p ∈ walk) {c : Cluster}
  (hc : c ∈ G.clusters) : G.chunkOf p ∈ G.chunks c ↔ p.1 = c := by
  constructor
  · intro hi
    obtain ⟨u, chunk, hs⟩ := mem_map.mp hi
    have memberU : (c, u) ∈ walk := hw.mem.mpr ⟨hc, chunk⟩
    rw [← chunkOf_inj hw memberU hm hs]
  · rintro rfl
    exact mem_map.mpr ⟨p.2, (hw.mem.mp hm).2, rfl⟩

variable {b b' : BlockBuilderImpl} {events : List Event}
  {ahead ahead' passed : List (Cluster × ChunkUpdate)}

/-- The iterator of a builder points to the first of some chunks. -/
structure PointsTo (b : BlockBuilderImpl) (ahead : List (Cluster × ChunkUpdate)) : Prop where
  iter : b.curIter = ahead.map fun p => p.2.chunkEnd
  cluster : b.curCluster = ahead.head?.map Prod.fst
  allowed : ∀ p ∈ ahead.head?, p.1.sequence ∉ b.excludedClusters

/-- `m_known_end_of_cluster` is right where the iterator points to. -/
def Known (b : BlockBuilderImpl) (ahead : List (Cluster × ChunkUpdate)) : Prop :=
  b.knownEndOfCluster = true → ∀ p ∈ ahead.head?, AtEnd p

lemma Walk.nextLoop (hw : G.Walk walk) (hi : ∀ p ∈ ahead, p ∈ walk) (b : BlockBuilderImpl) :
  ∃ beyond rest, ahead = beyond ++ rest ∧ (∀ p ∈ beyond, p.1.sequence ∈ b.excludedClusters) ∧
    ∃ b', b.nextLoop G.load (ahead.map fun p => p.2.chunkEnd) = b' ∧ PointsTo b' rest ∧
      b'.excludedClusters = b.excludedClusters ∧ Known b' rest := by
  induction ahead generalizing b with
  | nil => exact ⟨[], [], rfl, by simp, _, rfl, ⟨rfl, rfl, by simp⟩, rfl, by simp [Known]⟩
  | cons p hl ih =>
    obtain ⟨hh, hi⟩ := forall_mem_cons.mp hi
    have entry : (G.load.entries p.2.chunkEnd.graphIndex).cluster = some p.1 := by
      rw [hw.entry hh]
      rfl
    simp only [map_cons, BlockBuilderImpl.nextLoop, entry, Option.any_some]
    split_ifs with he
    · obtain ⟨beyond, rest, split, all, b', eq, pointsTo, hs, hk⟩ := ih hi _
      refine ⟨p :: beyond, rest, by rw [split]; rfl, ?_, b', eq, pointsTo, hs, hk⟩
      exact forall_mem_cons.mpr ⟨by simpa using he, all⟩
    · refine ⟨[], p :: hl, rfl, by simp, _, rfl, ⟨rfl, rfl, ?_⟩, rfl, by simp [Known]⟩
      simpa using he

/-- What the events say about the chunks that the iterator has passed. -/
structure Progress (graph : MainGraph) (walk passed ahead : List (Cluster × ChunkUpdate))
  (b : BlockBuilderImpl) (events : List Event) : Prop where
  split : walk = passed ++ ahead
  pointsTo : PointsTo b ahead
  excluded : ∀ s ∈ b.excludedClusters,
    ∃ p ∈ passed, p.1.sequence = s ∧ (.skip, some (graph.chunkOf p)) ∈ events
  skipped : ∀ p ∈ passed, (.skip, some (graph.chunkOf p)) ∈ events →
    p.1.sequence ∈ b.excludedClusters ∨ AtEnd p
  decided : ∀ p ∈ passed, (.includeChunk, some (graph.chunkOf p)) ∈ events ∨
    (.skip, some (graph.chunkOf p)) ∈ events ∨ p.1.sequence ∈ b.excludedClusters
  source : ∀ e ∈ events, e.1 ≠ .getCurrentChunk → ∀ chunk, e.2 = some chunk →
    ∃ p ∈ passed, graph.chunkOf p = chunk
  closed : ∀ p ∈ passed, (.includeChunk, some (graph.chunkOf p)) ∈ events → ∀ q ∈ passed,
    q.1 = p.1 → q.2.linIndex ≤ p.2.linIndex → (.includeChunk, some (graph.chunkOf q)) ∈ events
  apart : events.Pairwise fun e e' => e.1 = .skip → ∀ chunk chunk', e.2 = some chunk →
    e'.2 = some chunk' → ∀ c ∈ graph.clusters, chunk ∈ graph.chunks c → chunk' ∉ graph.chunks c

namespace Progress

variable {next : Cluster × ChunkUpdate}

lemma mem_passed (hp : G.Progress walk passed ahead b events) (hm : p ∈ passed) : p ∈ walk := by
  rw [hp.split]
  exact mem_append_left _ hm

lemma mem_next (hp : G.Progress walk passed (next :: ahead) b events) : next ∈ walk := by
  rw [hp.split]
  simp

section
variable (hw : G.Walk walk)
include hw

variable (hp : G.Progress walk passed (next :: ahead) b events)
include hp

/-- What has been passed of a cluster is before the current chunk. -/
lemma before (hm : p ∈ passed) (hs : p.1 = next.1) :
  p.2.linIndex + p.2.txs.length ≤ next.2.linIndex := by
  have ordered := hw.ordered
  rw [hp.split] at ordered
  exact (pairwise_append.mp ordered).2.2 p hm next (.head _) hs

lemma not_skipped (hm : p ∈ passed) (hs : p.1 = next.1) : (.skip, some (G.chunkOf p)) ∉ events := by
  intro skip
  have allowed := hp.pointsTo.allowed next rfl
  have le := hp.before hw hm hs
  obtain ⟨pos, hb, -⟩ := hw.bounds hp.mem_next
  rcases hp.skipped p hm skip with he | atEnd
  · exact allowed (hs ▸ he)
  · rw [AtEnd, hs] at atEnd
    omega

lemma current_apart : ∀ e ∈ events, e.1 = .skip → ∀ chunk, e.2 = some chunk → ∀ c ∈ G.clusters,
    chunk ∈ G.chunks c → G.chunkOf next ∉ G.chunks c := by
  intro e hm skip chunk eq c cluster hi current
  obtain ⟨p, hpp, rfl⟩ := hp.source e hm (by simp [skip]) chunk eq
  rw [chunk_mem_iff hw (hp.mem_passed hpp) cluster] at hi
  rw [chunk_mem_iff hw hp.mem_next cluster] at current
  refine hp.not_skipped hw hpp (hi.trans current.symm) ?_
  rw [← skip, ← eq]
  exact hm

end

/-- A call that decides about no chunk. -/
lemma note (hp : G.Progress walk passed ahead b events) {e : Event}
  (hd : e.1 = .getCurrentChunk ∨ e.2 = none) (hpt : PointsTo b' ahead)
  (hsa : b'.excludedClusters = b.excludedClusters)
  (ha : ∀ f ∈ events, f.1 = .skip → ∀ chunk chunk', f.2 = some chunk → e.2 = some chunk' →
    ∀ c ∈ G.clusters, chunk ∈ G.chunks c → chunk' ∉ G.chunks c) :
  G.Progress walk passed ahead b' (events ++ [e]) := by
  have old : ∀ call : Call, call ≠ .getCurrentChunk → ∀ chunk,
    (call, some chunk) ∈ events ++ [e] ↔ (call, some chunk) ∈ events := by
    intro call notGet chunk
    rw [mem_append, mem_singleton, or_iff_left]
    rintro rfl
    rcases hd with get | none
    · exact notGet get
    · cases none
  have skips := old .skip (by simp)
  have includes := old .includeChunk (by simp)
  refine ⟨hp.split, hpt, ?_, ?_, ?_, ?_, ?_, ?_⟩
  · simpa only [hsa, skips] using hp.excluded
  · simpa only [hsa, skips] using hp.skipped
  · simpa only [hsa, skips, includes] using hp.decided
  · rintro ⟨call, hs⟩ hm notGet chunk rfl
    exact hp.source _ ((old call notGet chunk).mp hm) notGet chunk rfl
  · simpa only [includes] using hp.closed
  · refine pairwise_append.mpr ⟨hp.apart, pairwise_singleton _ _, ?_⟩
    intro f hm f' new
    obtain rfl := mem_singleton.mp new
    exact ha f hm

variable (hw : G.Walk walk)
include hw

/-- A call that decides about the current chunk is in the events of that chunk alone. -/
lemma event_iff (hp : G.Progress walk passed (next :: ahead) b events) {call call' : Call}
  (hd : call' ≠ .getCurrentChunk) (hm : p ∈ walk) :
  (call', some (G.chunkOf p)) ∈ events ++ [(call, some (G.chunkOf next))] ↔
    p ∈ passed ∧ (call', some (G.chunkOf p)) ∈ events ∨ p = next ∧ call' = call := by
  rw [mem_append, mem_singleton]
  constructor
  · rintro (old | new)
    · obtain ⟨p', hpp, hs⟩ := hp.source _ old hd _ rfl
      obtain rfl := chunkOf_inj hw (hp.mem_passed hpp) hm hs
      exact .inl ⟨hpp, old⟩
    · rw [Prod.mk.injEq, Option.some.injEq] at new
      exact .inr ⟨chunkOf_inj hw hm hp.mem_next new.2, new.1⟩
  · rintro (⟨-, old⟩ | ⟨rfl, rfl⟩)
    · exact .inl old
    · exact .inr rfl

/-- With an included chunk, also the current one, all chunks before it in its cluster are. -/
lemma closed_concat (hp : G.Progress walk passed (next :: ahead) b events) {call : Call}
  (hm : p ∈ walk) (included : (.includeChunk, some (G.chunkOf p)) ∈
    events ++ [(call, some (G.chunkOf next))]) (hmq : q ∈ walk) (hs : q.1 = p.1)
  (le : q.2.linIndex ≤ p.2.linIndex) :
  (.includeChunk, some (G.chunkOf q)) ∈ events ++ [(call, some (G.chunkOf next))] := by
  have posP := (hw.bounds hm).1
  have posQ := (hw.bounds hmq).1
  have ordered := hw.ordered
  rw [hp.split] at ordered hmq
  obtain ⟨-, orderedNext, across⟩ := pairwise_append.mp ordered
  rcases (hp.event_iff hw (by simp) hm).mp included with ⟨hpp, included⟩ | ⟨rfl, rfl⟩
  · rcases mem_append.mp hmq with passedQ | aheadQ
    · exact mem_append_left _ (hp.closed p hpp included q passedQ hs le)
    · have after := across p hpp q aheadQ hs.symm
      omega
  rw [mem_append, mem_cons] at hmq
  rcases hmq with passedQ | rfl | aheadQ
  · rcases hp.decided q passedQ with included | skip | he
    · exact mem_append_left _ included
    · exact absurd skip (hp.not_skipped hw passedQ hs)
    · exact absurd (hs ▸ he) (hp.pointsTo.allowed _ rfl)
  · exact included
  · have after := (pairwise_cons.mp orderedNext).1 q aheadQ hs.symm
    omega

/-- The current chunk is included or skipped, and the iterator moves on. -/
lemma advance (hp : G.Progress walk passed (next :: ahead) b events) {call : Call}
  (hd : call ≠ .getCurrentChunk) {b₁ : BlockBuilderImpl} (iter : b₁.curIter = b.curIter)
  (hex : call = .includeChunk ∧ b₁.excludedClusters = b.excludedClusters ∨
    call = .skip ∧ (b₁.excludedClusters = next.1.sequence :: b.excludedClusters ∨
      b₁.excludedClusters = b.excludedClusters ∧ AtEnd next)) :
  ∃ passed' ahead', G.Progress walk passed' ahead' (b₁.next G.load)
      (events ++ [(call, some (G.chunkOf next))]) ∧ Known (b₁.next G.load) ahead' := by
  have aheadInside : ∀ p ∈ ahead, p ∈ walk := fun p hm => by
    rw [hp.split]
    simp [hm]
  obtain ⟨beyond, rest, split, all, b', eq, pointsTo, hs, hk⟩ := hw.nextLoop aheadInside b₁
  have isNext : b₁.next G.load = b' :=
    (BlockBuilderImpl.next_of_iter (iter.trans hp.pointsTo.iter)).trans eq
  rw [isNext]
  have grows : ∀ s ∈ b.excludedClusters, s ∈ b'.excludedClusters := by
    intro s hm
    rw [hs]
    rcases hex with ⟨-, eq⟩ | ⟨-, eq | ⟨eq, -⟩⟩ <;> simp [eq, hm]
  have mono : ∀ e ∈ events, e ∈ events ++ [(call, some (G.chunkOf next))] :=
    fun e hm => mem_append_left _ hm
  have cases : ∀ p ∈ passed ++ next :: beyond, p ∈ passed ∨ p = next ∨ p ∈ beyond := by simp
  have inside : ∀ p ∈ passed ++ next :: beyond, p ∈ walk := by
    intro p hm
    rw [hp.split, split]
    simp only [mem_append, mem_cons] at hm ⊢
    tauto
  have isSplit : walk = (passed ++ next :: beyond) ++ rest := by
    rw [hp.split, split]
    simp
  refine ⟨passed ++ next :: beyond, rest, ⟨isSplit, pointsTo, ?_, ?_, ?_, ?_, ?_, ?_⟩, hk⟩
  · intro s hm
    have old : s ∈ b.excludedClusters → ∃ p ∈ passed ++ next :: beyond, p.1.sequence = s ∧
      (.skip, some (G.chunkOf p)) ∈ events ++ [(call, some (G.chunkOf next))] := by
      intro hm
      obtain ⟨p, hpp, isS, skip⟩ := hp.excluded s hm
      exact ⟨p, mem_append_left _ hpp, isS, mono _ skip⟩
    rw [hs] at hm
    rcases hex with ⟨-, eq⟩ | ⟨rfl, eq | ⟨eq, -⟩⟩
    · exact old (eq ▸ hm)
    · rw [eq] at hm
      rcases mem_cons.mp hm with rfl | hm
      · exact ⟨next, by simp, rfl, by simp⟩
      · exact old hm
    · exact old (eq ▸ hm)
  · intro p hm skip
    rcases (hp.event_iff hw (by simp) (inside p hm)).mp skip with
      ⟨hpp, skip⟩ | ⟨rfl, rfl⟩
    · exact (hp.skipped p hpp skip).imp_left (grows _)
    rcases hex with ⟨no, -⟩ | ⟨-, eq | ⟨-, atEnd⟩⟩
    · cases no
    · exact .inl (by simp [hs, eq])
    · exact .inr atEnd
  · intro p hm
    rcases cases p hm with hpp | rfl | beyondP
    · exact (hp.decided p hpp).imp (mono _) (Or.imp (mono _) (grows _))
    · rcases hex with ⟨rfl, -⟩ | ⟨rfl, -⟩
      · exact .inl (by simp)
      · exact .inr (.inl (by simp))
    · exact .inr (.inr (hs ▸ all p beyondP))
  · intro e hm decidesE chunk eq
    rcases mem_append.mp hm with old | new
    · obtain ⟨p, hpp, hc⟩ := hp.source e old decidesE chunk eq
      exact ⟨p, mem_append_left _ hpp, hc⟩
    · obtain rfl := mem_singleton.mp new
      exact ⟨next, by simp, Option.some.inj eq⟩
  · intro p hm included q hmq hsc le
    exact hp.closed_concat hw (inside p hm) included (inside q hmq) hsc le
  · refine pairwise_append.mpr ⟨hp.apart, pairwise_singleton _ _, ?_⟩
    intro e hm e' new skip chunk chunk' eq eq' c cluster inC
    obtain rfl := mem_singleton.mp new
    obtain rfl := Option.some.inj eq'
    exact hp.current_apart hw e hm skip chunk eq c cluster inC

/-- Any call; a `Skip` needs the flag to be right. -/
lemma call (hp : G.Progress walk passed ahead b events)
  (call : Call) (flag : call = .skip → Known b ahead) :
  ∃ passed' ahead', G.Progress walk passed' ahead' (b.call G.load call)
      (events ++ [(call, (b.getCurrentChunk G.load).1)]) ∧ Known (b.call G.load call) ahead' := by
  cases ahead with
  | nil =>
    have iter : b.curIter = [] := hp.pointsTo.iter
    have cluster := hp.pointsTo.cluster
    have current : b.getCurrentChunk G.load = (none, b) := by
      simp only [BlockBuilderImpl.getCurrentChunk, iter]
    have stays : b.call G.load call = b := by
      cases call <;> simp [BlockBuilderImpl.call, current, BlockBuilderImpl.includeChunk,
        BlockBuilderImpl.skip, BlockBuilderImpl.next, iter, cluster]
    rw [stays, current]
    refine ⟨passed, [], hp.note (.inr rfl) hp.pointsTo rfl ?_, by simp [Known]⟩
    exact fun _ _ _ _ _ _ none => nomatch none
  | cons next ahead =>
    have cluster := hp.pointsTo.cluster
    have current := hw.getCurrentChunk hp.mem_next hp.pointsTo.iter cluster
    rw [current]
    cases call with
    | getCurrentChunk =>
      rw [BlockBuilderImpl.call, current]
      refine ⟨passed, next :: ahead, hp.note (.inl rfl)
        ⟨hp.pointsTo.iter, hp.pointsTo.cluster, hp.pointsTo.allowed⟩ rfl ?_, ?_⟩
      · rintro f hm skip chunk chunk' eq hn
        obtain rfl := Option.some.inj hn
        exact hp.current_apart hw f hm skip chunk eq
      · simp [Known]
    | includeChunk =>
      exact hp.advance hw (by simp) rfl (.inl ⟨rfl, rfl⟩)
    | skip =>
      simp only [BlockBuilderImpl.call, BlockBuilderImpl.skip, cluster]
      split_ifs with unknown
      · exact hp.advance hw (by simp) rfl (.inr ⟨rfl, .inl rfl⟩)
      · have atEnd := flag rfl (by simpa using unknown) next rfl
        exact hp.advance hw (by simp) rfl (.inr ⟨rfl, .inr ⟨rfl, atEnd⟩⟩)

lemma run (hp : G.Progress walk passed ahead b events)
  {calls : List Call} (flag : calls.head? = some .skip → Known b ahead) :
  ∃ passed' ahead', G.Progress walk passed' ahead' (b.run G.load calls).1
    (events ++ (b.run G.load calls).2) := by
  induction calls generalizing b passed ahead events with
  | nil => exact ⟨passed, ahead, by simpa [BlockBuilderImpl.run] using hp⟩
  | cons call calls ih =>
    obtain ⟨passed₁, ahead₁, progress₁, hk⟩ := hp.call hw call
      fun isSkip => flag (by rw [isSkip]; rfl)
    obtain ⟨passed₂, ahead₂, progress₂⟩ := ih progress₁ fun _ => hk
    refine ⟨passed₂, ahead₂, ?_⟩
    rw [append_assoc] at progress₂
    exact progress₂

lemma new (uninitialized : Bool) : G.Progress walk [] walk (.new G.load uninitialized) [] := by
  have pointsTo : PointsTo (.new G.load uninitialized) walk := by
    refine ⟨hw.index.symm, ?_, by simp [BlockBuilderImpl.new]⟩
    rw [BlockBuilderImpl.new, ← hw.index]
    cases eq : walk with
    | nil => rfl
    | cons p rest =>
      simp only [map_cons, BlockBuilderImpl.clusterAt]
      rw [hw.entry (by simp [eq])]
      rfl
  exact ⟨rfl, pointsTo, by simp [BlockBuilderImpl.new], by simp, by simp, by simp, by simp, by simp⟩

end Progress

/-- A chunk ahead of the iterator becomes current, unless its cluster is excluded. -/
lemma PointsTo.reaches (hw : G.Walk walk) (hpt : PointsTo b ahead)
  (hi : ∀ q ∈ ahead, q ∈ walk) (hm : p ∈ ahead) (ha : p.1.sequence ∉ b.excludedClusters) :
  ∃ n, (((fun b => b.includeChunk G.load)^[n] b).getCurrentChunk G.load).1 =
    some (G.chunkOf p) := by
  induction hl : ahead.length using Nat.strong_induction_on generalizing b ahead with
  | _ hl ih =>
    obtain ⟨next, hla, rfl⟩ := exists_cons_of_ne_nil (ne_nil_of_mem hm)
    obtain ⟨hh, hil⟩ := forall_mem_cons.mp hi
    rcases mem_cons.mp hm with rfl | hm
    · have current := hw.getCurrentChunk hh hpt.iter hpt.cluster
      exact ⟨0, by rw [iterate_zero, id, current]⟩
    obtain ⟨beyond, rest, rfl, all, b', eq, pointsTo', hs, -⟩ := hw.nextLoop hil b
    have isNext : b.includeChunk G.load = b' := (BlockBuilderImpl.next_of_iter hpt.iter).trans eq
    have inRest : p ∈ rest := (mem_append.mp hm).resolve_left fun passed =>
      ha (all p passed)
    obtain ⟨n, hr⟩ := ih rest.length (by simp [← hl]) pointsTo'
      (fun q inQ => hil q (mem_append_right _ inQ)) inRest (hs ▸ ha) rfl
    exact ⟨n + 1, by rw [iterate_succ_apply, isNext, hr]⟩

lemma mem_included {r : Ref} : r ∈ included events ↔
  ∃ chunk, (.includeChunk, some chunk) ∈ events ∧ r ∈ chunk.1 := by
  simp only [included, mem_flatMap]
  constructor
  · rintro ⟨⟨call, hs⟩, hm, hi⟩
    split_ifs at hi with isInclude
    · cases hs with
      | none => simp at hi
      | some chunk => exact ⟨chunk, isInclude ▸ hm, by simpa using hi⟩
    · cases hi
  · rintro ⟨chunk, hm, hi⟩
    exact ⟨_, hm, by simpa using hi⟩

lemma Progress.included_closed (hw : G.Walk walk)
  (hpr : G.Progress walk passed ahead b events) {x y : GraphIndex}
  (ha : G.Ancestor x y) (isIn : G.refs y ∈ included events) : G.refs x ∈ included events := by
  obtain ⟨c, u, k, u', k', hp, hp', le, -⟩ := ha.placed
  obtain ⟨chunk, hm, hi⟩ := mem_included.mp isIn
  obtain ⟨p, hpp, rfl⟩ := hpr.source _ hm (by simp) chunk rfl
  have inWalk := hpr.mem_passed hpp
  obtain ⟨cluster, update⟩ := hw.mem.mp inWalk
  -- The chunk that was included is the one of `y`.
  obtain ⟨y', hmy, eq⟩ := mem_map.mp hi
  have inTxs := mem_txs cluster (mem_of_chunk cluster update hmy)
  obtain rfl := inj_on_of_nodup_map G.distinct inTxs (mem_txs hp'.cluster hp'.mem) eq
  obtain ⟨k'', hp''⟩ := exists_place cluster update hmy
  obtain ⟨rfl, rfl, rfl⟩ := hp'.unique hp''
  have bounds := hp.bounds
  have bounds' := hp'.bounds
  have earlier : u.linIndex ≤ p.2.linIndex := by
    rcases (laid cluster).2.comparable hp.chunk update with hs | ⟨-, before⟩ | ⟨-, before⟩
    · rw [hs]
    · omega
    · omega
  have inWalk' : (p.1, u) ∈ walk := hw.mem.mpr ⟨cluster, hp.chunk⟩
  have passedU : (p.1, u) ∈ passed := by
    rw [hpr.split] at inWalk'
    refine (mem_append.mp inWalk').resolve_right fun hl => ?_
    have ordered := hw.ordered
    rw [hpr.split] at ordered
    have after := (pairwise_append.mp ordered).2.2 p hpp _ hl rfl
    have pos := (hw.bounds inWalk).1
    simp only at after
    omega
  have also := hpr.closed p hpp hm (p.1, u) passedU rfl earlier
  exact mem_included.mpr ⟨_, also, mem_map_of_mem hp.mem_chunk⟩

/-- Unless `Skip` is the first call and meets an arbitrary flag that happens to be set while the first
chunk does not end its cluster, or a sum overflows, whatever the calls are: the included transactions
have all their ancestors, nothing of a cluster is shown after one of its chunks was skipped, and every
chunk of a cluster is shown before that. -/
theorem blockBuilder_skipSafe (graph : MainGraph) (uninitialized : Bool) (calls : List Call)
  (flag : uninitialized = false ∨ calls.head? ≠ some .skip ∨
    let first := (BlockBuilderImpl.new graph.load uninitialized).getCurrentChunk graph.load
    first.1 = none ∨ first.2.knownEndOfCluster = true) :
  graph.SkipSafe ((BlockBuilderImpl.new graph.load uninitialized).run graph.load calls).1
    ((BlockBuilderImpl.new graph.load uninitialized).run graph.load calls).2 := by
  obtain ⟨walk, isWalk⟩ := graph.exists_walk
  have known : calls.head? = some .skip → Known (.new graph.load uninitialized) walk := by
    intro isSkip set next isNext
    rcases flag with rfl | notSkip | atEnd
    · cases set
    · exact absurd isSkip notSkip
    obtain ⟨rest, rfl⟩ := head?_eq_some_iff.mp isNext
    have start := Progress.new isWalk uninitialized
    rw [isWalk.getCurrentChunk start.mem_next start.pointsTo.iter start.pointsTo.cluster] at atEnd
    simpa using atEnd
  obtain ⟨passed, ahead, hp⟩ := (Progress.new isWalk uninitialized).run isWalk known
  rw [nil_append] at hp
  generalize (BlockBuilderImpl.new graph.load uninitialized).run graph.load calls = result at hp ⊢
  refine ⟨fun x y ancestor => hp.included_closed isWalk ancestor, hp.apart, ?_⟩
  intro c cluster chunk hm
  obtain ⟨u, update, rfl⟩ := mem_map.mp hm
  have inWalk : (c, u) ∈ walk := isWalk.mem.mpr ⟨cluster, update⟩
  have fromExcluded : c.sequence ∈ result.1.excludedClusters →
    ∃ e ∈ result.2, e.1 = .skip ∧ ∃ chunk' ∈ graph.chunks c, e.2 = some chunk' := by
    intro he
    obtain ⟨p, hpp, sequence, skip⟩ := hp.excluded _ he
    have inWalkP := hp.mem_passed hpp
    have same := cluster_eq_of_sequence (isWalk.mem.mp inWalkP).1 cluster sequence
    exact ⟨_, skip, rfl, _, (chunk_mem_iff isWalk inWalkP cluster).mpr same, rfl⟩
  by_cases he : c.sequence ∈ result.1.excludedClusters
  · exact .inr (.inl (fromExcluded he))
  rw [hp.split] at inWalk
  rcases mem_append.mp inWalk with passedU | aheadU
  · rcases hp.decided (c, u) passedU with included | skip | out
    · exact .inl ⟨_, included, rfl⟩
    · exact .inl ⟨_, skip, rfl⟩
    · exact absurd out he
  · refine .inr (.inr (hp.pointsTo.reaches isWalk (fun q inQ => ?_) aheadU he))
    rw [hp.split]
    exact mem_append_right _ inQ

/-- A parent of high feerate and a child of low feerate. -/
def cheapChild : DepGraph where
  entries i := if i = 0 then ⟨⟨3, 1⟩, {0}, {0, 1}⟩ else ⟨⟨1, 2⟩, {0, 1}, {1}⟩
  used := {0, 1}
  self := by decide
  inUse := by decide
  trans := by decide
  inUse' := by decide
  converse := by decide

lemma cheapChild_topological : IsTopological cheapChild [0, 1] := by
  intro p i q split a ha ne
  rcases p with - | ⟨j, - | ⟨k, p⟩⟩
  · obtain ⟨rfl, -⟩ := cons.inj split
    exact absurd (Finset.mem_singleton.mp ha) ne
  · obtain ⟨rfl, rest⟩ := cons.inj split
    obtain ⟨rfl, -⟩ := cons.inj rest
    have known : a ∈ ({0, 1} : Finset ℕ) := ha
    simp_all
  · have length := congrArg List.length split
    simp at length

/-- A graph whose only cluster has two chunks. -/
def twoChunks : MainGraph where
  fallbackOrder := compare
  refs i := i
  clusters := [.generic ⟨0, cheapChild, id, [0, 1]⟩]
  strong := inferInstance
  lawful := inferInstance
  acceptable := by
    refine forall_mem_singleton.mpr ⟨?_, ?_, cheapChild_topological⟩
    · unfold DepGraph.Positive
      decide
    · decide +kernel
  sequences := by decide
  distinct := by decide

/-- `Skip` right after the construction, with the flag set: the second chunk of the cluster is shown
although the first one was skipped. -/
theorem blockBuilder_forgets_skip : ¬ twoChunks.SkipSafe
    ((BlockBuilderImpl.new twoChunks.load true).run twoChunks.load [.skip, .getCurrentChunk]).1
    ((BlockBuilderImpl.new twoChunks.load true).run twoChunks.load [.skip, .getCurrentChunk]).2 := by
  intro safe
  have events : ((BlockBuilderImpl.new twoChunks.load true).run twoChunks.load
    [.skip, .getCurrentChunk]).2 =
    [(.skip, some ([0], ⟨3, 1⟩)), (.getCurrentChunk, some ([1], ⟨1, 2⟩))] := by decide +kernel
  have chunks : twoChunks.chunks (.generic ⟨0, cheapChild, id, [0, 1]⟩) =
    [([0], ⟨3, 1⟩), ([1], ⟨1, 2⟩)] := by decide +kernel
  have apart := safe.skipped
  rw [events, pairwise_pair] at apart
  refine apart rfl _ _ rfl rfl _ (.head _) ?_ ?_
  · rw [chunks]
    decide
  · rw [chunks]
    decide

theorem blockBuilder_skipSafe_twoChunks : twoChunks.SkipSafe
    ((BlockBuilderImpl.new twoChunks.load true).run twoChunks.load [.getCurrentChunk, .skip]).1
    ((BlockBuilderImpl.new twoChunks.load true).run twoChunks.load [.getCurrentChunk, .skip]).2 :=
  blockBuilder_skipSafe twoChunks true [.getCurrentChunk, .skip] (.inr (.inl (by decide)))

end MainGraph

end TxGraph
