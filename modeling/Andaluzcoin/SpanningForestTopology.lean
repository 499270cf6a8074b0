import Andaluzcoin.SpanningForestMerge

/-!
# Topological states

Loading a topological linearization gives a topological state, in which the chunks above any
slope are worth at least as much as any beginning of the linearization. `MakeTopological` makes
any state topological and leaves a topological one as it is.
-/

namespace ClusterLinearize

open RatedParts List DepGraph Network
open Finset (mem_union mem_insert)
open List.Perm (cons swap)

/-- Every ancestor of a transaction comes before it. -/
def IsTopological (G : DepGraph) (linearization : List ℕ) : Prop :=
  ∀ p i q, linearization = p ++ i :: q → ∀ a ∈ G.ancestors i, a ≠ i → a ∈ p

namespace SpanningForestState

variable {G : DepGraph} {s s' : SpanningForestState}

lemma SameForest.refl (s : SpanningForestState) : SameForest s s := ⟨rfl, rfl, rfl, rfl, rfl, rfl⟩

lemma SameQueues.refl (s : SpanningForestState) : SameQueues s s := ⟨rfl, rfl, rfl, le_refl _⟩

section
variable (hpos : G.Positive) {linearization : List ℕ} {t : ℕ}

/-- The transactions loaded so far are topological, and worth at least as much as any beginning
of the linearization. -/
structure Loaded (G : DepGraph) (positive : G.Positive) (done : List ℕ)
  (sub : done.toFinset ⊆ G.positions) (s : SpanningForestState) : Prop where
  rep : Rep G s
  waiting : ∀ i ∈ G.positions, i ∉ done → chunkOf G s i = {i}
  whole : ∀ i ∈ done, chunkOf G s i ⊆ done.toFinset
  inOrder : ((G.network positive).restrict done.toFinset sub).Ordered (chunkOf G s)
  worth : ∀ p q r, done = p ++ q → (G.network positive).weight r p.toFinset ≤
    ((G.network positive).restrict done.toFinset sub).potential (chunkOf G s) r

variable {hpos}

/-- What is kept while the next transaction is merged upwards. -/
structure Loading (G : DepGraph) (positive : G.Positive) (done : Finset ℕ) (t : ℕ)
  (sub : insert t done ⊆ G.positions) (start : ℚ → ℚ) (s : SpanningForestState) : Prop where
  waiting : ∀ i ∈ G.positions, i ∉ insert t done → chunkOf G s i = {i}
  rising : ∃ low mark,
    Rising ((G.network positive).restrict (insert t done) sub) (chunkOf G s) t ∅ low mark ∧
    Holding ((G.network positive).restrict (insert t done) sub) (chunkOf G s) t ∅ low mark
      start

lemma Loading.step {done : Finset ℕ} {sub : insert t done ⊆ G.positions} {start : ℚ → ℚ}
  (hc : ∀ i ∈ insert t done, ∀ p ∈ G.getReducedParents i, p ∈ insert t done)
  (hm : Merges G hpos false s s' t) (hlo : Loading G hpos done t sub start s) :
  Loading G hpos done t sub start s' := by
  obtain ⟨low, mark, hr, holding⟩ := hlo.rising
  obtain ⟨y, z, hl, chunks⟩ := hm.lowest
  have partition := hr.partition
  have isChild := hl.isDep
  have inZ : z ∈ insert t done := by
    have inT : z ∈ chunkOf G s t := by
      obtain ⟨p, c, hj⟩ := hm.joins
      refine (hj.act.rep.partition.mem_iff (sub hr.memX) ?_).mpr hl.here
      exact (mem_children.mp isChild).1
    exact partition.sub t hr.memX inT
  have inY := hc z inZ y (mem_children.mp isChild).2
  have lowest' : Rising.Lowest ((G.network hpos).restrict (insert t done) sub)
    (chunkOf G s) t y z :=
    ⟨⟨isChild, inY, inZ⟩, hl.here, hl.ne, hl.le, fun y' z' hd => hl.least y' z' hd.1⟩
  constructor
  · intro i mi out
    rw [chunks, Partition.merge_of_notMem]
    · exact hlo.waiting i mi out
    · rw [mem_union, not_or]
      exact ⟨fun hi => out (partition.sub y inY hi), fun hi => out (partition.sub z inZ hi)⟩
  · rw [chunks]
    exact ⟨low, _, hr.step lowest', hr.step_holding lowest' holding⟩

/-- Loading one more transaction of a topological linearization. -/
lemma Loaded.step {done : List ℕ} {sub : done.toFinset ⊆ G.positions}
  (hlo : Loaded G hpos done sub s) (mt : t ∈ G.positions) (new : t ∉ done)
  (sub' : (done ++ [t]).toFinset ⊆ G.positions) (hp : ∀ p ∈ G.getReducedParents t, p ∈ done)
  (he : ∀ i ∈ done, ∀ p ∈ G.getReducedParents i, p ∈ done) :
  Loaded G hpos (done ++ [t]) sub' (mergeAll G false s.chunkIdxs.card s (s.chunkIdx t)).2 ∧
    SameQueues s (mergeAll G false s.chunkIdxs.card s (s.chunkIdx t)).2 := by
  have rep := hlo.rep
  have isInsert : (done ++ [t]).toFinset = insert t done.toFinset := by
    ext i
    simp
  have subI := isInsert ▸ sub'
  have closed : ∀ i ∈ insert t done.toFinset, ∀ p ∈ G.getReducedParents i,
    p ∈ insert t done.toFinset := by
    intro i mi p isParent
    rcases mem_insert.mp mi with rfl | old
    · exact Finset.mem_insert_of_mem (mem_toFinset.mpr (hp p isParent))
    · exact Finset.mem_insert_of_mem (mem_toFinset.mpr (he i (mem_toFinset.mp old) p isParent))
  have single := hlo.waiting t mt new
  have partition : Partition (insert t done.toFinset) (chunkOf G s) := by
    constructor
    · exact fun i mi => rep.partition.self i (subI mi)
    · intro i mi
      rcases mem_insert.mp mi with rfl | old
      · rw [single]
        exact Finset.singleton_subset_iff.mpr mi
      · exact (hlo.whole i (mem_toFinset.mp old)).trans (Finset.subset_insert _ _)
    · exact fun i mi => rep.partition.same i (subI mi)
  have last : ∀ c ∈ insert t done.toFinset, ¬ (G.network hpos).dep t c := by
    intro c mc hc
    have isParent := (mem_children.mp hc).2
    rcases mem_insert.mp mc with rfl | old
    · exact (parent_ancestor mt isParent).2 rfl
    · exact new (he c (mem_toFinset.mp old) t isParent)
  have start : Loading G hpos done.toFinset t subI
    (((G.network hpos).restrict done.toFinset sub).potential (chunkOf G s)) s :=
    ⟨fun i mi out => hlo.waiting i mi fun old =>
      out (Finset.mem_insert_of_mem (mem_toFinset.mpr old)),
      Rising.of_insert subI partition single (fun old => new (mem_toFinset.mp old))
        hlo.inOrder last⟩
  obtain ⟨s', eq, rep', queues, hf, hl⟩ := mergeAll_spec hpos false mt
    (Loading G hpos done.toFinset t subI
      (((G.network hpos).restrict done.toFinset sub).potential (chunkOf G s)))
    (fun s s' same _ hl => ⟨by rw [same.chunkOf_eq]; exact hl.waiting,
      by rw [same.chunkOf_eq]; exact hl.rising⟩)
    (fun s s' hm hl => hl.step closed hm)
    s.chunkIdxs.card s rep (le_refl _) start
  obtain ⟨low, mark, hr, holding⟩ := hl.rising
  have inOrder := hr.ordered fun p c hd hh ne => hf p c hd.1 hh ne
  rw [eq]
  refine ⟨?_, queues⟩
  constructor
  · exact rep'
  · intro i mi out
    refine hl.waiting i mi ?_
    rw [← isInsert, mem_toFinset]
    exact out
  · intro i mi
    have mem : i ∈ insert t done.toFinset := by
      rw [← isInsert]
      exact mem_toFinset.mpr mi
    rw [isInsert]
    exact hr.partition.sub i mem
  · intro p c hd ne
    have mem : p ∈ insert t done.toFinset ∧ c ∈ insert t done.toFinset := by
      rw [← isInsert]
      exact hd.2
    exact inOrder p c ⟨hd.1, mem⟩ ne (Finset.notMem_empty p)
  · intro p q r split
    have same : ((G.network hpos).restrict (done ++ [t]).toFinset sub').potential (chunkOf G s') r =
      ((G.network hpos).restrict (insert t done.toFinset) subI).potential (chunkOf G s') r := by
      simp only [potential, restrict, isInsert, weight]
    rw [same]
    -- a shorter beginning was accounted for before, and all of it is worth no more than its chunks
    cases q using reverseRecOn with
    | nil =>
      rw [append_nil] at split
      rw [← split, isInsert]
      exact weight_le_potential hr.partition r
    | append_singleton q' last' =>
      rw [← append_assoc] at split
      obtain ⟨old, -⟩ := append_inj' split rfl
      exact (hlo.worth p q' r old).trans (holding.keeps r)

variable (hpos) in
lemma load_topological (nodup : linearization.Nodup)
  (all : ∀ i, i ∈ linearization ↔ i ∈ G.positions) (ht : IsTopological G linearization)
  (rep : Rep G s) (single : ∀ i ∈ G.positions, chunkOf G s i = {i}) :
  Rep G (s.loadLinearization G linearization) ∧
    (G.network hpos).Ordered (chunkOf G (s.loadLinearization G linearization)) ∧
    (∀ p q r, linearization = p ++ q → (G.network hpos).weight r p.toFinset ≤
      (G.network hpos).potential (chunkOf G (s.loadLinearization G linearization)) r) ∧
    SameQueues s (s.loadLinearization G linearization) := by
  have parents : ∀ p i q, linearization = p ++ i :: q → ∀ a ∈ G.getReducedParents i, a ∈ p := by
    intro p i q eq a hp
    have mi : i ∈ G.positions := (all i).mp (by simp [eq])
    obtain ⟨ha, ne⟩ := parent_ancestor mi hp
    exact ht p i q eq a ha ne
  have start : Loaded G hpos [] (by simp) s := by
    constructor
    · exact rep
    · exact fun i mi _ => single i mi
    · simp
    · intro p c hd
      simp [restrict] at hd
    · intro p q r split
      have empty : p = [] := (append_eq_nil_iff.mp split.symm).1
      simp [empty, potential, parts, restrict]
  obtain ⟨⟨sub, loaded⟩, queues⟩ : (∃ sub, Loaded G hpos linearization sub
    (s.loadLinearization G linearization)) ∧ SameQueues s (s.loadLinearization G linearization) := by
    refine foldl_inv (fun hdo s' => (∃ sub, Loaded G hpos hdo sub s') ∧ SameQueues s s')
      ⟨⟨_, start⟩, SameQueues.refl s⟩ fun hdo t rest s' eq inv => ?_
    obtain ⟨⟨_, loaded⟩, queues⟩ := inv
    have mt : t ∈ G.positions := (all t).mp (by simp [eq])
    have new : t ∉ hdo := by
      rw [eq, nodup_append] at nodup
      exact fun old => nodup.2.2 t old t (.head _) rfl
    have sub' : (hdo ++ [t]).toFinset ⊆ G.positions := by
      intro i mi
      refine (all i).mp ?_
      rw [eq, append_cons]
      exact mem_append_left _ (mem_toFinset.mp mi)
    have earlier : ∀ i ∈ hdo, ∀ p ∈ G.getReducedParents i, p ∈ hdo := by
      intro i mi p hp
      obtain ⟨l, l', split⟩ := append_of_mem mi
      have before := parents l i (l' ++ t :: rest) (by simp [eq, split]) p hp
      rw [split]
      exact mem_append_left _ before
    obtain ⟨loaded', hq'⟩ := loaded.step mt new sub' (parents hdo t rest eq) earlier
    exact ⟨⟨sub', loaded'⟩, queues.trans hq'⟩
  have isAll : linearization.toFinset = G.positions := by
    ext i
    rw [mem_toFinset, all]
  refine ⟨loaded.rep, ?_, ?_, queues⟩
  · intro p c hd ne
    obtain ⟨mp, mc⟩ := (G.network hpos).inside p c hd
    exact loaded.inOrder p c ⟨hd, isAll ▸ mp, isAll ▸ mc⟩ ne
  intro p q r split
  have bound := loaded.worth p q r split
  simp only [potential, restrict, isAll] at bound
  exact bound

lemma load_rep (hpos : G.Positive) (hk : ∀ i ∈ linearization, i ∈ G.positions) (rep : Rep G s) :
  Rep G (s.loadLinearization G linearization) ∧
    SameQueues s (s.loadLinearization G linearization) := by
  rw [loadLinearization]
  induction linearization generalizing s with
  | nil => exact ⟨rep, SameQueues.refl s⟩
  | cons t rest ih =>
    obtain ⟨s', eq, rep', queues, -, -⟩ := mergeAll_spec hpos false
      (hk t (.head _)) (fun _ => True) (fun _ _ _ _ _ => trivial)
      (fun _ _ _ _ => trivial) s.chunkIdxs.card s rep (le_refl _) trivial
    rw [foldl_cons, eq]
    obtain ⟨rep'', hq'⟩ := ih (fun i mi => hk i (.tail _ mi)) rep'
    exact ⟨rep'', queues.trans hq'⟩

end

lemma pushRandom_perm {α : Type} (queue : List α) (entry : α) (j : ℕ) :
  (pushRandom queue entry j).Perm (entry :: queue) := by
  rw [pushRandom]
  split
  · next other isOther =>
    obtain ⟨hs, rfl⟩ := List.getElem?_eq_some_iff.mp isOther
    have original : queue = queue.take j ++ queue[j] :: queue.drop (j + 1) := by
      rw [getElem_cons_drop, take_append_drop]
    rw [set_eq_take_append_cons_drop, if_pos hs]
    refine List.Perm.trans ?_ (cons entry (Perm.of_eq original.symm))
    refine (perm_append_singleton ..).trans ((cons _ perm_middle).trans ?_)
    exact (swap entry _ _).trans (cons entry perm_middle.symm)
  · exact perm_append_singleton ..

/-- The set of queued indexes is that of the queue. -/
structure QueueOk (s : SpanningForestState) : Prop where
  nodup : s.suboptimalChunks.Nodup
  mem : ∀ idx, idx ∈ s.suboptimalIdxs ↔ idx ∈ s.suboptimalChunks

lemma QueueOk.congr (ok : QueueOk s) (queues : SameQueues s s') : QueueOk s' := by
  refine ⟨queues.suboptimalChunks ▸ ok.nodup, ?_⟩
  rw [queues.suboptimalChunks, queues.suboptimalIdxs]
  exact ok.mem

lemma QueueOk.pop {idx : ℕ} {rest : List ℕ} (ok : QueueOk s)
  (hp : s.suboptimalChunks = idx :: rest) (hq : s'.suboptimalChunks = rest)
  (idxs : s'.suboptimalIdxs = s.suboptimalIdxs.erase idx) : QueueOk s' := by
  have nodup := ok.nodup
  rw [hp, nodup_cons] at nodup
  constructor
  · rw [hq]
    exact nodup.2
  intro i
  rw [idxs, hq, Finset.mem_erase, ok.mem, hp, mem_cons]
  constructor
  · rintro ⟨ne, eq | mem⟩
    · exact absurd eq ne
    · exact mem
  · intro mem
    exact ⟨fun eq => nodup.1 (eq ▸ mem), .inr mem⟩

lemma queueAll_spec (empty : s.suboptimalChunks = []) :
  SameForest s s.queueAll ∧ QueueOk s.queueAll ∧
    (∀ idx, idx ∈ s.queueAll.suboptimalChunks ↔ idx ∈ s.chunkIdxs) ∧
    s.queueAll.suboptimalChunks.length = s.chunkIdxs.card ∧
    s.queueAll.nonminimalChunks = s.nonminimalChunks ∧ s.queueAll.cost = s.cost := by
  obtain ⟨hs, perm, idxs, hn, cost⟩ : SameForest s s.queueAll ∧
    s.queueAll.suboptimalChunks.Perm (ascending s.chunkIdxs) ∧
    s.queueAll.suboptimalIdxs = s.chunkIdxs ∧
    s.queueAll.nonminimalChunks = s.nonminimalChunks ∧ s.queueAll.cost = s.cost := by
    refine foldl_inv (fun l s' => SameForest s s' ∧ s'.suboptimalChunks.Perm l ∧
      s'.suboptimalIdxs = s.chunkIdxs ∧ s'.nonminimalChunks = s.nonminimalChunks ∧
      s'.cost = s.cost) ⟨⟨rfl, rfl, rfl, rfl, rfl, rfl⟩, by rw [empty], rfl, rfl, rfl⟩ ?_
    intro l idx _ s' _ ⟨hs, perm, idxs, hn, cost⟩
    refine ⟨{ hs with }, ?_, idxs, hn, cost⟩
    exact ((pushRandom_perm _ idx _).trans (perm.cons idx)).trans (perm_append_singleton idx l).symm
  have mem : ∀ idx, idx ∈ s.queueAll.suboptimalChunks ↔ idx ∈ s.chunkIdxs := by
    intro idx
    rw [perm.mem_iff, mem_ascending]
  refine ⟨{ hs with }, ⟨?_, ?_⟩, mem, ?_, hn, cost⟩
  · exact perm.nodup_iff.mpr (nodup_ascending _)
  · intro idx
    rw [mem, idxs]
  · rw [perm.length_eq, length_ascending]

lemma pushSuboptimal_spec (ok : QueueOk s) (idx : ℕ) :
  SameForest s (s.pushSuboptimal idx) ∧ QueueOk (s.pushSuboptimal idx) ∧
    (∀ i, i ∈ (s.pushSuboptimal idx).suboptimalChunks ↔ i = idx ∨ i ∈ s.suboptimalChunks) ∧
    (s.pushSuboptimal idx).suboptimalChunks.length ≤ s.suboptimalChunks.length + 1 ∧
    (s.pushSuboptimal idx).nonminimalChunks = s.nonminimalChunks ∧
    (s.pushSuboptimal idx).cost = s.cost := by
  rw [pushSuboptimal]
  split_ifs with hq
  · refine ⟨SameForest.refl s, ok, fun i => ?_, Nat.le_succ _, rfl, rfl⟩
    constructor
    · exact .inr
    · rintro (rfl | old)
      · exact (ok.mem i).mp hq
      · exact old
  have new : idx ∉ s.suboptimalChunks := fun mem => hq ((ok.mem idx).mpr mem)
  have mem : ∀ i, i ∈ s.suboptimalChunks ++ [idx] ↔ i = idx ∨ i ∈ s.suboptimalChunks := by
    intro i
    rw [mem_append, mem_singleton, or_comm]
  refine ⟨⟨rfl, rfl, rfl, rfl, rfl, rfl⟩, ⟨?_, ?_⟩, mem, ?_, rfl, rfl⟩
  · exact nodup_append.mpr ⟨ok.nodup, nodup_singleton _, by
      rintro a old b isNew rfl
      rw [mem_singleton] at isNew
      exact new (isNew ▸ old)⟩
  · intro i
    rw [mem, mem_insert, ok.mem]
  · simp

variable {hpos : G.Positive} {x : ℕ} {downWard initDown : Bool} {merged : Finset ℕ}
  {rest : List ℕ} {start : SpanningForestState} {c i p : ℕ}

lemma Merges.of_same {s'' : SpanningForestState} (hm : Merges G hpos downWard s' s'' x)
  (rep : Rep G s) (hs : SameForest s s') (queues : SameQueues s s') :
  Merges G hpos downWard s s'' x := by
  obtain ⟨p, c, hj⟩ := hm.joins
  refine ⟨⟨p, c, hj.of_same rep hs queues⟩, ?_⟩
  rw [← hs.chunkOf_eq]
  exact hm.lowest

variable (hpos) in
/-- The attempts for a popped chunk: none of them succeeds, or one of them merges it. -/
lemma attemptMerges_spec (rep : Rep G s) (mx : x ∈ G.positions) (up down flip : Bool)
  (merged : Finset ℕ) :
  (∃ s', s.attemptMerges G (s.chunkIdx x) up down flip merged = (merged, s') ∧
    SameForest s s' ∧ SameQueues s s' ∧ (up = true → Done G hpos false s x) ∧
    (down = true → Done G hpos true s x)) ∨
  ∃ s₁ downWard, Merges G hpos downWard s s₁ x ∧
    s.attemptMerges G (s.chunkIdx x) up down flip merged =
      (insert (s₁.chunkIdx x) merged, s₁.pushSuboptimal (s₁.chunkIdx x)) := by
  -- one attempt, if its direction is wanted
  have attempt : ∀ (s : SpanningForestState) (downWard wanted : Bool), Rep G s →
    (∃ s', (if wanted then s.attemptMerge G downWard (s.chunkIdx x) merged else (none, s)) =
        (none, s') ∧
      SameForest s s' ∧ SameQueues s s' ∧ (wanted = true → Done G hpos downWard s x)) ∨
    ∃ s₁, Merges G hpos downWard s s₁ x ∧
      (if wanted then s.attemptMerge G downWard (s.chunkIdx x) merged else (none, s)) =
        (some (insert (s₁.chunkIdx x) merged), s₁.pushSuboptimal (s₁.chunkIdx x)) := by
    intro s downWard wanted rep
    by_cases wanted : wanted = true
    · rw [if_pos wanted, attemptMerge]
      rcases mergeStep_spec rep hpos downWard mx with
        ⟨s', eq, hs, queues, hd⟩ | ⟨s', eq, hm⟩
      · exact .inl ⟨s', by rw [eq], hs, queues, fun _ => hd⟩
      · exact .inr ⟨s', hm, by rw [eq]⟩
    · rw [if_neg wanted]
      exact .inl ⟨s, rfl, SameForest.refl s, SameQueues.refl s, fun w => absurd w wanted⟩
  rw [attemptMerges]
  dsimp only
  rcases attempt s (!flip) (if !flip then down else up) rep with ⟨s', eq, hs, queues, hd⟩ | ⟨s₁, hm, eq⟩
  · rw [eq]
    rcases attempt s' (!!flip) (if !!flip then down else up) (rep.congr hs) with
      ⟨s'', eq', same', queues', done'⟩ | ⟨s₁, hm, eq'⟩
    · refine .inl ⟨s'', ?_, hs.trans same', queues.trans queues', ?_⟩
      · rw [hs.chunkIdx] at eq'
        dsimp only
        rw [eq']
      rw [Done, hs.chunkOf_eq] at done'
      cases flip
      · exact ⟨done', hd⟩
      · exact ⟨hd, done'⟩
    · refine .inr ⟨s₁, _, hm.of_same rep hs queues, ?_⟩
      rw [hs.chunkIdx] at eq'
      dsimp only
      rw [eq']
  · exact .inr ⟨s₁, _, hm, by rw [eq]⟩

/-- Wherever two chunks are out of order, one of them is queued to be merged toward the other. -/
structure Pending (G : DepGraph) (positive : G.Positive) (initDown : Bool)
  (start s : SpanningForestState) (merged : Finset ℕ) : Prop where
  rep : Rep G s
  ok : QueueOk s
  pending : ∀ p c, c ∈ G.children p → chunkOf G s p ≠ chunkOf G s c →
    (G.network positive).rate (chunkOf G s p) ≤
      (G.network positive).rate (chunkOf G s c) →
    (s.chunkIdx c ∈ s.suboptimalChunks ∧ (s.chunkIdx c ∈ merged ∨ initDown = false)) ∨
      (s.chunkIdx p ∈ s.suboptimalChunks ∧ (s.chunkIdx p ∈ merged ∨ initDown = true))
  kept : (G.network positive).Ordered (chunkOf G start) → SameForest start s
  nonminimal : s.nonminimalChunks = start.nonminimalChunks
  cost : start.cost ≤ s.cost

lemma Merges.not_ordered (hm : Merges G hpos downWard s s' x) :
  ¬ (G.network hpos).Ordered (chunkOf G s) := by
  intro ho
  obtain ⟨y, z, hl, -⟩ := hm.lowest
  have ne := hl.here ▸ hl.ne
  have le := hl.le
  rw [← hl.here] at le
  cases downWard with
  | false => exact absurd (ho y z hl.isDep ne) (not_lt.mpr le)
  | true => exact absurd (ho.dual y z hl.isDep ne) (not_lt.mpr le)

section
variable (hj : JoinsTo G s s' p c) (mi : i ∈ G.positions)
include hj mi

/-- A transaction of another index is in neither of the merged chunks. -/
lemma JoinsTo.outside (ne : s'.chunkIdx i ≠ s.chunkIdx c) : i ∉ chunkOf G s p ∪ chunkOf G s c := by
  have act := hj.act
  rw [hj.chunkIdx] at ne
  rw [mem_union, not_or]
  have notP : i ∉ chunkOf G s p := fun hi => ne (if_pos hi)
  rw [if_neg notP] at ne
  refine ⟨notP, fun hi => ne ?_⟩
  exact (act.rep.chunkOf_eq_iff act.memC mi).mp (act.rep.partition.same c act.memC i hi)

/-- A chunk away from the merged ones is as before. -/
lemma JoinsTo.away (ne : s'.chunkIdx i ≠ s.chunkIdx c) :
  chunkOf G s' i = chunkOf G s i ∧ s'.chunkIdx i = s.chunkIdx i := by
  have out := hj.outside mi ne
  have notP : i ∉ chunkOf G s p := fun hi => out (Finset.mem_union_left _ hi)
  constructor
  · rw [hj.chunkOf_eq, Partition.merge_of_notMem out]
  · rw [hj.chunkIdx, if_neg notP]

/-- Transactions of one chunk stay together. -/
lemma JoinsTo.together (mx : x ∈ G.positions)
  (eq : s.chunkIdx i = s.chunkIdx x) : s'.chunkIdx i = s'.chunkIdx x := by
  have act := hj.act
  simp only [hj.chunkIdx, chunkOf_part act.memP, act.rep.mem_part act.memP mi,
    act.rep.mem_part act.memP mx, eq]

end

lemma Merges.chunkIdx_eq (hm : Merges G hpos downWard s s' x)
  (mx : x ∈ G.positions) (hj : JoinsTo G s s' p c) :
  s'.chunkIdx x = s.chunkIdx c := by
  have act := hj.act
  have rep := act.rep
  obtain ⟨y, z, hl, chunks⟩ := hm.lowest
  obtain ⟨my, mz⟩ := toward_inside hl.isDep
  -- both descriptions merge the same two chunks, so that the chunk is one of the joined ones
  by_contra ne
  have away := hj.away mx ne
  have self : x ∈ chunkOf G s y ∪ chunkOf G s z := by
    rw [hl.here]
    exact Finset.mem_union_right _ (rep.partition.self x mx)
  have grown := away.1
  rw [chunks, Partition.merge_of_mem self, hl.here] at grown
  have inX : y ∈ chunkOf G s x := by
    rw [← grown]
    exact Finset.mem_union_left _ (rep.partition.self y my)
  exact hl.ne (rep.partition.same x mx y inX)

lemma Pending.merge (before : Pending G hpos initDown start s merged)
  (hp : s.suboptimalChunks = s.chunkIdx x :: rest) (mx : x ∈ G.positions)
  {s₀ s₁ : SpanningForestState} (same : SameForest s s₀) (hqu : s₀.suboptimalChunks = rest)
  (idxs : s₀.suboptimalIdxs = s.suboptimalIdxs.erase (s.chunkIdx x))
  (hn : s₀.nonminimalChunks = s.nonminimalChunks) (cost : s.cost ≤ s₀.cost)
  (hm : Merges G hpos downWard s₀ s₁ x) :
  Pending G hpos initDown start (s₁.pushSuboptimal (s₁.chunkIdx x))
      (insert (s₁.chunkIdx x) merged) ∧
    (s₁.pushSuboptimal (s₁.chunkIdx x)).suboptimalChunks.length +
      (s₁.pushSuboptimal (s₁.chunkIdx x)).chunkIdxs.card <
      s.suboptimalChunks.length + s.chunkIdxs.card := by
  obtain ⟨p, c, hj⟩ := hm.joins
  have atX := hm.chunkIdx_eq mx hj
  have ok₁ := (before.ok.pop hp hqu idxs).congr hj.queues
  obtain ⟨hs', ok', mem', hl', hn', cost'⟩ := pushSuboptimal_spec ok₁ (s₁.chunkIdx x)
  have chunks : chunkOf G (s₁.pushSuboptimal (s₁.chunkIdx x)) = chunkOf G s₁ := hs'.chunkOf_eq
  have card := Finset.card_erase_of_mem (hj.act.rep.chunk p hj.act.memP)
  have pos := Finset.card_pos.mpr ⟨_, hj.act.rep.chunk p hj.act.memP⟩
  refine ⟨⟨hj.rep.congr hs', ok', ?_, ?_, ?_, ?_⟩, ?_⟩
  · intro a b hc ne hv
    rw [chunks] at ne hv
    rw [hs'.chunkIdx, mem', mem']
    have mb := (mem_children.mp hc).1
    have ma := parent_mem hc
    by_cases atA : s₁.chunkIdx a = s₁.chunkIdx x
    · exact .inr ⟨.inl atA, .inl (atA ▸ Finset.mem_insert_self _ _)⟩
    by_cases atB : s₁.chunkIdx b = s₁.chunkIdx x
    · exact .inl ⟨.inl atB, .inl (atB ▸ Finset.mem_insert_self _ _)⟩
    rw [atX] at atA atB
    obtain ⟨chunkA, idxA⟩ := hj.away ma atA
    obtain ⟨chunkB, idxB⟩ := hj.away mb atB
    rw [chunkA, chunkB, same.chunkOf_eq] at ne hv
    rw [same.chunkIdx] at idxA idxB
    -- neither chunk is the popped one, which is now part of the merged one
    have notX : ∀ {i}, s₁.chunkIdx i ≠ s₀.chunkIdx c → i ∈ G.positions →
      s.chunkIdx i ≠ s.chunkIdx x := by
      intro i ne mi eq
      rw [← same.chunkIdx] at eq
      exact ne ((hj.together mi mx eq).trans atX)
    have notA := notX atA ma
    have notB := notX atB mb
    have inRest : ∀ {i}, i ∈ s.suboptimalChunks → i ≠ s.chunkIdx x → i ∈ s₁.suboptimalChunks := by
      intro i mem ne
      rw [hp] at mem
      rw [hj.queues.suboptimalChunks, hqu]
      exact (mem_cons.mp mem).resolve_left ne
    rw [idxA, idxB]
    rcases before.pending a b hc ne hv with ⟨hq, dir⟩ | ⟨hq, dir⟩
    · exact .inl ⟨.inr (inRest hq notB), dir.imp_left Finset.mem_insert_of_mem⟩
    · exact .inr ⟨.inr (inRest hq notA), dir.imp_left Finset.mem_insert_of_mem⟩
  · intro ho
    have kept := before.kept ho
    refine absurd ?_ hm.not_ordered
    rw [(kept.trans same).chunkOf_eq]
    exact ho
  · rw [hn', hj.queues.nonminimalChunks, hn, before.nonminimal]
  · rw [cost']
    exact before.cost.trans (cost.trans hj.queues.cost)
  · rw [hs'.chunkIdxs, hj.chunkIdxs, card, ← same.chunkIdxs, hp, length_cons]
    rw [hj.queues.suboptimalChunks, hqu] at hl'
    omega

lemma Pending.stay {idx : ℕ} (before : Pending G hpos initDown start s merged)
  (hp : s.suboptimalChunks = idx :: rest) (hs : SameForest s s')
  (hqu : s'.suboptimalChunks = rest) (idxs : s'.suboptimalIdxs = s.suboptimalIdxs.erase idx)
  (hn : s'.nonminimalChunks = s.nonminimalChunks) (cost : s.cost ≤ s'.cost)
  (up : idx ∈ merged ∨ initDown = false → ∀ c ∈ G.positions, s.chunkIdx c = idx →
    Done G hpos false s c)
  (down : idx ∈ merged ∨ initDown = true → ∀ p ∈ G.positions, s.chunkIdx p = idx →
    Done G hpos true s p) : Pending G hpos initDown start s' merged := by
  constructor
  · exact before.rep.congr hs
  · exact before.ok.pop hp hqu idxs
  · intro p c hc ne hv
    rw [hs.chunkOf_eq] at ne hv
    rw [hs.chunkIdx, hqu]
    have inRest : ∀ {i}, i ∈ s.suboptimalChunks → i ≠ idx → i ∈ rest := by
      intro i mem ne
      rw [hp] at mem
      exact (mem_cons.mp mem).resolve_left ne
    have mc := (mem_children.mp hc).1
    have mp := parent_mem hc
    rcases before.pending p c hc ne hv with ⟨hq, dir⟩ | ⟨hq, dir⟩
    · refine .inl ⟨inRest hq fun eq => ?_, dir⟩
      have done := up (eq ▸ dir) c mc eq
      exact absurd (done p c hc rfl ne) (not_lt.mpr hv)
    refine .inr ⟨inRest hq fun eq => ?_, dir⟩
    have done := down (eq ▸ dir) p mp eq
    have strict := done c p hc rfl (Ne.symm ne)
    rw [toward, if_pos rfl, dual_rate, dual_rate, neg_lt_neg_iff] at strict
    exact absurd strict (not_lt.mpr hv)
  · exact fun ho => (before.kept ho).trans hs
  · rw [hn, before.nonminimal]
  · exact before.cost.trans cost

lemma makeTopologicalLoop_spec :
  ∀ (fuel : ℕ) (s : SpanningForestState) (merged : Finset ℕ) (steps : ℕ),
    Pending G hpos initDown start s merged → s.suboptimalChunks.length + s.chunkIdxs.card ≤ fuel →
    (∃ merged', Pending G hpos initDown start
      (makeTopologicalLoop G initDown fuel s merged steps).2 merged') ∧
    (makeTopologicalLoop G initDown fuel s merged steps).2.suboptimalChunks = [] := by
  intro fuel
  induction fuel with
  | zero =>
    intro s merged steps hp hb
    have empty : s.suboptimalChunks.length = 0 := by omega
    exact ⟨⟨merged, hp⟩, length_eq_zero_iff.mp empty⟩
  | succ fuel ih =>
    intro s merged steps hp hb
    rw [makeTopologicalLoop]
    split
    · next empty => exact ⟨⟨merged, hp⟩, empty⟩
    · next idx rest hpo =>
      have length : s.suboptimalChunks.length = rest.length + 1 := by rw [hpo, length_cons]
      dsimp only
      split_ifs with hc
      · obtain ⟨x, mx, rfl⟩ := hp.rep.owner idx hc
        let s₀ : SpanningForestState := { s with
          suboptimalChunks := rest
          suboptimalIdxs := s.suboptimalIdxs.erase (s.chunkIdx x)
          rng := (s.rng.randbool).2 }
        have same₀ : SameForest s s₀ := ⟨rfl, rfl, rfl, rfl, rfl, rfl⟩
        rcases attemptMerges_spec hpos (hp.rep.congr same₀) mx
          (decide (s.chunkIdx x ∈ merged) || !initDown) (decide (s.chunkIdx x ∈ merged) || initDown)
          (s.rng.randbool).1 merged with
          ⟨s', eq, same, queues, up, down⟩ | ⟨s₁, downWard, merges, eq⟩
        · have settled : ∀ {downWard : Bool}, Done G hpos downWard s₀ x →
            ∀ i ∈ G.positions, s.chunkIdx i = s.chunkIdx x →
            Done G hpos downWard s i := by
            intro downWard hd i mi eq
            rw [Done, same₀.chunkOf_eq] at hd
            rw [Done, (hp.rep.chunkOf_eq_iff mx mi).mpr eq]
            exact hd
          refine eq ▸ ih s' merged (steps + 1) ?_ ?_
          · refine hp.stay hpo (same₀.trans same) queues.suboptimalChunks
              queues.suboptimalIdxs queues.nonminimalChunks queues.cost ?_ ?_
            · intro wanted
              exact settled (up (by simpa using wanted))
            · intro wanted
              exact settled (down (by simpa using wanted))
          · rw [queues.suboptimalChunks, (same₀.trans same).chunkIdxs]
            change rest.length + _ ≤ fuel
            omega
        · obtain ⟨hp', less⟩ := hp.merge hpo mx same₀ rfl rfl rfl (le_refl _) merges
          exact eq ▸ ih (s₁.pushSuboptimal (s₁.chunkIdx x)) (insert (s₁.chunkIdx x) merged)
            (steps + 1) hp' (by omega)
      · refine ih _ merged (steps + 1) (hp.stay hpo ⟨rfl, rfl, rfl, rfl, rfl, rfl⟩ rfl rfl
          rfl (le_refl _) ?_ ?_) ?_
        · exact fun _ i mi eq => absurd (eq ▸ hp.rep.chunk i mi) hc
        · exact fun _ i mi eq => absurd (eq ▸ hp.rep.chunk i mi) hc
        · change rest.length + s.chunkIdxs.card ≤ fuel
          omega

/-- `MakeTopological` orders the chunks, and leaves ordered chunks as they are. -/
lemma makeTopological_spec (hpos : G.Positive) (rep : Rep G s) (empty : s.suboptimalChunks = []) :
  Rep G (s.makeTopological G) ∧ (G.network hpos).Ordered (chunkOf G (s.makeTopological G)) ∧
    ((G.network hpos).Ordered (chunkOf G s) → SameForest s (s.makeTopological G)) ∧
    (s.makeTopological G).suboptimalChunks = [] := by
  let s₀ : SpanningForestState := { s with rng := (s.rng.randbool).2 }
  obtain ⟨hs, ok, mem, hl, hn, cost⟩ := queueAll_spec (s := s₀) empty
  have same₀ : SameForest s s₀.queueAll := { hs with }
  have start : Pending G hpos (s.rng.randbool).1 s s₀.queueAll ∅ := by
    refine ⟨rep.congr same₀, ok, ?_, fun _ => same₀, hn, cost.ge⟩
    -- all chunks are queued, and all of them for the first direction
    intro p c hc _ _
    rw [mem, mem, same₀.chunkIdx]
    have mc := rep.chunk c (mem_children.mp hc).1
    have mp := rep.chunk p (parent_mem hc)
    cases (s.rng.randbool).1
    · exact .inl ⟨mc, .inr rfl⟩
    · exact .inr ⟨mp, .inr rfl⟩
  have enough : s₀.queueAll.suboptimalChunks.length + s₀.queueAll.chunkIdxs.card ≤
    2 * s.chunkIdxs.card := by
    rw [hl, same₀.chunkIdxs, two_mul]
  obtain ⟨⟨merged, hp⟩, hd⟩ := makeTopologicalLoop_spec _ _ _ 0 start enough
  set last := (makeTopologicalLoop G (s.rng.randbool).1 (2 * s.chunkIdxs.card)
    s₀.queueAll ∅ 0).2 with hla
  have charged : SameForest last (s.makeTopological G) := ⟨rfl, rfl, rfl, rfl, rfl, rfl⟩
  refine ⟨hp.rep.congr charged, ?_, fun ho => (hp.kept ho).trans charged, hd⟩
  rw [charged.chunkOf_eq]
  intro p c hc ne
  by_contra high
  have queued := hp.pending p c hc ne (not_lt.mp high)
  rw [hd] at queued
  simp at queued

end SpanningForestState

end ClusterLinearize
