import Andaluzcoin.FeeFrac
import Andaluzcoin.Outcome

/-!
# Dependency graphs of a cluster

`DepGraph`: the transactions of a cluster by position, with their feerates and the sets of their
ancestors and descendants. Sets of positions are finite sets, gone through in increasing order
as `BitSet` does; their capacity is not modelled. The graph carries what its operations keep:
a transaction is its own ancestor, ancestors of ancestors are ancestors, and descendants are the
converse.
-/

namespace ClusterLinearize

open List Function FeeFrac

variable {s : Finset ℕ} {i : ℕ}

/-- The elements of a set as a loop over it meets them. -/
def ascending (s : Finset ℕ) : List ℕ := (List.range (s.sup id + 1)).filter (· ∈ s)

@[simp]
lemma mem_ascending : i ∈ ascending s ↔ i ∈ s := by
  simp only [ascending, mem_filter, mem_range, decide_eq_true_eq, and_iff_right_iff_imp]
  exact fun mem => Nat.lt_succ_of_le (Finset.le_sup (f := id) mem)

lemma nodup_ascending (s : Finset ℕ) : (ascending s).Nodup := List.Nodup.filter _ nodup_range

lemma length_ascending (s : Finset ℕ) : (ascending s).length = s.card := by
  rw [← toFinset_card_of_nodup (nodup_ascending s)]
  congr 1
  ext i
  simp

lemma sum_ascending {M : Type*} [AddCommMonoid M] (s : Finset ℕ) (f : ℕ → M) :
  ((ascending s).map f).sum = ∑ i ∈ s, f i := by
  have toFinset : (ascending s).toFinset = s := by
    ext i
    simp
  rw [← sum_toFinset f (nodup_ascending s), toFinset]

/-- `First()` -/
def first (s : Finset ℕ) : Option ℕ := (ascending s).head?

lemma first_eq_none : first s = none ↔ s = ∅ := by
  rw [first, head?_eq_none_iff, ← length_eq_zero_iff, length_ascending, Finset.card_eq_zero]

lemma mem_of_first (hf : first s = some i) : i ∈ s := mem_ascending.mp (mem_of_mem_head? hf)

structure Entry where
  feerate : FeeFrac
  ancestors : Finset ℕ
  descendants : Finset ℕ
  deriving DecidableEq

structure DepGraph where
  entries : ℕ → Entry
  used : Finset ℕ
  self : ∀ i ∈ used, i ∈ (entries i).ancestors
  inUse : ∀ i ∈ used, (entries i).ancestors ⊆ used
  trans : ∀ i ∈ used, ∀ j ∈ (entries i).ancestors, (entries j).ancestors ⊆ (entries i).ancestors
  inUse' : ∀ i ∈ used, (entries i).descendants ⊆ used
  converse : ∀ i ∈ used, ∀ j ∈ used, j ∈ (entries i).descendants ↔ i ∈ (entries j).ancestors

/-- The entries in use hold the lower and upper sets of a preorder, in which a position that is not in
use is related to itself only. -/
structure Orders (entries : ℕ → Entry) (used : Finset ℕ) (le : ℕ → ℕ → Prop) : Prop where
  refl : ∀ i, le i i
  trans : ∀ i j k, le i j → le j k → le i k
  inUse : ∀ i j, le i j → i = j ∨ i ∈ used ∧ j ∈ used
  ancestors : ∀ i ∈ used, ∀ j, j ∈ (entries i).ancestors ↔ j ∈ used ∧ le j i
  descendants : ∀ i ∈ used, ∀ j, j ∈ (entries i).descendants ↔ j ∈ used ∧ le i j

namespace Orders

variable {entries : ℕ → Entry} {used : Finset ℕ} {le : ℕ → ℕ → Prop} (orders : Orders entries used le)
include orders

lemma fields : (∀ i ∈ used, i ∈ (entries i).ancestors) ∧
  (∀ i ∈ used, (entries i).ancestors ⊆ used) ∧
  (∀ i ∈ used, ∀ j ∈ (entries i).ancestors, (entries j).ancestors ⊆ (entries i).ancestors) ∧
  (∀ i ∈ used, (entries i).descendants ⊆ used) ∧
  ∀ i ∈ used, ∀ j ∈ used, j ∈ (entries i).descendants ↔ i ∈ (entries j).ancestors := by
  obtain ⟨refl, trans, -, ancestors, descendants⟩ := orders
  refine ⟨?_, ?_, ?_, ?_, ?_⟩ <;> grind

end Orders

namespace DepGraph

variable {i p : ℕ}

def empty : DepGraph where
  entries _ := ⟨FeeFrac.empty, ∅, ∅⟩
  used := ∅
  self := by simp
  inUse := by simp
  trans := by simp
  inUse' := by simp
  converse := by simp

variable (graph : DepGraph)

def positions : Finset ℕ := graph.used

def feerate (i : ℕ) : FeeFrac := (graph.entries i).feerate

def ancestors (i : ℕ) : Finset ℕ := (graph.entries i).ancestors

def descendants (i : ℕ) : Finset ℕ := (graph.entries i).descendants

/-- The first position that is not in use. -/
def available : ℕ := ((List.range (graph.used.card + 1)).filter (· ∉ graph.used)).headD 0

lemma available_notMem : graph.available ∉ graph.used := by
  obtain ⟨i, hi, free⟩ := Finset.exists_mem_notMem_of_card_lt_card (s := graph.used)
    (t := Finset.range (graph.used.card + 1)) (by simp)
  have listed : i ∈ (range (graph.used.card + 1)).filter (· ∉ graph.used) := by
    simpa [free] using hi
  obtain ⟨first, rest, eq⟩ := exists_cons_of_ne_nil (ne_nil_of_mem listed)
  rw [available, eq, headD_cons]
  exact of_decide_eq_true (mem_filter.mp (eq ▸ mem_cons_self : first ∈ _)).2

/-- The order of a graph. -/
def Le (a b : ℕ) : Prop := a = b ∨ b ∈ graph.used ∧ a ∈ graph.ancestors b

lemma orders : Orders graph.entries graph.used graph.Le := by
  obtain ⟨entries, used, self, inUse, trans, inUse', converse⟩ := graph
  constructor <;> grind [Le, DepGraph.ancestors]

lemma orders_insert (feefrac : FeeFrac) : Orders (update graph.entries graph.available
  ⟨feefrac, {graph.available}, {graph.available}⟩) (insert graph.available graph.used) graph.Le := by
  have free := graph.available_notMem
  obtain ⟨refl, trans, inUse, ancestors, descendants⟩ := graph.orders
  generalize graph.available = new at free
  constructor <;> grind

/-- Add a new unconnected transaction, in the first available position. -/
def addTransaction (feefrac : FeeFrac) : DepGraph where
  entries := update graph.entries graph.available
    ⟨feefrac, {graph.available}, {graph.available}⟩
  used := insert graph.available graph.used
  self := (graph.orders_insert feefrac).fields.1
  inUse := (graph.orders_insert feefrac).fields.2.1
  trans := (graph.orders_insert feefrac).fields.2.2.1
  inUse' := (graph.orders_insert feefrac).fields.2.2.2.1
  converse := (graph.orders_insert feefrac).fields.2.2.2.2

lemma orders_sdiff (del : Finset ℕ) : Orders (fun i => ⟨(graph.entries i).feerate,
  (graph.entries i).ancestors ∩ (graph.used \ del),
  (graph.entries i).descendants ∩ (graph.used \ del)⟩) (graph.used \ del)
  fun a b => a = b ∨ graph.Le a b ∧ a ∉ del ∧ b ∉ del := by
  obtain ⟨refl, trans, inUse, ancestors, descendants⟩ := graph.orders
  constructor <;> grind

/-- Remove the given positions, and dependencies with them. -/
def removeTransactions (del : Finset ℕ) : DepGraph where
  entries i := ⟨(graph.entries i).feerate, (graph.entries i).ancestors ∩ (graph.used \ del),
    (graph.entries i).descendants ∩ (graph.used \ del)⟩
  used := graph.used \ del
  self := (graph.orders_sdiff del).fields.1
  inUse := (graph.orders_sdiff del).fields.2.1
  trans := (graph.orders_sdiff del).fields.2.2.1
  inUse' := (graph.orders_sdiff del).fields.2.2.2.1
  converse := (graph.orders_sdiff del).fields.2.2.2.2

/-- The ancestors of the parents that are not already ancestors of the child. -/
def newAncestors (parents : Finset ℕ) (child : ℕ) : Finset ℕ :=
  (parents \ graph.ancestors child).biUnion graph.ancestors \ graph.ancestors child

lemma orders_link {parents : Finset ℕ} {child : ℕ} (memC : child ∈ graph.used)
  (memP : parents ⊆ graph.used) : Orders (fun i => ⟨(graph.entries i).feerate,
    if i ∈ graph.descendants child
      then (graph.entries i).ancestors ∪ graph.newAncestors parents child
      else (graph.entries i).ancestors, if i ∈ graph.newAncestors parents child
      then (graph.entries i).descendants ∪ graph.descendants child
      else (graph.entries i).descendants⟩) graph.used
    fun a b => graph.Le a b ∨ (∃ p ∈ parents, graph.Le a p) ∧ graph.Le child b := by
  obtain ⟨refl, trans, inUse, ancestors, descendants⟩ := graph.orders
  have new : ∀ i, i ∈ graph.newAncestors parents child ↔
    i ∈ graph.used ∧ (∃ p ∈ parents, graph.Le i p) ∧ ¬ graph.Le i child := by
    intro i
    simp only [newAncestors, DepGraph.ancestors, Finset.mem_sdiff, Finset.mem_biUnion]
    grind
  have below : ∀ i, i ∈ graph.descendants child ↔ i ∈ graph.used ∧ graph.Le child i :=
    descendants child memC
  constructor <;> grind

/-- Add parents to a child; both must be in use. -/
def addDependencies (parents : Finset ℕ) (child : ℕ) (memC : child ∈ graph.used)
  (memP : parents ⊆ graph.used) : DepGraph where
  entries i := ⟨(graph.entries i).feerate,
    if i ∈ graph.descendants child
      then (graph.entries i).ancestors ∪ graph.newAncestors parents child
      else (graph.entries i).ancestors,
    if i ∈ graph.newAncestors parents child
      then (graph.entries i).descendants ∪ graph.descendants child
      else (graph.entries i).descendants⟩
  used := graph.used
  self := (graph.orders_link memC memP).fields.1
  inUse := (graph.orders_link memC memP).fields.2.1
  trans := (graph.orders_link memC memP).fields.2.2.1
  inUse' := (graph.orders_link memC memP).fields.2.2.2.1
  converse := (graph.orders_link memC memP).fields.2.2.2.2

/-- The parents of a transaction, without those that are ancestors of another one. -/
def getReducedParents (i : ℕ) : Finset ℕ :=
  let parents := (graph.ancestors i).erase i
  (ascending parents).foldl
    (fun parents parent =>
      if parent ∈ parents then insert parent (parents \ graph.ancestors parent) else parents)
    parents

/-- The aggregate feerate of a set of transactions. -/
def feeRate (elems : Finset ℕ) : FeeFrac :=
  (ascending elems).foldl (fun ret pos => ret + graph.feerate pos) FeeFrac.empty

def isAcyclic : Bool :=
  (ascending graph.positions).all fun i => graph.ancestors i ∩ graph.descendants i == {i}

variable {graph}

lemma feeRate_eq (elems : Finset ℕ) : graph.feeRate elems =
  ⟨∑ i ∈ elems, (graph.feerate i).fee, ∑ i ∈ elems, (graph.feerate i).size⟩ := by
  have fold : ∀ (l : List ℕ) (start : FeeFrac),
    l.foldl (fun ret pos => ret + graph.feerate pos) start =
      ⟨start.fee + (l.map fun i => (graph.feerate i).fee).sum,
        start.size + (l.map fun i => (graph.feerate i).size).sum⟩ := by
    intro l
    induction l with
    | nil => simp
    | cons i l ih =>
      intro start
      rw [foldl_cons, ih]
      simp only [add_fee, add_size, map_cons, sum_cons, add_assoc]
  rw [feeRate, fold, sum_ascending, sum_ascending]
  simp [FeeFrac.empty]

/-- Going through the parents removes none that is needed to reach an ancestor. -/
lemma reduced_cover (i : ℕ) (mem : i ∈ graph.used) :
  graph.getReducedParents i ⊆ (graph.ancestors i).erase i ∧
    ∀ a ∈ (graph.ancestors i).erase i, ∃ p ∈ graph.getReducedParents i, a ∈ graph.ancestors p := by
  refine foldlRecOn (motive := fun parents => parents ⊆ (graph.ancestors i).erase i ∧
    ∀ a ∈ (graph.ancestors i).erase i, ∃ p ∈ parents, a ∈ graph.ancestors p) _ _
    ⟨Finset.Subset.refl _, fun a ha => ⟨a, ha, ?_⟩⟩ fun parents ⟨sub, cover⟩ parent _ => ?_
  · exact graph.self a (graph.inUse i mem (Finset.mem_of_mem_erase ha))
  split_ifs with isIn
  · refine ⟨Finset.insert_subset (sub isIn) (Finset.sdiff_subset.trans sub), fun a ha => ?_⟩
    obtain ⟨p, hp, reaches⟩ := cover a ha
    by_cases covered : p ∈ graph.ancestors parent
    · have used := graph.inUse i mem (Finset.mem_of_mem_erase (sub isIn))
      exact ⟨parent, Finset.mem_insert_self _ _, graph.trans parent used p covered reaches⟩
    · exact ⟨p, Finset.mem_insert_of_mem (Finset.mem_sdiff.mpr ⟨hp, covered⟩), reaches⟩
  · exact ⟨sub, cover⟩

lemma parent_ancestor (mem : i ∈ graph.used) (hp : p ∈ graph.getReducedParents i) :
  p ∈ graph.ancestors i ∧ p ≠ i := by
  have inside := (reduced_cover i mem).1 hp
  exact ⟨Finset.mem_of_mem_erase inside, Finset.ne_of_mem_erase inside⟩

lemma ancestor_eq_of_isAcyclic (hac : graph.isAcyclic = true) {j : ℕ} (mi : i ∈ graph.used)
  (mj : j ∈ graph.used) (ha : i ∈ graph.ancestors j) (ha' : j ∈ graph.ancestors i) : i = j := by
  rw [isAcyclic, all_eq_true] at hac
  have only : graph.ancestors j ∩ graph.descendants j = {j} := by
    simpa using hac j (mem_ascending.mpr mj)
  have both : i ∈ graph.ancestors j ∩ graph.descendants j :=
    Finset.mem_inter.mpr ⟨ha, (graph.converse j mj i mi).mpr ha'⟩
  rw [only] at both
  exact Finset.mem_singleton.mp both

/-- In an acyclic graph, a transaction has more ancestors than each of its parents. -/
lemma card_ancestors_lt (hac : graph.isAcyclic = true) (mi : i ∈ graph.used)
  (hp : p ∈ graph.getReducedParents i) : (graph.ancestors p).card < (graph.ancestors i).card := by
  obtain ⟨ha, ne⟩ := parent_ancestor mi hp
  have mp := graph.inUse i mi ha
  apply Finset.card_lt_card
  have sub : graph.ancestors p ⊆ graph.ancestors i := graph.trans i mi p ha
  rw [Finset.ssubset_iff_of_subset sub]
  refine ⟨i, graph.self i mi, fun ha' => ne ?_⟩
  exact ancestor_eq_of_isAcyclic hac mp mi ha ha'

section

inductive Call where
  | addTransaction (feefrac : FeeFrac)
  | addDependencies (parents : Finset ℕ) (child : ℕ)
  | removeTransactions (del : Finset ℕ)

/-- A call, where the positions it names are in use. -/
def call (graph : DepGraph) : Call → Option DepGraph
  | .addTransaction feefrac => some (graph.addTransaction feefrac)
  | .addDependencies parents child =>
    if mem : child ∈ graph.used ∧ parents ⊆ graph.used then
      some (graph.addDependencies parents child mem.1 mem.2)
    else none
  | .removeTransactions del => some (graph.removeTransactions del)

/-- What a call does to the order: new dependencies are closed under transitivity, and what was
reached through a removed transaction still is. -/
def Call.close (le : ℕ → ℕ → Prop) : Call → ℕ → ℕ → Prop
  | .addTransaction _ => le
  | .addDependencies parents child =>
    Relation.ReflTransGen fun a b => le a b ∨ a ∈ parents ∧ b = child
  | .removeTransactions del => fun a b => a = b ∨ le a b ∧ a ∉ del ∧ b ∉ del

variable {graph' : DepGraph} {le : ℕ → ℕ → Prop}

lemma le_eq (orders : Orders graph.entries graph.used le) : le = graph.Le := by
  obtain ⟨refl, -, inUse, ancestors, -⟩ := orders
  funext a b
  have := ancestors b
  rw [Le, DepGraph.ancestors]
  grind

/-- A path through the new dependencies uses one of them. -/
lemma close_link (refl : ∀ a, le a a) (trans : ∀ a b c, le a b → le b c → le a c)
  (parents : Finset ℕ) (child : ℕ) : (Call.addDependencies parents child).close le =
    fun a b => le a b ∨ (∃ p ∈ parents, le a p) ∧ le child b := by
  funext a b
  refine propext ⟨fun path => ?_, ?_⟩
  · induction path with
    | refl => exact .inl (refl a)
    | tail _ edge ih => grind
  · rintro (old | ⟨⟨p, hp, above⟩, below⟩)
    · exact .single (.inl old)
    · exact .head (.inl above) (.head (.inr ⟨hp, rfl⟩) (.single (.inl below)))

lemma call_orders {c : Call} (orders : Orders graph.entries graph.used le)
  (hc : graph.call c = some graph') : Orders graph'.entries graph'.used (c.close le) := by
  obtain rfl := le_eq orders
  cases c with
  | addTransaction feefrac =>
    cases hc
    exact graph.orders_insert feefrac
  | removeTransactions del =>
    cases hc
    exact graph.orders_sdiff del
  | addDependencies parents child =>
    rw [call] at hc
    split at hc
    case isFalse => cases hc
    case isTrue mem =>
    cases hc
    rw [close_link orders.refl orders.trans]
    exact graph.orders_link mem.1 mem.2

lemma isAcyclic_iff (orders : Orders graph.entries graph.used le) :
  graph.isAcyclic = true ↔ ∀ a b, le a b → le b a → a = b := by
  obtain ⟨refl, -, inUse, ancestors, descendants⟩ := orders
  simp only [isAcyclic, positions, DepGraph.ancestors, DepGraph.descendants, all_eq_true,
    mem_ascending, beq_iff_eq, Finset.ext_iff, Finset.mem_inter, Finset.mem_singleton]
  grind

/-- The ancestors and descendants after any calls are those of the order that the calls build, and
`IsAcyclic` says whether it is a partial one. -/
theorem calls_orders (calls : List Call) (runs : calls.foldlM call empty = some graph) :
  Orders graph.entries graph.used (calls.foldl Call.close Eq) ∧ (graph.isAcyclic = true ↔
    ∀ a b, calls.foldl Call.close Eq a b → calls.foldl Call.close Eq b a → a = b) := by
  suffices orders : Orders graph.entries graph.used (calls.foldl Call.close Eq) from
    ⟨orders, isAcyclic_iff orders⟩
  have start : Orders empty.entries empty.used Eq := by
    constructor <;> simp +contextual [empty]
  generalize empty = graph₀, (Eq : ℕ → ℕ → Prop) = le at start runs
  induction calls generalizing graph₀ le with
  | nil =>
    cases runs
    exact start
  | cons c calls ih =>
    obtain ⟨next, hc, runs⟩ := Option.bind_eq_some_iff.mp runs
    exact ih _ _ (call_orders start hc) runs

def grandparent : List Call := [.addTransaction ⟨1, 1⟩, .addTransaction ⟨1, 1⟩,
  .addTransaction ⟨1, 1⟩, .addDependencies {0} 1, .addDependencies {1} 2, .removeTransactions {1}]

theorem calls_orders_grandparent : ∃ graph, grandparent.foldlM call empty = some graph ∧
  Orders graph.entries graph.used (grandparent.foldl Call.close Eq) :=
  ⟨_, rfl, (calls_orders grandparent rfl).1⟩

end

/-- No reduced parent is an ancestor of another one. -/
lemma reduced_apart (mem : i ∈ graph.used) {q : ℕ} (hp : p ∈ graph.getReducedParents i)
  (hq : q ∈ graph.getReducedParents i) (ha : p ∈ graph.ancestors q) : p = q := by
  have apart : ∀ q ∈ ascending ((graph.ancestors i).erase i), q ∈ graph.getReducedParents i →
    ∀ p ∈ graph.getReducedParents i, p ∈ graph.ancestors q → p = q :=
    foldl_inv (fun done parents => ∀ q ∈ done, q ∈ parents → ∀ p ∈ parents,
      p ∈ graph.ancestors q → p = q) (by simp) (by grind)
  exact apart q (mem_ascending.mpr ((reduced_cover i mem).1 hq)) hq p hp ha

/-- The sets of other transactions that have, with a transaction, all of its ancestors. -/
def spanning (graph : DepGraph) (i : ℕ) : Set (Finset ℕ) := {parents |
  parents ⊆ graph.used.erase i ∧ insert i (parents.biUnion graph.ancestors) = graph.ancestors i}

/-- The reduced parents of a transaction are needed in every set that spans its ancestors. -/
theorem getReducedParents_isLeast (hac : graph.isAcyclic = true) (mem : i ∈ graph.used) :
  IsLeast (graph.spanning i) (graph.getReducedParents i) := by
  obtain ⟨sub, cover⟩ := reduced_cover i mem
  have inUse := graph.inUse i mem
  refine ⟨⟨sub.trans (Finset.erase_subset_erase i inUse), ?_⟩, ?_⟩
  · ext a
    have below : ∀ p ∈ graph.getReducedParents i, graph.ancestors p ⊆ graph.ancestors i :=
      fun p hp => graph.trans i mem p (parent_ancestor mem hp).1
    have self : i ∈ graph.ancestors i := graph.self i mem
    have := cover a
    grind
  · rintro parents ⟨other, spans⟩ p hp
    obtain ⟨hpa, ne⟩ := parent_ancestor mem hp
    rw [← spans] at hpa
    obtain ⟨q, hq, hpq⟩ := Finset.mem_biUnion.mp (Finset.mem_of_mem_insert_of_ne hpa ne)
    obtain ⟨nq, uq⟩ := Finset.mem_erase.mp (other hq)
    have haq : q ∈ graph.ancestors i := by
      rw [← spans]
      exact Finset.mem_insert_of_mem (Finset.mem_biUnion.mpr ⟨q, hq, graph.self q uq⟩)
    obtain ⟨r, hr, hqr⟩ := cover q (Finset.mem_erase.mpr ⟨nq, haq⟩)
    have ur := inUse (parent_ancestor mem hr).1
    obtain rfl := reduced_apart mem hp hr (graph.trans r ur q hqr hpq)
    obtain rfl := ancestor_eq_of_isAcyclic hac ur uq hpq hqr
    exact hq

theorem getReducedParents_isLeast_chain : ∃ graph, (grandparent.take 5).foldlM call empty = some graph ∧
  IsLeast (graph.spanning 2) (graph.getReducedParents 2) :=
  ⟨_, rfl, getReducedParents_isLeast (by decide) (by decide)⟩

open Relation (ReflTransGen)

variable {todo ret toAdd : Finset ℕ} {tx : ℕ}

/-- A round of `GetConnectedComponent`: what is related to a transaction of `toAdd` joins. -/
def grow (graph : DepGraph) (todo ret toAdd : Finset ℕ) : Finset ℕ :=
  (ret ∪ toAdd.biUnion fun add => graph.descendants add ∪ graph.ancestors add) ∩ todo

def componentLoop (graph : DepGraph) (todo ret toAdd : Finset ℕ) : Finset ℕ :=
  if graph.grow todo ret toAdd \ ret = ∅ then graph.grow todo ret toAdd
  else graph.componentLoop todo (graph.grow todo ret toAdd) (graph.grow todo ret toAdd \ ret)
termination_by (todo \ ret).card
decreasing_by
  rename_i more
  obtain ⟨x, hx⟩ := Finset.nonempty_iff_ne_empty.mpr more
  exact Finset.card_lt_card (Finset.ssubset_iff.mpr ⟨x, by grind [grow], by grind [grow]⟩)

def getConnectedComponent (graph : DepGraph) (todo : Finset ℕ) (tx : ℕ) : Finset ℕ :=
  graph.componentLoop todo ∅ {tx}

def findConnectedComponent (graph : DepGraph) (todo : Finset ℕ) : Finset ℕ :=
  match first todo with
  | none => todo
  | some tx => graph.getConnectedComponent todo tx

def isConnected (graph : DepGraph) (subset : Finset ℕ) : Bool :=
  graph.findConnectedComponent subset == subset

def Linked (graph : DepGraph) (todo : Finset ℕ) (a b : ℕ) : Prop :=
  a ∈ todo ∧ b ∈ todo ∧ (a ∈ graph.ancestors b ∨ b ∈ graph.ancestors a)

/-- What the rounds keep: only what is in `toAdd` may have links that lead out of `ret`. -/
structure Growing (graph : DepGraph) (todo : Finset ℕ) (tx : ℕ) (ret toAdd : Finset ℕ) : Prop where
  sub : ret ∪ toAdd ⊆ todo
  start : tx ∈ ret ∪ toAdd
  reached : ∀ a ∈ ret ∪ toAdd, ReflTransGen (graph.Linked todo) tx a
  closed : ∀ a ∈ ret \ toAdd, ∀ b, graph.Linked todo a b → b ∈ ret

lemma Growing.round (used : todo ⊆ graph.used) (growing : Growing graph todo tx ret toAdd) :
  Growing graph todo tx (graph.grow todo ret toAdd) (graph.grow todo ret toAdd \ ret) := by
  obtain ⟨sub, start, reached, closed⟩ := growing
  have mem : ∀ x, x ∈ graph.grow todo ret toAdd ↔ x ∈ ret ∨ ∃ y ∈ toAdd, graph.Linked todo y x := by
    intro x
    have := graph.converse
    simp only [grow, Finset.mem_inter, Finset.mem_union, Finset.mem_biUnion, Linked]
    grind [descendants, ancestors]
  have self : ∀ y ∈ toAdd, graph.Linked todo y y := fun y hy => by
    have := graph.self y
    grind [Linked, ancestors]
  refine ⟨by grind [Linked], by grind, fun a ha => ?_, by grind⟩
  obtain ha | ⟨y, hy, link⟩ := (mem a).mp (by grind)
  · exact reached a (by grind)
  · exact (reached y (by grind)).tail link

lemma mem_componentLoop (used : todo ⊆ graph.used) (growing : Growing graph todo tx ret toAdd) (a : ℕ) :
  a ∈ graph.componentLoop todo ret toAdd ↔ ReflTransGen (graph.Linked todo) tx a := by
  induction ret, toAdd using componentLoop.induct graph todo with
  | case1 ret toAdd none =>
    obtain ⟨-, start, reached, closed⟩ := growing.round used
    rw [componentLoop, if_pos none]
    refine ⟨fun ha => reached a (by grind), fun path => ?_⟩
    induction path with
    | refl => grind
    | tail _ link ih => exact closed _ (by grind) _ link
  | case2 ret toAdd more ih =>
    rw [componentLoop, if_neg more]
    exact ih (growing.round used)

/-- A component is what links within `todo` lead to, and a connected set is one component. -/
theorem connected (used : todo ⊆ graph.used) (htx : tx ∈ todo) :
  (∀ a, a ∈ graph.getConnectedComponent todo tx ↔ ReflTransGen (graph.Linked todo) tx a) ∧
    (graph.isConnected todo = true ↔
      ∀ a ∈ todo, ∀ b ∈ todo, ReflTransGen (graph.Linked todo) a b) := by
  have component : ∀ tx ∈ todo, ∀ a, a ∈ graph.getConnectedComponent todo tx ↔
    ReflTransGen (graph.Linked todo) tx a := fun tx htx =>
    mem_componentLoop used ⟨by simpa, by simp, by simp [ReflTransGen.refl], by simp⟩
  refine ⟨component tx htx, ?_⟩
  obtain ⟨first', hf⟩ := Option.ne_none_iff_exists'.mp
    (mt first_eq_none.mp (Finset.ne_empty_of_mem htx))
  have mem := mem_of_first hf
  have symm : Std.Symm (graph.Linked todo) := ⟨fun _ _ link => ⟨link.2.1, link.1, link.2.2.symm⟩⟩
  simp only [isConnected, findConnectedComponent, hf, beq_iff_eq, Finset.ext_iff, component first' mem]
  constructor
  · intro all a ha b hb
    exact (ReflTransGen.stdSymm.symm _ _ ((all a).mpr ha)).trans ((all b).mpr hb)
  · refine fun all a => ⟨fun path => ?_, all first' mem a⟩
    cases path with
    | refl => exact mem
    | tail _ link => exact link.2.1

theorem connected_chain : ∃ graph, (grandparent.take 5).foldlM call empty = some graph ∧
  ∀ a, a ∈ graph.getConnectedComponent {0, 2} 2 ↔ ReflTransGen (graph.Linked {0, 2}) 2 a :=
  ⟨_, rfl, (connected (by decide) (by decide)).1⟩

end DepGraph

/-- A set of transactions together with their aggregate feerate. -/
structure SetInfo where
  transactions : Finset ℕ
  feerate : FeeFrac
  deriving DecidableEq

open SetInfo

namespace SetInfo

def empty : SetInfo := ⟨∅, FeeFrac.empty⟩

def single (graph : DepGraph) (pos : ℕ) : SetInfo := ⟨{pos}, graph.feerate pos⟩

/-- `a |= b`, without overlap -/
def union (a b : SetInfo) : SetInfo := ⟨a.transactions ∪ b.transactions, a.feerate + b.feerate⟩

/-- `a -= b`, a subset -/
def sdiff (a b : SetInfo) : SetInfo := ⟨a.transactions \ b.transactions, a.feerate - b.feerate⟩

end SetInfo

/-- Add a chunk to the chunks so far, the last of them first: as long as it has a higher feerate
than the last chunk, it absorbs it. -/
def absorb (new : SetInfo) : List SetInfo → List SetInfo
  | [] => [new]
  | last :: rest =>
    if new.feerate.higherFeeRate last.feerate then absorb (new.union last) rest
    else new :: last :: rest

/-- The chunks of a linearization. -/
def chunkLinearizationInfo (graph : DepGraph) (linearization : List ℕ) : List SetInfo :=
  (linearization.foldl (fun ret i => absorb (SetInfo.single graph i) ret) []).reverse

def absorbFeerate (new : FeeFrac) : List FeeFrac → List FeeFrac
  | [] => [new]
  | last :: rest =>
    if new.higherFeeRate last then absorbFeerate (new + last) rest else new :: last :: rest

/-- The feerates of the chunks of a linearization. -/
def chunkLinearization (graph : DepGraph) (linearization : List ℕ) : List FeeFrac :=
  (linearization.foldl (fun ret i => absorbFeerate (graph.feerate i) ret) []).reverse

lemma absorb_feerate (new : SetInfo) (chunks : List SetInfo) : (absorb new chunks).map feerate =
    absorbFeerate new.feerate (chunks.map feerate) := by
  induction chunks generalizing new with
  | nil => rfl
  | cons last rest ih =>
    simp only [absorb, absorbFeerate, map_cons]
    split_ifs
    · exact ih _
    · rfl

lemma chunkLinearization_eq (G : DepGraph) (linearization : List ℕ) :
  chunkLinearization G linearization = (chunkLinearizationInfo G linearization).map feerate := by
  have fold : ∀ (l : List ℕ) (chunks : List SetInfo),
    (l.foldl (fun ret i => absorb (single G i) ret) chunks).map feerate =
      l.foldl (fun ret i => absorbFeerate (G.feerate i) ret) (chunks.map feerate) := by
    intro l
    induction l with
    | nil => exact fun _ => rfl
    | cons i l ih =>
      intro chunks
      rw [foldl_cons, foldl_cons, ih, absorb_feerate]
      rfl
  rw [chunkLinearization, chunkLinearizationInfo, map_reverse, fold]
  rfl

end ClusterLinearize
