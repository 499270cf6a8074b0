import Andaluzcoin.CutForest
import Andaluzcoin.RatedLattice

/-!
# Forests that certify the rates of their parts

A forest of dependencies with no top set of a higher rate than its part certifies that no closed
subset of a part has a higher rate: what a closed subset is worth is what leaves it along the
edges. A closed subset of the same rate is left by edges with a top set of that rate only, one of
which has a given vertex of the subset in its top set.
-/

namespace RatedParts

open CutForest Finset Network

universe u

variable {V : Type u} [DecidableEq V]

/-- Every edge is a dependency, and no top set has a higher rate than its part. -/
structure Certified (N : Network V) (F : Cuts V) : Prop where
  span : Spanning N.vertices F
  deps : ∀ e ∈ F.edges, N.dep e.1 e.2
  tops : ∀ e ∈ F.edges, N.weight (N.rate (F.part e.1)) (F.top e) ≤ 0

/-- No closed proper subset with the vertex in it, or looking down with the vertex outside, has
the rate of the set. -/
def Network.Unsplit (N : Network V) (C : Finset V) (v : V) (down : Bool) : Prop :=
  ∀ S, N.ClosedIn C S → S.Nonempty → S ≠ C → (v ∈ S ↔ down = false) → N.weight (N.rate C) S < 0

variable {N : Network V} {F : Cuts V} {x v u : V} {S : Finset V}

omit [DecidableEq V] in
lemma Network.Unsplit.minimal {C : Finset V} {down : Bool} (first : N.Unsplit C v down)
  (hs : N.Unsplit C v (!down)) : N.Minimal C := by
  intro S hc nonempty hp
  by_cases side : v ∈ S ↔ down = false
  · exact first S hc nonempty hp side
  · refine hs S hc nonempty hp ?_
    cases down <;> simp_all

namespace Certified

section
variable (cert : Certified N F) {e : V × V}
include cert

variable (mx : x ∈ N.vertices)
include mx

lemma edge_mem (hc : N.ClosedIn (F.part x) S) (me : e ∈ F.edges) (inS : e.2 ∈ S) : e.1 ∈ S := by
  have first := (cert.span.first e me).1
  have inner := (cert.span.second e me).1
  refine hc.2 e.1 e.2 (cert.deps e me) inS ?_
  rw [← cert.span.part_eq first mx inner (hc.1 inS)]
  exact cert.span.self e.1 first

/-- A closed subset is worth what leaves it. -/
lemma weight_closed (hc : N.ClosedIn (F.part x) S) :
  N.weight (N.rate (F.part x)) S = ∑ e ∈ F.edges.filter (fun e => e.1 ∈ S ∧ e.2 ∉ S),
    N.weight (N.rate (F.part x)) (F.top e) :=
  cert.span.flow_closed _ mx (weight_rate (cert.span.sub x mx) ⟨x, cert.span.self x mx⟩) hc.1
    fun _ me => cert.edge_mem mx hc me

lemma leaving_le (me : e ∈ F.edges)
  (inX : e.1 ∈ F.part x) : N.weight (N.rate (F.part x)) (F.top e) ≤ 0 := by
  have low := cert.tops e me
  rwa [cert.span.same x mx e.1 inX] at low

/-- From a vertex inside to one outside there is an edge that leaves the subset. -/
lemma exists_leaving
  (hc : N.ClosedIn (F.part x) S) (inS : v ∈ S) (inX : u ∈ F.part x) (out : u ∉ S) :
  ∃ e ∈ F.edges, e.1 ∈ S ∧ e.2 ∉ S ∧ v ∈ F.top e ∧ u ∉ F.top e := by
  -- one unit flows from the first vertex to the second
  let w : V → ℤ := fun t => (if t = v then 1 else 0) - (if t = u then 1 else 0)
  have total : ∀ T : Finset V,
    ∑ t ∈ T, w t = (if v ∈ T then 1 else 0) - (if u ∈ T then 1 else 0) := by
    intro T
    rw [sum_sub_distrib, sum_ite_eq', sum_ite_eq']
  have zero : ∑ t ∈ F.part x, w t = 0 := by
    rw [total, if_pos (hc.1 inS), if_pos inX, sub_self]
  have flow := cert.span.flow_closed w mx zero hc.1 fun _ me => cert.edge_mem mx hc me
  rw [total, if_pos inS, if_neg out] at flow
  by_contra none_
  have nonpos : ∑ e ∈ F.edges.filter (fun e => e.1 ∈ S ∧ e.2 ∉ S), ∑ t ∈ F.top e, w t ≤ 0 := by
    refine sum_nonpos fun e me => ?_
    obtain ⟨me, first, hs⟩ := mem_filter.mp me
    rw [total]
    split_ifs with inTop inTop'
    · simp
    · exact absurd ⟨e, me, first, hs, inTop, inTop'⟩ none_
    · simp
    · simp
  omega

/-- A leaving edge with a top set of lower rate makes the subset one of lower rate. -/
lemma weight_neg (hc : N.ClosedIn (F.part x) S) (me : e ∈ F.edges) (inS : e.1 ∈ S)
  (out : e.2 ∉ S) (low : N.weight (N.rate (F.part x)) (F.top e) < 0) :
  N.weight (N.rate (F.part x)) S < 0 := by
  rw [cert.weight_closed mx hc]
  refine sum_neg' (fun d md => ?_) ⟨e, mem_filter.mpr ⟨me, inS, out⟩, low⟩
  obtain ⟨md, inS', -⟩ := mem_filter.mp md
  exact cert.leaving_le mx md (hc.1 inS')

end

lemma exists_outside (hc : N.ClosedIn (F.part x) S) (hp : S ≠ F.part x) : ∃ u ∈ F.part x, u ∉ S :=
  exists_of_ssubset (hc.1.ssubset_of_ne hp)

variable (cert : Certified N F)
include cert

/-- A part in which all top sets have a lower rate is minimal. -/
theorem minimal (mx : x ∈ N.vertices)
  (low : ∀ e ∈ F.edges, e.1 ∈ F.part x → N.weight (N.rate (F.part x)) (F.top e) < 0) :
  N.Minimal (F.part x) := by
  intro S hc nonempty hp
  obtain ⟨v, inS⟩ := nonempty
  obtain ⟨u, inX, out⟩ := exists_outside hc hp
  obtain ⟨e, me, first, hs, -⟩ := cert.exists_leaving mx hc inS inX out
  exact cert.weight_neg mx hc me first hs (low e me (hc.1 first))

/-- Where the top sets on one side of a vertex have a lower rate, so have the subsets on that
side. -/
theorem unsplit (mx : x ∈ N.vertices) (inX : v ∈ F.part x) {down : Bool}
  (low : ∀ e ∈ F.edges, e.1 ∈ F.part x → (v ∈ F.top e ↔ down = false) →
    N.weight (N.rate (F.part x)) (F.top e) < 0) : N.Unsplit (F.part x) v down := by
  intro S hc nonempty hp side
  cases down with
  | false =>
    have inS : v ∈ S := side.mpr rfl
    obtain ⟨u, inX', out⟩ := exists_outside hc hp
    obtain ⟨e, me, first, hs, inTop, -⟩ := cert.exists_leaving mx hc inS inX' out
    exact cert.weight_neg mx hc me first hs (low e me (hc.1 first) (iff_of_true inTop rfl))
  | true =>
    have out : v ∉ S := fun inS => by cases side.mp inS
    obtain ⟨u, inS⟩ := nonempty
    obtain ⟨e, me, first, hs, -, ht⟩ := cert.exists_leaving mx hc inS inX out
    exact cert.weight_neg mx hc me first hs (low e me (hc.1 first) (iff_of_false ht (by simp)))

/-- Cutting an edge with a top set of the part's rate. -/
theorem cut {d : V × V} (md : d ∈ F.edges) (he : N.rate (F.top d) = N.rate (F.part d.1))
  (he' : N.rate (F.part d.1 \ F.top d) = N.rate (F.part d.1)) : Certified N (F.cut d) := by
  have span := cert.span
  obtain ⟨first, inTop⟩ := span.first d md
  have within := span.topSub d md
  have subTop := within.trans (span.sub d.1 first)
  have subRest : F.part d.1 \ F.top d ⊆ N.vertices := sdiff_subset.trans (span.sub d.1 first)
  have rest : d.2 ∈ F.part d.1 \ F.top d := mem_sdiff.mpr (span.second d md)
  have zero : N.weight (N.rate (F.part d.1)) (F.top d) = 0 := by
    rw [← he]
    exact weight_rate subTop ⟨d.1, inTop⟩
  have zero' : N.weight (N.rate (F.part d.1)) (F.part d.1 \ F.top d) = 0 := by
    rw [← he']
    exact weight_rate subRest ⟨d.2, rest⟩
  refine ⟨span.cut md, fun e me => cert.deps e (mem_of_mem_erase me), fun e me => ?_⟩
  obtain ⟨ne, me⟩ := mem_erase.mp me
  have low := cert.tops e me
  simp only [Cuts.cut]
  by_cases ht : e.1 ∈ F.top d
  · rw [span.same d.1 first e.1 (within ht)] at low
    simp only [if_pos ht, he]
    split_ifs with leads
    · rw [weight_sdiff (span.beyond_sub_top md me ne ht leads), zero', sub_zero]
      exact low
    · exact low
  by_cases hp : e.1 ∈ F.part d.1
  · rw [span.same d.1 first e.1 hp] at low
    simp only [if_neg ht, if_pos hp, he']
    split_ifs with leads
    · rw [weight_sdiff (span.top_sub_top md me ne hp ht leads), zero, sub_zero]
      exact low
    · exact low
  · simp only [if_neg ht, if_neg hp]
    exact low

theorem join {p c : V} (isDep : N.dep p c) (ha : c ∉ F.part p)
  (he : N.rate (F.part p) = N.rate (F.part c)) : Certified N (F.join p c) := by
  have span := cert.span
  obtain ⟨memP, memC⟩ := N.inside p c isDep
  have ends : Joinable N.vertices F p c := ⟨span, memP, memC, ha⟩
  have disjoint := disjoint_left.mpr ends.disjoint
  set r := N.rate (F.part c) with isR
  have zeroP : N.weight r (F.part p) = 0 := by
    rw [← he]
    exact weight_rate (span.sub p memP) ⟨p, span.self p memP⟩
  have zeroC := weight_rate (span.sub c memC) ⟨c, span.self c memC⟩
  have rate : N.rate (F.part p ∪ F.part c) = r := by
    have sub := union_subset (span.sub p memP) (span.sub c memC)
    have nonempty : (F.part p ∪ F.part c).Nonempty := ⟨p, ends.upper⟩
    have zero : N.weight r (F.part p ∪ F.part c) = 0 := by
      rw [weight_union disjoint, zeroP, zeroC, add_zero]
    exact (weight_eq_zero sub nonempty).mp zero
  refine ⟨ends.join, fun e me => ?_, fun e me => ?_⟩
  · rcases mem_insert.mp me with rfl | old
    · exact isDep
    · exact cert.deps e old
  rcases mem_insert.mp me with rfl | old
  · rw [join_part ends.upper, rate, join_top_new, zeroP]
  have low := cert.tops e old
  have within := span.topSub e old
  by_cases inP : e.1 ∈ F.part p
  · rw [span.same p memP e.1 inP] at low within
    rw [he] at low
    rw [join_part (mem_union_left _ inP), rate]
    simp only [Cuts.join, if_neg (ends.fresh old), if_pos inP]
    split_ifs
    · rw [weight_union (disjoint.mono_left within), zeroC, add_zero]
      exact low
    · exact low
  by_cases inC : e.1 ∈ F.part c
  · rw [span.same c memC e.1 inC] at low within
    rw [join_part (mem_union_right _ inC), rate]
    simp only [Cuts.join, if_neg (ends.fresh old), if_neg inP, if_pos inC]
    split_ifs
    · rw [weight_union (disjoint.symm.mono_left within), zeroP, add_zero]
      exact low
    · exact low
  · have out : e.1 ∉ F.part p ∪ F.part c := by
      rw [mem_union, not_or]
      exact ⟨inP, inC⟩
    rw [join_part_away out, ends.top_away old out]
    exact low

lemma congr {G : Cuts V} (agrees : Agrees N.vertices F G) : Certified N G := by
  refine ⟨cert.span.congr agrees, fun e me => ?_, fun e me => ?_⟩
  · rw [← agrees.edges] at me
    exact cert.deps e me
  · rw [← agrees.edges] at me
    rw [← agrees.top e me, ← agrees.part e.1 (cert.span.first e me).1]
    exact cert.tops e me

end Certified

variable {C T : Finset V}

omit [DecidableEq V] in
/-- A subset of a closed top set that is closed in it is closed in the whole set. -/
lemma Network.Unsplit.top (unsplit : N.Unsplit C v true) (hc : N.ClosedIn C T)
  (he : N.rate T = N.rate C) (inT : v ∈ T) : N.Unsplit T v true := by
  intro S hcs nonempty _ side
  rw [he]
  refine unsplit S ⟨hcs.1.trans hc.1, fun p c hd inS inC => ?_⟩ nonempty ?_ side
  · exact hcs.2 p c hd inS (hc.2 p c hd (hcs.1 inS) inC)
  · rintro rfl
    exact absurd (side.mp (hc.1 inT)) (by simp)

/-- A closed subset of the rest makes one of the whole set, with the top set. -/
lemma Network.Unsplit.rest (unsplit : N.Unsplit C v false) (hc : N.ClosedIn C T)
  (hz : N.weight (N.rate C) T = 0) (he : N.rate (C \ T) = N.rate C) :
  N.Unsplit (C \ T) v false := by
  intro S hcs nonempty hp side
  rw [he]
  have disjoint : Disjoint T S :=
    disjoint_left.mpr fun t inT inS => (mem_sdiff.mp (hcs.1 inS)).2 inT
  have whole := unsplit (T ∪ S) ⟨?_, ?_⟩ ?_ ?_ ?_
  · rwa [weight_union disjoint, hz, zero_add] at whole
  · exact union_subset hc.1 (hcs.1.trans sdiff_subset)
  · intro p c hd hi inC
    by_cases inT : p ∈ T
    · exact mem_union_left _ inT
    refine mem_union_right _ ?_
    rcases mem_union.mp hi with top | inS
    · exact absurd (hc.2 p c hd top inC) inT
    · exact hcs.2 p c hd inS (mem_sdiff.mpr ⟨inC, inT⟩)
  · exact nonempty.mono subset_union_right
  · rintro rfl
    refine hp ?_
    rw [union_sdiff_cancel_left disjoint]
  · refine iff_of_true (mem_union_right _ (side.mpr rfl)) rfl

end RatedParts
