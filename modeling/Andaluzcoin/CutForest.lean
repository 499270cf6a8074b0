import Andaluzcoin.RatedParts

/-!
# Forests given by their cuts

A forest on finitely many vertices, kept as its edges, the part of each vertex and, for each
edge, the side of its cut that holds the first end. The sides give the tree structure: two edges
of a part do not cross, and between two vertices of a part exactly one edge at the first leads to
the second. Joining and cutting keep this. A weight that sums to zero over a part is then a flow.
-/

namespace CutForest

open Finset RatedParts

universe u

variable {V : Type u} [DecidableEq V]

structure Cuts (V : Type u) [DecidableEq V] where
  edges : Finset (V × V)
  part : V → Finset V
  top : V × V → Finset V

open Cuts

/-- The vertices lie on different sides of the edge. -/
def Cuts.Separates (F : Cuts V) (e : V × V) (t u : V) : Prop := ¬ (t ∈ F.top e ↔ u ∈ F.top e)

def Incident (e : V × V) (t : V) : Prop := e.1 = t ∨ e.2 = t

structure Spanning (vertices : Finset V) (F : Cuts V) : Prop extends
  Partition vertices F.part where
  first : ∀ e ∈ F.edges, e.1 ∈ vertices ∧ e.1 ∈ F.top e
  second : ∀ e ∈ F.edges, e.2 ∈ F.part e.1 ∧ e.2 ∉ F.top e
  topSub : ∀ e ∈ F.edges, F.top e ⊆ F.part e.1
  aligned : ∀ e ∈ F.edges, ∀ d ∈ F.edges, e ≠ d → d.1 ∈ F.part e.1 →
    (d.1 ∈ F.top e ↔ d.2 ∈ F.top e)
  nested : ∀ e ∈ F.edges, ∀ d ∈ F.edges, e ≠ d → d.1 ∈ F.part e.1 → ∀ t ∈ F.part e.1,
    (t ∈ F.top e ↔ d.1 ∈ F.top e) ∨ (t ∈ F.top d ↔ e.1 ∈ F.top d)
  path : ∀ t ∈ vertices, ∀ u ∈ F.part t, u ≠ t →
    ∃! e, e ∈ F.edges ∧ Incident e t ∧ F.Separates e t u

/-- Two parts joined by an edge from a vertex of the second to one of the first. -/
def Cuts.join (F : Cuts V) (p c : V) : Cuts V where
  edges := insert (p, c) F.edges
  part t := if t ∈ F.part p ∪ F.part c then F.part p ∪ F.part c else F.part t
  top e :=
    if e = (p, c) then F.part p
    else if e.1 ∈ F.part p then (if p ∈ F.top e then F.top e ∪ F.part c else F.top e)
    else if e.1 ∈ F.part c then (if c ∈ F.top e then F.top e ∪ F.part p else F.top e)
    else F.top e

/-- A part cut at one of its edges. -/
def Cuts.cut (F : Cuts V) (d : V × V) : Cuts V where
  edges := F.edges.erase d
  part t :=
    if t ∈ F.top d then F.top d
    else if t ∈ F.part d.1 then F.part d.1 \ F.top d
    else F.part t
  top e :=
    if e.1 ∈ F.top d then (if d.1 ∈ F.top e then F.top e \ (F.part d.1 \ F.top d) else F.top e)
    else if e.1 ∈ F.part d.1 then (if d.2 ∈ F.top e then F.top e \ F.top d else F.top e)
    else F.top e

/-- Every vertex is a part of its own. -/
def Cuts.single (V : Type u) [DecidableEq V] : Cuts V where
  edges := ∅
  part t := {t}
  top _ := ∅

/-- The same forest on these vertices. -/
structure Agrees (vertices : Finset V) (F G : Cuts V) : Prop where
  edges : F.edges = G.edges
  part : ∀ t ∈ vertices, F.part t = G.part t
  top : ∀ e ∈ F.edges, F.top e = G.top e

namespace Spanning

variable {vertices : Finset V} {F : Cuts V}

lemma single : Spanning vertices (Cuts.single V) := by
  refine ⟨⟨?_, ?_, ?_⟩, ?_, ?_, ?_, ?_, ?_, ?_⟩ <;> simp [Cuts.single]

variable (span : Spanning vertices F) {t : V} {e : V × V}
include span

lemma congr {G : Cuts V} (agrees : Agrees vertices F G) : Spanning vertices G := by
  have memF : ∀ {e}, e ∈ G.edges → e ∈ F.edges := fun me => agrees.edges ▸ me
  have vertex : ∀ {e}, e ∈ G.edges → e.1 ∈ vertices := fun me => (span.first _ (memF me)).1
  have part : ∀ {t}, t ∈ vertices → G.part t = F.part t := fun mt => (agrees.part _ mt).symm
  have top : ∀ {e}, e ∈ G.edges → G.top e = F.top e := fun me => (agrees.top _ (memF me)).symm
  constructor
  · exact span.toPartition.congr fun t mt => part mt
  · intro e me
    rw [top me]
    exact span.first e (memF me)
  · intro e me
    rw [top me, part (vertex me)]
    exact span.second e (memF me)
  · intro e me
    rw [top me, part (vertex me)]
    exact span.topSub e (memF me)
  · intro e me d md ne hi
    rw [part (vertex me)] at hi
    rw [top me]
    exact span.aligned e (memF me) d (memF md) ne hi
  · intro e me d md ne hi t inT
    rw [part (vertex me)] at hi inT
    rw [top me, top md]
    exact span.nested e (memF me) d (memF md) ne hi t inT
  · intro t mt u inT ne
    rw [part mt] at inT
    obtain ⟨e, ⟨me, ht, ha⟩, unique⟩ := span.path t mt u inT ne
    have me' : e ∈ G.edges := agrees.edges ▸ me
    refine ⟨e, ⟨me', ht, by rwa [Cuts.Separates, top me']⟩, ?_⟩
    rintro d ⟨md, ht', ha'⟩
    rw [Cuts.Separates, top md] at ha'
    exact unique d ⟨memF md, ht', ha'⟩

lemma incident_part (mt : t ∈ vertices)
  (me : e ∈ F.edges) (ht : Incident e t) : e.1 ∈ F.part t := by
  rcases ht with rfl | rfl
  · exact span.self e.1 mt
  · have first := span.first e me
    exact (span.mem_iff mt first.1).mpr (span.same _ first.1 _ (span.second e me).1).symm

lemma edge_part {x : V} (mx : x ∈ vertices)
  (me : e ∈ F.edges) (inX : e.1 ∈ F.part x) : e.2 ∈ F.part x := by
  have inner := (span.second e me).1
  rwa [span.same x mx _ inX] at inner

end Spanning

/-- Where a part meets a vertex: at itself if it holds the vertex, else at the part's anchor. -/
def meet (F : Cuts V) (x t : V) : V := if t ∈ F.part x then t else x

section
variable {vertices : Finset V} {F : Cuts V} {p c : V} {t x : V}

lemma meet_of_mem (hi : t ∈ F.part x) : meet F x t = t := if_pos hi

lemma meet_of_notMem (ho : t ∉ F.part x) : meet F x t = x := if_neg ho

lemma join_part (hi : t ∈ F.part p ∪ F.part c) :
  (F.join p c).part t = F.part p ∪ F.part c := if_pos hi

lemma join_part_away (ho : t ∉ F.part p ∪ F.part c) : (F.join p c).part t = F.part t := if_neg ho

lemma join_top_new : (F.join p c).top (p, c) = F.part p := by simp [join]

/-- The ends of a new edge, in two different parts. -/
structure Joinable (vertices : Finset V) (F : Cuts V) (p c : V) : Prop where
  span : Spanning vertices F
  memP : p ∈ vertices
  memC : c ∈ vertices
  apart : c ∉ F.part p

namespace Joinable

section
variable (ends : Joinable vertices F p c) {t : V}
include ends

lemma disjoint : ∀ u ∈ F.part p, u ∉ F.part c := by
  intro u inP inC
  exact ends.apart ((ends.span.mem_iff ends.memP ends.memC).mpr
    (ends.span.part_eq ends.memC ends.memP inC inP))

lemma fresh {e : V × V} (me : e ∈ F.edges) : e ≠ (p, c) := by
  rintro rfl
  exact ends.apart (ends.span.second _ me).1

lemma upper : p ∈ F.part p ∪ F.part c := mem_union_left _ (ends.span.self p ends.memP)

lemma lower : c ∈ F.part p ∪ F.part c := mem_union_right _ (ends.span.self c ends.memC)

lemma part_away (mt : t ∈ vertices) (out : t ∉ F.part p ∪ F.part c) {u : V} (hi : u ∈ F.part t) :
  u ∉ F.part p ∪ F.part c := by
  intro isIn
  rcases mem_union.mp isIn with inP | inC
  · exact out (mem_union_left _ ((ends.span.mem_iff ends.memP mt).mpr
      (ends.span.part_eq mt ends.memP hi inP)))
  · exact out (mem_union_right _ ((ends.span.mem_iff ends.memC mt).mpr
      (ends.span.part_eq mt ends.memC hi inC)))

lemma anchor (hi : t ∈ F.part p ∪ F.part c) : ∃ x ∈ vertices, (x = p ∨ x = c) ∧ t ∈ F.part x := by
  rcases mem_union.mp hi with inP | inC
  · exact ⟨p, ends.memP, .inl rfl, inP⟩
  · exact ⟨c, ends.memC, .inr rfl, inC⟩

lemma anchor_eq {x y : V} (endX : x = p ∨ x = c)
  (endY : y = p ∨ y = c) (inX : t ∈ F.part x) (inY : t ∈ F.part y) : x = y := by
  rcases endX with rfl | rfl <;> rcases endY with rfl | rfl
  · rfl
  · exact absurd inY (ends.disjoint t inX)
  · exact absurd inX (ends.disjoint t inY)
  · rfl

end

lemma of_anchor {x t : V} (endX : x = p ∨ x = c) (inX : t ∈ F.part x) :
  t ∈ F.part p ∪ F.part c := by
  rcases endX with rfl | rfl
  · exact mem_union_left _ inX
  · exact mem_union_right _ inX

variable (ends : Joinable vertices F p c) {t u x : V} {d e : V × V}
include ends

/-- Vertices of one of the two parts lie on the same side of the new edge. -/
lemma same_side (endX : x = p ∨ x = c) (inT : t ∈ F.part x) (inU : u ∈ F.part x) :
  t ∈ (F.join p c).top (p, c) ↔ u ∈ (F.join p c).top (p, c) := by
  rw [join_top_new]
  constructor
  · intro inP
    rwa [← ends.anchor_eq endX (.inl rfl) inT inP]
  · intro inP
    rwa [← ends.anchor_eq endX (.inl rfl) inU inP]

lemma meet_mem (mx : x ∈ vertices) : meet F x t ∈ F.part x := by
  rw [meet]
  split_ifs with inX
  · exact inX
  · exact ends.span.self x mx

/-- Seen from one part, both ends of the new edge are at its anchor. -/
lemma meet_ends (endX : x = p ∨ x = c) : meet F x p = x ∧ meet F x c = x := by
  have selfP := ends.span.self p ends.memP
  have selfC := ends.span.self c ends.memC
  rcases endX with rfl | rfl
  · exact ⟨meet_of_mem selfP, meet_of_notMem ends.apart⟩
  · exact ⟨meet_of_notMem (ends.disjoint p selfP), meet_of_mem selfC⟩

/-- Seen from an old edge, the other part is where the new edge is. -/
lemma mem_top (endX : x = p ∨ x = c)
  (me : e ∈ F.edges) (inX : e.1 ∈ F.part x) (hi : t ∈ F.part p ∪ F.part c) :
  t ∈ (F.join p c).top e ↔ meet F x t ∈ F.top e := by
  have within := ends.span.topSub e me
  have disjoint := ends.disjoint
  rcases endX with rfl | rfl
  · rw [ends.span.same x ends.memP _ inX] at within
    simp only [join, if_neg (ends.fresh me), if_pos inX]
    by_cases inT : t ∈ F.part x
    · have := disjoint t inT
      rw [meet_of_mem inT]
      split_ifs <;> simp_all
    have : t ∉ F.top e := fun ht => inT (within ht)
    have : t ∈ F.part c := (mem_union.mp hi).resolve_left inT
    rw [meet_of_notMem inT]
    split_ifs <;> simp_all
  · rw [ends.span.same x ends.memC _ inX] at within
    simp only [join, if_neg (ends.fresh me), if_pos inX, if_neg (fun inP => disjoint _ inP inX)]
    by_cases inT : t ∈ F.part x
    · have : t ∉ F.part p := fun inP => disjoint t inP inT
      rw [meet_of_mem inT]
      split_ifs <;> simp_all
    have : t ∉ F.top e := fun ht => inT (within ht)
    have : t ∈ F.part p := (mem_union.mp hi).resolve_right inT
    rw [meet_of_notMem inT]
    split_ifs <;> simp_all

lemma top_away (me : e ∈ F.edges)
  (out : e.1 ∉ F.part p ∪ F.part c) : (F.join p c).top e = F.top e := by
  rw [mem_union, not_or] at out
  simp only [join, if_neg (ends.fresh me), if_neg out.1, if_neg out.2]

lemma join_top_sub (me : e ∈ (F.join p c).edges) : (F.join p c).top e ⊆ (F.join p c).part e.1 := by
  intro t ht
  rcases mem_insert.mp me with rfl | me
  · rw [join_part ends.upper]
    rw [join_top_new] at ht
    exact mem_union_left _ ht
  have within := ends.span.topSub e me
  by_cases in1 : e.1 ∈ F.part p ∪ F.part c
  · obtain ⟨x, mx, endX, inX⟩ := ends.anchor in1
    rw [ends.span.same x mx _ inX] at within
    rw [join_part in1]
    have union : t ∈ F.top e ∨ t ∈ F.part p ∪ F.part c := by
      simp only [join, if_neg (ends.fresh me)] at ht
      split_ifs at ht <;> simp_all <;> tauto
    exact union.elim (fun old => of_anchor endX (within old)) id
  · rw [join_part_away in1]
    rw [ends.top_away me in1] at ht
    exact within ht

lemma join_aligned (me : e ∈ (F.join p c).edges) (md : d ∈ (F.join p c).edges) (ne : e ≠ d)
  (hi : d.1 ∈ (F.join p c).part e.1) : d.1 ∈ (F.join p c).top e ↔ d.2 ∈ (F.join p c).top e := by
  rcases mem_insert.mp me with rfl | me
  · rw [join_part ends.upper] at hi
    obtain ⟨x, mx, endX, inX⟩ := ends.anchor hi
    have md := mem_of_mem_insert_of_ne md (Ne.symm ne)
    exact ends.same_side endX inX (ends.span.edge_part mx md inX)
  by_cases in1 : e.1 ∈ F.part p ∪ F.part c
  · rw [join_part in1] at hi
    obtain ⟨x, mx, endX, inX⟩ := ends.anchor in1
    rcases mem_insert.mp md with rfl | md
    · rw [ends.mem_top endX me inX ends.upper, ends.mem_top endX me inX ends.lower,
        (ends.meet_ends endX).1, (ends.meet_ends endX).2]
    obtain ⟨y, my, endY, d1⟩ := ends.anchor hi
    have d2 := ends.span.edge_part my md d1
    rw [ends.mem_top endX me inX hi, ends.mem_top endX me inX (of_anchor endY d2)]
    by_cases hs : x = y
    · subst hs
      rw [meet_of_mem d1, meet_of_mem d2]
      exact ends.span.aligned e me d md ne (by rwa [ends.span.same x mx _ inX])
    · rw [meet_of_notMem (fun inX => hs (ends.anchor_eq endX endY inX d1)),
        meet_of_notMem (fun inX => hs (ends.anchor_eq endX endY inX d2))]
  · rw [join_part_away in1] at hi
    rw [ends.top_away me in1]
    rcases mem_insert.mp md with rfl | md
    · exact absurd ends.upper (ends.part_away (ends.span.first e me).1 in1 hi)
    · exact ends.span.aligned e me d md ne hi

/-- Of an old edge and the new one, a vertex is with one of them on the other's side. -/
lemma join_nested_new (me : e ∈ F.edges)
  (in1 : e.1 ∈ F.part p ∪ F.part c) (hi : t ∈ F.part p ∪ F.part c) :
  (t ∈ (F.join p c).top e ↔ p ∈ (F.join p c).top e) ∨
    (t ∈ (F.join p c).top (p, c) ↔ e.1 ∈ (F.join p c).top (p, c)) := by
  obtain ⟨x, mx, endX, inX⟩ := ends.anchor in1
  by_cases inT : t ∈ F.part x
  · exact .inr (ends.same_side endX inT inX)
  · refine .inl ?_
    rw [ends.mem_top endX me inX hi, ends.mem_top endX me inX ends.upper,
      (ends.meet_ends endX).1, meet_of_notMem inT]

lemma join_nested (me : e ∈ (F.join p c).edges) (md : d ∈ (F.join p c).edges) (ne : e ≠ d)
  (hi : d.1 ∈ (F.join p c).part e.1) (inT : t ∈ (F.join p c).part e.1) :
  (t ∈ (F.join p c).top e ↔ d.1 ∈ (F.join p c).top e) ∨
    (t ∈ (F.join p c).top d ↔ e.1 ∈ (F.join p c).top d) := by
  rcases mem_insert.mp me with rfl | me
  · rw [join_part ends.upper] at hi inT
    have md := mem_of_mem_insert_of_ne md (Ne.symm ne)
    exact (ends.join_nested_new md hi inT).symm
  by_cases in1 : e.1 ∈ F.part p ∪ F.part c
  · rw [join_part in1] at hi inT
    rcases mem_insert.mp md with rfl | md
    · exact ends.join_nested_new me in1 inT
    obtain ⟨x, mx, endX, e1⟩ := ends.anchor in1
    obtain ⟨y, my, endY, d1⟩ := ends.anchor hi
    rw [ends.mem_top endX me e1 hi, ends.mem_top endX me e1 inT,
      ends.mem_top endY md d1 in1, ends.mem_top endY md d1 inT]
    by_cases hs : x = y
    · subst hs
      rw [meet_of_mem d1, meet_of_mem e1]
      have part := ends.span.same x mx _ e1
      exact ends.span.nested e me d md ne (by rwa [part]) _ (by rw [part]; exact ends.meet_mem mx)
    have apartX : ∀ {u}, u ∈ F.part y → u ∉ F.part x :=
      fun inY inX => hs (ends.anchor_eq endX endY inX inY)
    by_cases inY : t ∈ F.part y
    · refine .inl ?_
      rw [meet_of_notMem (apartX inY), meet_of_notMem (apartX d1)]
    · refine .inr ?_
      rw [meet_of_notMem inY, meet_of_notMem (fun inY => apartX inY e1)]
  · rw [join_part_away in1] at hi inT
    have first := (ends.span.first e me).1
    rcases mem_insert.mp md with rfl | md
    · exact absurd ends.upper (ends.part_away first in1 hi)
    · rw [ends.top_away me in1, ends.top_away md (ends.part_away first in1 hi)]
      exact ends.span.nested e me d md ne hi t inT

/-- An edge at a vertex of one part leads to what the vertex sees of the other. -/
lemma join_separates (mx : x ∈ vertices) (endX : x = p ∨ x = c) (me : e ∈ F.edges)
  (inT : t ∈ F.part x) (ht : Incident e t) (hi : u ∈ F.part p ∪ F.part c) :
  (F.join p c).Separates e t u ↔ F.Separates e t (meet F x u) := by
  have mt := ends.span.sub x mx inT
  have e1 : e.1 ∈ F.part x := by
    rw [← ends.span.same x mx t inT]
    exact ends.span.incident_part mt me ht
  simp only [Cuts.Separates, ends.mem_top endX me e1 (of_anchor endX inT),
    ends.mem_top endX me e1 hi, meet_of_mem inT]

lemma join_path (mt : t ∈ vertices) (hi : u ∈ (F.join p c).part t) (ne : u ≠ t) :
  ∃! e, e ∈ (F.join p c).edges ∧ Incident e t ∧ (F.join p c).Separates e t u := by
  by_cases inT : t ∈ F.part p ∪ F.part c
  · rw [join_part inT] at hi
    obtain ⟨x, mx, endX, inX⟩ := ends.anchor inT
    by_cases met : meet F x u = t
    · -- the new edge starts at the vertex
      have out : u ∉ F.part x := by
        intro inU
        rw [meet_of_mem inU] at met
        exact ne met
      rw [meet_of_notMem out] at met
      subst met
      refine ⟨(p, c), ⟨mem_insert_self _ _, ?_, ?_⟩, ?_⟩
      · exact endX.imp Eq.symm Eq.symm
      · rw [Cuts.Separates, join_top_new]
        rcases endX with rfl | rfl
        · exact fun iff => out (iff.mp inX)
        · exact fun iff => ends.disjoint x (iff.mpr ((mem_union.mp hi).resolve_right out)) inX
      · rintro e ⟨me, ht, hs⟩
        rcases mem_insert.mp me with rfl | me
        · rfl
        · rw [ends.join_separates mx endX me inX ht hi, meet_of_notMem out] at hs
          exact absurd Iff.rfl hs
    · have met' : meet F x u ∈ F.part t := by
        rw [ends.span.same x mx t inX]
        exact ends.meet_mem mx
      obtain ⟨e, ⟨me, ht, hs⟩, unique⟩ := ends.span.path t mt _ met' met
      refine ⟨e, ⟨mem_insert_of_mem me, ht, (ends.join_separates mx endX me inX ht hi).mpr hs⟩, ?_⟩
      rintro d ⟨md, ht', hs'⟩
      rcases mem_insert.mp md with rfl | md
      · -- the new edge touches the part at its anchor only
        exfalso
        have isX : t = x := by
          rcases ht' with rfl | rfl
          · exact ends.anchor_eq (.inl rfl) endX (ends.span.self _ ends.memP) inX
          · exact ends.anchor_eq (.inr rfl) endX (ends.span.self _ ends.memC) inX
        have inU : u ∈ F.part x := by
          by_contra out
          rw [meet_of_notMem out] at met
          exact met isX.symm
        exact hs' (ends.same_side endX inX inU)
      · exact unique d ⟨md, ht', (ends.join_separates mx endX md inX ht' hi).mp hs'⟩
  · rw [join_part_away inT] at hi
    obtain ⟨e, ⟨me, ht, hs⟩, unique⟩ := ends.span.path t mt u hi ne
    have away : ∀ d ∈ F.edges, Incident d t → (F.join p c).top d = F.top d := by
      intro d md ht
      exact ends.top_away md (ends.part_away mt inT (ends.span.incident_part mt md ht))
    refine ⟨e, ⟨mem_insert_of_mem me, ht, ?_⟩, ?_⟩
    · rwa [Cuts.Separates, away e me ht]
    rintro d ⟨md, ht', hs'⟩
    rcases mem_insert.mp md with rfl | md
    · rcases ht' with rfl | rfl
      · exact absurd ends.upper inT
      · exact absurd ends.lower inT
    · rw [Cuts.Separates, away d md ht'] at hs'
      exact unique d ⟨md, ht', hs'⟩

lemma join : Spanning vertices (F.join p c) := by
  have span := ends.span
  constructor
  · exact span.merge_partition ends.memP ends.memC
  · intro e me
    rcases mem_insert.mp me with rfl | me
    · rw [join_top_new]
      exact ⟨ends.memP, span.self p ends.memP⟩
    have old := span.first e me
    refine ⟨old.1, ?_⟩
    by_cases in1 : e.1 ∈ F.part p ∪ F.part c
    · obtain ⟨x, mx, endX, inX⟩ := ends.anchor in1
      rw [ends.mem_top endX me inX in1, meet_of_mem inX]
      exact old.2
    · rw [ends.top_away me in1]
      exact old.2
  · intro e me
    rcases mem_insert.mp me with rfl | me
    · rw [join_top_new, join_part ends.upper]
      exact ⟨ends.lower, ends.apart⟩
    have old := span.second e me
    by_cases in1 : e.1 ∈ F.part p ∪ F.part c
    · obtain ⟨x, mx, endX, inX⟩ := ends.anchor in1
      have inX' := span.edge_part mx me inX
      rw [join_part in1, ends.mem_top endX me inX (of_anchor endX inX'), meet_of_mem inX']
      exact ⟨of_anchor endX inX', old.2⟩
    · rw [join_part_away in1, ends.top_away me in1]
      exact old
  · exact fun e me => ends.join_top_sub me
  · exact fun e me d md ne hi => ends.join_aligned me md ne hi
  · exact fun e me d md ne hi t inT => ends.join_nested me md ne hi inT
  · exact fun t mt u hi ne => ends.join_path mt hi ne

end Joinable

end

namespace Spanning

section
variable {vertices : Finset V} {F : Cuts V} {d : V × V}

variable (span : Spanning vertices F) {t u : V} {e : V × V}
include span

lemma cut_part_sub (md : d ∈ F.edges) : (F.cut d).part t ⊆ F.part t := by
  have first := (span.first d md).1
  have within := span.topSub d md
  simp only [cut]
  split_ifs with ht hi
  · rw [span.same _ first t (within ht)]
    exact within
  · rw [span.same _ first t hi]
    exact sdiff_subset
  · exact Finset.Subset.refl _

variable (md : d ∈ F.edges)
include md

lemma cut_partition : Partition vertices (F.cut d).part :=
  span.split_partition (span.first d md).1 (span.topSub d md)

lemma cut_together
  (mt : t ∈ vertices) (inT : u ∈ (F.cut d).part t) : t ∈ F.top d ↔ u ∈ F.top d := by
  have first := (span.first d md).1
  have within := span.topSub d md
  simp only [cut] at inT
  split_ifs at inT with ht hi
  · exact iff_of_true ht inT
  · exact iff_of_false ht (mem_sdiff.mp inT).2
  · refine iff_of_false ht fun top => hi ?_
    exact (span.mem_iff first mt).mpr (span.part_eq mt first inT (within top))

/-- The vertices of a part on one side of the removed edge stay together. -/
lemma mem_cut_part (inT : u ∈ F.part t) (hs : t ∈ F.top d ↔ u ∈ F.top d) :
  u ∈ (F.cut d).part t := by
  have first := (span.first d md).1
  simp only [Cuts.cut]
  split_ifs with ht hi
  · exact hs.mp ht
  · rw [mem_sdiff]
    refine ⟨?_, fun top => ht (hs.mpr top)⟩
    rwa [← span.same _ first t hi]
  · exact inT

section
variable (me : e ∈ F.edges) (ne : e ≠ d)
include me ne

/-- Within a part of the cut forest, the sides of the other edges are as before. -/
lemma mem_cut_top : t ∈ (F.cut d).top e ↔ t ∈ F.top e ∧ t ∈ (F.cut d).part e.1 := by
  have first := (span.first d md).1
  have within := span.topSub d md
  have mf := (span.first e me).1
  have within' := span.topSub e me
  by_cases hi : e.1 ∈ F.part d.1
  · have part := span.same _ first _ hi
    have nested := span.nested e me d md ne (by
      rw [part]
      exact span.self _ first) t
    have aligned := span.aligned e me d md ne (by
      rw [part]
      exact span.self _ first)
    rw [part] at nested within'
    simp only [cut]
    by_cases isTop : e.1 ∈ F.top d
    · simp only [if_pos isTop]
      split_ifs with leads
      · have := @within t
        simp only [mem_sdiff]
        grind
      · have := @within' t
        grind
    simp only [if_neg isTop, if_pos hi]
    split_ifs with leads
    · have := @within' t
      simp only [mem_sdiff]
      grind
    · have := @within' t
      simp only [mem_sdiff]
      grind
  · have isTop : e.1 ∉ F.top d := fun top => hi (within top)
    simp only [cut, if_neg isTop, if_neg hi]
    exact ⟨fun top => ⟨top, within' top⟩, And.left⟩

/-- A side with the near end of the removed edge holds all that lies beyond it. -/
lemma beyond_sub_top (hto : e.1 ∈ F.top d) (hl : d.1 ∈ F.top e) :
  F.part d.1 \ F.top d ⊆ F.top e := by
  have first := (span.first d md).1
  have part := span.same _ first _ (span.topSub d md hto)
  intro t hi
  obtain ⟨hp, ht⟩ := mem_sdiff.mp hi
  have nested := span.nested e me d md ne (part ▸ span.self _ first) t (part ▸ hp)
  tauto

lemma top_sub_top (hp : e.1 ∈ F.part d.1) (hto : e.1 ∉ F.top d)
  (hl : d.2 ∈ F.top e) : F.top d ⊆ F.top e := by
  have first := (span.first d md).1
  have part := span.same _ first _ hp
  have aligned := span.aligned e me d md ne (part ▸ span.self _ first)
  intro t ht
  have nested := span.nested e me d md ne (part ▸ span.self _ first) t (part ▸ span.topSub d md ht)
  tauto

lemma cut_edge_part : e.2 ∈ (F.cut d).part e.1 := by
  have mf := (span.first e me).1
  have inner := (span.second e me).1
  refine span.mem_cut_part md inner ?_
  by_cases hi : e.1 ∈ F.part d.1
  · exact span.aligned d md e me (Ne.symm ne) hi
  have first := (span.first d md).1
  have within := span.topSub d md
  refine iff_of_false (fun top => hi (within top)) fun top => hi ?_
  exact (span.mem_iff first mf).mpr (span.part_eq mf first inner (within top))

end

lemma cut : Spanning vertices (F.cut d) := by
  have old : ∀ e ∈ (F.cut d).edges, e ∈ F.edges ∧ e ≠ d := by
    intro e me
    exact (mem_erase.mp me).symm
  have vertex : ∀ e ∈ F.edges, e.1 ∈ vertices := fun e me => (span.first e me).1
  have top : ∀ e ∈ (F.cut d).edges, ∀ t ∈ (F.cut d).part e.1,
    (t ∈ (F.cut d).top e ↔ t ∈ F.top e) := by
    intro e me t inE
    rw [span.mem_cut_top md (old e me).1 (old e me).2, and_iff_left inE]
  have cuts := span.cut_partition md
  constructor
  · exact cuts
  · intro e me
    have mf := vertex e (old e me).1
    exact ⟨mf, (top e me _ (cuts.self _ mf)).mpr (span.first e (old e me).1).2⟩
  · intro e me
    have inner := span.cut_edge_part md (old e me).1 (old e me).2
    exact ⟨inner, fun hto => (span.second e (old e me).1).2 ((top e me _ inner).mp hto)⟩
  · intro e me t hto
    exact ((span.mem_cut_top md (old e me).1 (old e me).2).mp hto).2
  · intro e me f mf ne inE
    have ve := vertex e (old e me).1
    have inE' : f.2 ∈ (F.cut d).part e.1 := by
      rw [← cuts.same _ ve _ inE]
      exact span.cut_edge_part md (old f mf).1 (old f mf).2
    rw [top e me _ inE, top e me _ inE']
    exact span.aligned e (old e me).1 f (old f mf).1 ne (span.cut_part_sub md inE)
  · intro e me f mf ne inE t inT
    have ve := vertex e (old e me).1
    have same := cuts.same _ ve _ inE
    rw [top e me _ inE, top e me _ inT, top f mf t (by rwa [same]),
      top f mf e.1 (by rw [same]; exact cuts.self _ ve)]
    exact span.nested e (old e me).1 f (old f mf).1 ne (span.cut_part_sub md inE) t
      (span.cut_part_sub md inT)
  · intro t mt u inT ne
    have separates : ∀ e ∈ (F.cut d).edges, Incident e t →
      ((F.cut d).Separates e t u ↔ F.Separates e t u) := by
      intro e me ht
      have ve := vertex e (old e me).1
      have inner := span.cut_edge_part md (old e me).1 (old e me).2
      have inE : t ∈ (F.cut d).part e.1 := by
        rcases ht with rfl | rfl
        · exact cuts.self _ ve
        · exact inner
      have inE' : u ∈ (F.cut d).part e.1 := by
        rwa [← cuts.same _ ve _ inE]
      rw [Cuts.Separates, Cuts.Separates, top e me _ inE, top e me _ inE']
    obtain ⟨e, ⟨me, ht, ha⟩, unique⟩ := span.path t mt u (span.cut_part_sub md inT) ne
    have other : e ≠ d := by
      rintro rfl
      exact ha (span.cut_together md mt inT)
    have me' := mem_erase.mpr ⟨other, me⟩
    refine ⟨e, ⟨me', ht, (separates e me' ht).mpr ha⟩, ?_⟩
    rintro f ⟨mf, ht', ha'⟩
    exact unique f ⟨(old f mf).1, ht', (separates f mf ht').mp ha'⟩

end

variable {vertices : Finset V} {F : Cuts V} {M : Type*} [AddCommGroup M]

/-- What lies behind an edge, seen from one of its ends. -/
def behind (F : Cuts V) (x : V) (e : V × V) : Finset V :=
  if e.1 = x then F.part x \ F.top e else F.top e

variable (span : Spanning vertices F) {S : Finset V} {t x : V} {e : V × V}
include span

lemma mem_behind {u : V} (mt : t ∈ vertices)
  (inT : u ∈ F.part t) (me : e ∈ F.edges) (ht : Incident e t) :
  u ∈ behind F t e ↔ F.Separates e t u := by
  rw [behind, Cuts.Separates]
  split_ifs with hf
  · subst hf
    have := (span.first e me).2
    simp only [mem_sdiff]
    tauto
  · have isSecond : e.2 = t := ht.resolve_left hf
    subst isSecond
    have := (span.second e me).2
    tauto

lemma behind_sub (mt : t ∈ vertices)
  (me : e ∈ F.edges) (ht : Incident e t) : behind F t e ⊆ F.part t := by
  rw [behind]
  split_ifs
  · exact sdiff_subset
  · have within := span.topSub e me
    rwa [span.same t mt _ (span.incident_part mt me ht)] at within

/-- The other vertices of a part lie behind the edges of a vertex, each behind one. -/
lemma sum_behind (w : V → M) (mt : t ∈ vertices) :
  ∑ e ∈ F.edges.filter (fun e => e.1 = t ∨ e.2 = t), ∑ u ∈ behind F t e, w u =
    ∑ u ∈ (F.part t).erase t, w u := by
  have cover : (F.part t).erase t =
    (F.edges.filter (fun e => e.1 = t ∨ e.2 = t)).biUnion (behind F t) := by
    ext u
    simp only [mem_erase, mem_biUnion, mem_filter]
    constructor
    · rintro ⟨ne, inT⟩
      obtain ⟨e, ⟨me, ht, apart⟩, -⟩ := span.path t mt u inT ne
      exact ⟨e, ⟨me, ht⟩, (span.mem_behind mt inT me ht).mpr apart⟩
    rintro ⟨e, ⟨me, ht⟩, isBehind⟩
    have inT := span.behind_sub mt me ht isBehind
    refine ⟨?_, inT⟩
    rintro rfl
    exact (span.mem_behind mt inT me ht).mp isBehind Iff.rfl
  rw [cover, sum_biUnion]
  intro e me d md ne
  simp only [coe_filter, Set.mem_ofPred_eq] at me md
  rw [Function.onFun, disjoint_left]
  intro u inE inD
  have inT := span.behind_sub mt me.1 me.2 inE
  have apart := (span.mem_behind mt inT me.1 me.2).mp inE
  have notSame : u ≠ t := by
    rintro rfl
    exact apart Iff.rfl
  exact ne ((span.path t mt u inT notSame).unique ⟨me.1, me.2, apart⟩
    ⟨md.1, md.2, (span.mem_behind mt inT md.1 md.2).mp inD⟩)

/-- A weight that sums to zero over a part flows along its edges: at each vertex it is what
leaves through the edges that start there, less what arrives through those that end there. -/
lemma flow_vertex (w : V → M) (mt : t ∈ vertices) (hz : ∑ u ∈ F.part t, w u = 0) :
  w t = ∑ e ∈ F.edges.filter (fun e => e.1 = t), ∑ u ∈ F.top e, w u -
    ∑ e ∈ F.edges.filter (fun e => e.2 = t), ∑ u ∈ F.top e, w u := by
  have others := span.sum_behind w mt
  have loop : ∀ e ∈ F.edges, e.1 = t → e.2 ≠ t := by
    rintro e me rfl eq
    have second := (span.second e me).2
    rw [eq] at second
    exact second (span.first e me).2
  have divided : F.edges.filter (fun e => e.1 = t ∨ e.2 = t) =
    F.edges.filter (fun e => e.1 = t) ∪ F.edges.filter (fun e => e.2 = t) :=
    filter_or _ _ _
  have disjoint : Disjoint (F.edges.filter (fun e => e.1 = t))
    (F.edges.filter (fun e => e.2 = t)) := by
    rw [disjoint_filter]
    exact loop
  have leaving : ∑ e ∈ F.edges.filter (fun e => e.1 = t), ∑ u ∈ behind F t e, w u =
    - ∑ e ∈ F.edges.filter (fun e => e.1 = t), ∑ u ∈ F.top e, w u := by
    rw [← sum_neg_distrib]
    refine sum_congr rfl fun e hf => ?_
    obtain ⟨me, rfl⟩ := mem_filter.mp hf
    rw [behind, if_pos rfl, eq_neg_iff_add_eq_zero, sum_sdiff (span.topSub e me), hz]
  have arriving : ∑ e ∈ F.edges.filter (fun e => e.2 = t), ∑ u ∈ behind F t e, w u =
    ∑ e ∈ F.edges.filter (fun e => e.2 = t), ∑ u ∈ F.top e, w u := by
    refine sum_congr rfl fun e isSecond => ?_
    obtain ⟨me, isT⟩ := mem_filter.mp isSecond
    rw [behind, if_neg (fun hf => loop e me hf isT)]
  rw [divided, sum_union disjoint, leaving, arriving] at others
  rw [← add_sum_erase _ _ (span.self t mt), ← others] at hz
  rw [eq_sub_iff_add_eq, ← sub_eq_zero]
  rw [← hz]
  abel

variable (w : V → M) (mx : x ∈ vertices) (hz : ∑ u ∈ F.part x, w u = 0) (sub : S ⊆ F.part x)
include w mx hz sub

/-- What a set of vertices of a part weighs is what leaves it, less what enters it. -/
lemma flow : ∑ t ∈ S, w t = ∑ e ∈ F.edges.filter (fun e => e.1 ∈ S), ∑ u ∈ F.top e, w u -
    ∑ e ∈ F.edges.filter (fun e => e.2 ∈ S), ∑ u ∈ F.top e, w u := by
  have fibers : ∀ f : V × V → V, ∑ e ∈ F.edges.filter (fun e => f e ∈ S), ∑ u ∈ F.top e, w u =
    ∑ t ∈ S, ∑ e ∈ F.edges.filter (fun e => f e = t), ∑ u ∈ F.top e, w u := by
    intro f
    rw [← sum_fiberwise_of_maps_to (s := F.edges.filter (fun e => f e ∈ S)) (t := S) (g := f)
      (fun e me => (mem_filter.mp me).2)]
    refine sum_congr rfl fun t mt => ?_
    rw [filter_filter]
    refine sum_congr (filter_congr fun e _ => ?_) fun _ _ => rfl
    constructor
    · exact And.right
    · rintro rfl
      exact ⟨mt, rfl⟩
  rw [fibers Prod.fst, fibers Prod.snd, ← sum_sub_distrib]
  refine sum_congr rfl fun t mt => ?_
  refine span.flow_vertex w (span.sub x mx (sub mt)) ?_
  rw [span.same x mx t (sub mt), hz]

/-- A set that no edge enters weighs what leaves it. -/
lemma flow_closed (hc : ∀ e ∈ F.edges, e.2 ∈ S → e.1 ∈ S) :
  ∑ t ∈ S, w t = ∑ e ∈ F.edges.filter (fun e => e.1 ∈ S ∧ e.2 ∉ S), ∑ u ∈ F.top e, w u := by
  have divided : F.edges.filter (fun e => e.1 ∈ S) =
    F.edges.filter (fun e => e.1 ∈ S ∧ e.2 ∉ S) ∪ F.edges.filter (fun e => e.2 ∈ S) := by
    ext e
    simp only [mem_union, mem_filter]
    have := hc e
    tauto
  have disjoint : Disjoint (F.edges.filter (fun e => e.1 ∈ S ∧ e.2 ∉ S))
    (F.edges.filter (fun e => e.2 ∈ S)) := by
    rw [disjoint_filter]
    exact fun e _ leaves => leaves.2
  rw [span.flow w mx hz sub, divided, sum_union disjoint, add_sub_cancel_right]

end Spanning

end CutForest
