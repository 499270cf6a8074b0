import Andaluzcoin.SpanningForestTopology
import Andaluzcoin.StepDiagram

/-!
# The feerate diagram of a linearization

`ChunkLinearization` cuts a linearization into leading segments of falling feerate, the chunks.
Drawn one after the other they make up its diagram.
-/

open StepDiagram List

/-- A fee and the size it pays for, as a step. -/
def FeeFrac.step (a : FeeFrac) : Step := ⟨a.fee, a.size⟩

lemma FeeFrac.step_run_pos {a : FeeFrac} : 0 < a.step.run ↔ 0 < a.size := Int.cast_pos

namespace ClusterLinearize

open FeeFrac

variable {G : DepGraph} {segments : List (List ℕ)}

def fee (G : DepGraph) (i : ℕ) : ℚ := (G.feerate i).fee

def size (G : DepGraph) (i : ℕ) : ℚ := (G.feerate i).size

/-- Transactions one after the other, as a step. -/
abbrev stepOf (G : DepGraph) (l : List ℕ) : Step := whole (fee G) (size G) l

/-- The feerate diagram of a linearization, from the feerates of its chunks. -/
def diagram (G : DepGraph) (linearization : List ℕ) : List Step :=
  (chunkLinearization G linearization).map FeeFrac.step

/-- The set of some transactions, with the sums of their fees and sizes. -/
def infoOf (G : DepGraph) (l : List ℕ) : SetInfo :=
  ⟨l.toFinset, (l.map fun i => (G.feerate i).fee).sum,
    (l.map fun i => (G.feerate i).size).sum⟩

lemma infoOf_step (l : List ℕ) : (infoOf G l).feerate.step = stepOf G l := by
  have sums : ∀ f : ℕ → ℤ, (((l.map f).sum : ℤ) : ℚ) = (l.map fun i => ((f i : ℤ) : ℚ)).sum := by
    intro f
    induction l with
    | nil => simp
    | cons i l ih => simp [ih]
  rw [infoOf, step, stepOf, whole, sums, sums]
  rfl

lemma infoOf_rate (l : List ℕ) : (infoOf G l).feerate.rate = (stepOf G l).slope := by
  rw [← infoOf_step]
  rfl

lemma infoOf_append (l m : List ℕ) : (infoOf G m).union (infoOf G l) = infoOf G (l ++ m) := by
  simp only [infoOf, SetInfo.union, SetInfo.mk.injEq]
  constructor
  · rw [toFinset_append, Finset.union_comm]
  · ext
    · simp [add_comm]
    · simp [add_comm]

/-- Leading segments of falling feerate, where all sizes are positive. -/
abbrev Chunked (G : DepGraph) (segments : List (List ℕ)) : Prop :=
  Segments (fee G) (size G) segments

lemma higherFeeRate_iff {l m : List ℕ} (nonempty : l ≠ []) (pos : ∀ i ∈ l, 0 < size G i)
  (hn' : m ≠ []) (pos' : ∀ i ∈ m, 0 < size G i) :
  (infoOf G l).feerate.higherFeeRate (infoOf G m).feerate = true ↔
    (stepOf G m).slope < (stepOf G l).slope := by
  have sizeL : 0 < (stepOf G l).run := whole_run_pos pos nonempty
  have sizeM : 0 < (stepOf G m).run := whole_run_pos pos' hn'
  rw [← infoOf_step, step_run_pos] at sizeL sizeM
  rw [← infoOf_rate, ← infoOf_rate]
  exact FeeFrac.higherFeeRate_iff sizeL sizeM

lemma absorb_spec {new : List ℕ} (nonempty : new ≠ []) (pos : ∀ i ∈ new, 0 < size G i)
  (hl : Leading (fee G) (size G) new) (hc : Chunked G segments.reverse) :
  ∃ segments' : List (List ℕ), absorb (infoOf G new) (segments.map (infoOf G)) =
      segments'.map (infoOf G) ∧ segments'.reverse.flatten = segments.reverse.flatten ++ new ∧
    Chunked G segments'.reverse := by
  induction segments generalizing new with
  | nil =>
    refine ⟨[new], rfl, by simp, ?_⟩
    constructor
    all_goals simp_all [Falling]
  | cons last rest ih =>
    have nonemptyL := hc.nonempty last (by simp)
    have posL := hc.pos last (by simp)
    have leadingL := hc.leading last (by simp)
    rw [map_cons, absorb]
    split_ifs with hh
    · rw [higherFeeRate_iff nonempty pos nonemptyL posL] at hh
      have posBoth : ∀ i ∈ last ++ new, 0 < size G i := by
        intro i mi
        rcases mem_append.mp mi with mi | mi
        · exact posL i mi
        · exact pos i mi
      rw [infoOf_append]
      have chunked' : Chunked G rest.reverse := by
        rw [reverse_cons] at hc
        exact hc.init
      obtain ⟨segments', eq, flat, hc''⟩ := ih (by simp [nonempty]) posBoth
        (leadingL.append posBoth nonemptyL nonempty hl hh) chunked'
      refine ⟨segments', eq, ?_, hc''⟩
      rw [flat, reverse_cons, flatten_append, flatten_singleton, append_assoc]
    · rw [higherFeeRate_iff nonempty pos nonemptyL posL, not_lt] at hh
      refine ⟨new :: last :: rest, rfl, ?_, ?_⟩
      · rw [reverse_cons, flatten_append, flatten_singleton]
      · rw [reverse_cons] at hc
        rw [reverse_cons, reverse_cons]
        exact hc.concat nonempty pos hl hh

/-- The chunks of a linearization are its leading segments of falling feerate. -/
theorem chunkLinearizationInfo_spec (G : DepGraph) (linearization : List ℕ)
  (pos : ∀ i ∈ linearization, 0 < size G i) :
  ∃ segments : List (List ℕ), chunkLinearizationInfo G linearization = segments.map (infoOf G) ∧
    segments.flatten = linearization ∧ Chunked G segments := by
  have fold : ∀ (l : List ℕ) (segments : List (List ℕ)), (∀ i ∈ l, 0 < size G i) →
    Chunked G segments.reverse → ∃ segments' : List (List ℕ),
      l.foldl (fun ret i => absorb (SetInfo.single G i) ret) (segments.map (infoOf G)) =
        segments'.map (infoOf G) ∧
      segments'.reverse.flatten = segments.reverse.flatten ++ l ∧
      Chunked G segments'.reverse := by
    intro l
    induction l with
    | nil => exact fun segments _ hc => ⟨segments, rfl, by simp, hc⟩
    | cons i l ih =>
      intro segments pos hc
      have single : SetInfo.single G i = infoOf G [i] := by
        simp [SetInfo.single, infoOf]
      obtain ⟨posI, pos'⟩ := forall_mem_cons.mp pos
      obtain ⟨segments', eq, flat, hc'⟩ := absorb_spec (cons_ne_nil i [])
        (by simpa using posI) (leading_single i) hc
      obtain ⟨segments'', eq', flat', hc''⟩ := ih segments' pos' hc'
      refine ⟨segments'', ?_, ?_, hc''⟩
      · rw [foldl_cons, single, eq, eq']
      · rw [flat', flat, append_assoc, singleton_append]
  obtain ⟨segments, eq, flat, hc⟩ := fold linearization [] pos
    ⟨by simp, by simp, by simp, by simp [Falling]⟩
  refine ⟨segments.reverse, ?_, by simpa using flat, hc⟩
  rw [chunkLinearizationInfo, map_reverse, ← eq]
  rfl

lemma diagram_eq {linearization : List ℕ}
  (eq : chunkLinearizationInfo G linearization = segments.map (infoOf G)) :
  diagram G linearization = segments.map (stepOf G) := by
  rw [diagram, chunkLinearization_eq, eq, map_map, map_map]
  exact map_congr_left fun l _ => infoOf_step l

end ClusterLinearize
