import Mathlib

/-!
# Diagrams of steps

A sequence of steps, each with a rise and a positive run, drawn as a line from the origin. The gain
of a step is what it rises above a line of a given slope, and the potential of the steps is the sum
of their positive gains. Steps sorted by falling slope are drawn as the lower envelope of the lines
of height potential, so that diagrams are compared by their potentials.

A list is cut into leading segments when every proper part of a segment from its start rises
less steeply than the segment. With the segments sorted, there is one way to do so.
-/

namespace StepDiagram

open List

variable {steps : List Step} {step : Step} {x : ℚ}

structure Step where
  rise : ℚ
  run : ℚ

open Step

def Step.gain (slope : ℚ) (step : Step) : ℚ := step.rise - slope * step.run

def Step.slope (step : Step) : ℚ := step.rise / step.run

/-- The line through the ends of the steps, level after the last one. -/
def height : List Step → ℚ → ℚ
  | [], _ => 0
  | step :: rest, x =>
    if x ≤ step.run then step.rise * x / step.run else step.rise + height rest (x - step.run)

def potential (slope : ℚ) (steps : List Step) : ℚ :=
  (steps.map fun step => max 0 (step.gain slope)).sum

def totalRise (steps : List Step) : ℚ := (steps.map Step.rise).sum

def totalRun (steps : List Step) : ℚ := (steps.map Step.run).sum

def Forward (steps : List Step) : Prop := ∀ step ∈ steps, 0 < step.run

def Falling (steps : List Step) : Prop := steps.Pairwise fun a b => b.slope ≤ a.slope

lemma Step.gain_slope (pos : 0 < step.run) : step.gain step.slope = 0 := by
  rw [gain, slope]
  field_simp
  ring

lemma Step.gain_nonneg (pos : 0 < step.run) {slope : ℚ} :
  0 ≤ step.gain slope ↔ slope ≤ step.slope := by
  rw [gain, Step.slope, le_div_iff₀ pos, sub_nonneg]

lemma Step.gain_nonpos (pos : 0 < step.run) {slope : ℚ} :
  step.gain slope ≤ 0 ↔ step.slope ≤ slope := by
  rw [gain, Step.slope, div_le_iff₀ pos, sub_nonpos]

lemma potential_cons (slope : ℚ) (step : Step) (rest : List Step) :
  potential slope (step :: rest) = max 0 (step.gain slope) + potential slope rest := by
  simp [potential]

lemma potential_nonneg (slope : ℚ) (steps : List Step) : 0 ≤ potential slope steps := by
  apply sum_nonneg
  simp only [mem_map]
  rintro gain ⟨step, -, rfl⟩
  exact le_max_left _ _

lemma potential_eq_zero {slope : ℚ}
  (low : ∀ step ∈ steps, step.gain slope ≤ 0) : potential slope steps = 0 := by
  apply sum_eq_zero
  simp only [mem_map]
  rintro gain ⟨step, hm, rfl⟩
  exact max_eq_left (low step hm)

section
variable (forward : Forward steps)
include forward

lemma totalRun_nonneg : 0 ≤ totalRun steps := by
  apply sum_nonneg
  simp only [mem_map]
  rintro run ⟨step, hm, rfl⟩
  exact (forward step hm).le

lemma height_past (past : totalRun steps ≤ x) : height steps x = totalRise steps := by
  induction steps generalizing x with
  | nil => rfl
  | cons step rest ih =>
    have pos := forward step (.head _)
    have forward' : Forward rest := fun s ms => forward s (.tail _ ms)
    have total : totalRun (step :: rest) = step.run + totalRun rest := by simp [totalRun]
    have rises : totalRise (step :: rest) = step.rise + totalRise rest := by simp [totalRise]
    have nonneg := totalRun_nonneg forward'
    rw [height, rises]
    split_ifs with hw
    · have last : totalRun rest = 0 := by linarith
      have isEnd : x = step.run := by linarith
      have level := ih forward' (x := 0) (by linarith)
      cases rest with
      | nil =>
        rw [isEnd, mul_div_assoc, div_self pos.ne']
        simp [totalRise]
      | cons other ho =>
        have pos' := forward' other (.head _)
        have nonneg' := totalRun_nonneg fun s ms => forward' s (.tail _ ms)
        simp only [totalRun, map_cons, sum_cons] at last nonneg'
        linarith
    · rw [ih forward' (by linarith)]

/-- No point of the diagram is above a line of height potential. -/
lemma height_le (slope : ℚ) (hs : 0 ≤ x)
  (hw : x ≤ totalRun steps) : height steps x ≤ potential slope steps + slope * x := by
  induction steps generalizing x with
  | nil =>
    simp only [totalRun, map_nil, sum_nil] at hw
    have isZero : x = 0 := le_antisymm hw hs
    simp [height, potential, isZero]
  | cons step rest ih =>
    have pos := forward step (.head _)
    have forward' : Forward rest := fun s ms => forward s (.tail _ ms)
    have nonneg := potential_nonneg slope rest
    rw [height, potential_cons]
    split_ifs with hi
    · have part : step.rise * x / step.run = step.gain slope * (x / step.run) + slope * x := by
        rw [Step.gain]
        field_simp
        ring
      have fraction : 0 ≤ x / step.run ∧ x / step.run ≤ 1 :=
        ⟨div_nonneg hs pos.le, (div_le_one pos).mpr hi⟩
      have scaled : step.gain slope * (x / step.run) ≤ max 0 (step.gain slope) := by
        rcases le_total 0 (step.gain slope) with up | down
        · rw [max_eq_right up]
          exact mul_le_of_le_one_right up fraction.2
        · rw [max_eq_left down]
          exact mul_nonpos_of_nonpos_of_nonneg down fraction.1
      rw [part]
      linarith
    · have total : totalRun (step :: rest) = step.run + totalRun rest := by simp [totalRun]
      have later := ih forward' (x := x - step.run) (by linarith) (by linarith)
      have gain := le_max_right 0 (step.gain slope)
      rw [Step.gain] at gain ⊢
      linarith

/-- Each point of a falling diagram is on such a line, of the slope of one of its steps. -/
lemma height_eq (falling : Falling steps)
  (hs : 0 ≤ x) (hw : x ≤ totalRun steps) (nonempty : steps ≠ []) :
  ∃ step ∈ steps, height steps x = potential step.slope steps + step.slope * x := by
  induction steps generalizing x with
  | nil => exact absurd rfl nonempty
  | cons step rest ih =>
    have pos := forward step (.head _)
    have forward' : Forward rest := fun s ms => forward s (.tail _ ms)
    obtain ⟨first, falling'⟩ := pairwise_cons.mp falling
    have total : totalRun (step :: rest) = step.run + totalRun rest := by simp [totalRun]
    by_cases hi : x ≤ step.run
    · refine ⟨step, .head _, ?_⟩
      have later := potential_eq_zero fun s ms =>
        (gain_nonpos (forward' s ms)).mpr (first s ms)
      rw [height, if_pos hi, potential_cons, gain_slope pos, later, Step.slope]
      simp only [max_self, zero_add]
      ring
    have nonempty' : rest ≠ [] := by
      rintro rfl
      simp only [totalRun, map_nil, sum_nil] at total
      rw [totalRun] at hw
      simp only [map_cons, map_nil, sum_cons, sum_nil] at hw
      linarith
    obtain ⟨s, ms, eq⟩ := ih forward' falling' (x := x - step.run) (by linarith)
      (by linarith) nonempty'
    refine ⟨s, .tail _ ms, ?_⟩
    have up : 0 ≤ step.gain s.slope := (gain_nonneg pos).mpr (first s ms)
    rw [height, if_neg hi, eq, potential_cons, max_eq_right up, gain]
    ring

end

/-- Diagrams of the same extent, the second not ending lower, are compared by their potentials. -/
theorem height_le_height {lower upper : List Step} (forward : Forward lower)
  (hf' : Forward upper) (falling : Falling upper)
  (runs : totalRun lower = totalRun upper) (hr : totalRise lower ≤ totalRise upper)
  (hd : ∀ slope, potential slope lower ≤ potential slope upper)
  (hs : 0 ≤ x) : height lower x ≤ height upper x := by
  rcases le_total x (totalRun upper) with hw | past
  · by_cases empty : upper = []
    · subst empty
      have isEnd : totalRun lower ≤ x := by
        rw [runs]
        exact hs
      rw [height_past forward isEnd]
      exact hr
    · obtain ⟨step, -, eq⟩ := height_eq hf' falling hs hw empty
      have below := height_le forward step.slope hs (runs ▸ hw)
      have := hd step.slope
      linarith
  · rw [height_past hf' past, height_past forward (runs ▸ past)]
    exact hr

variable {α : Type*} (rise run : α → ℚ) {l : List α} {step : Step} {slope : ℚ}

/-- A list of elements as one step. -/
def whole (l : List α) : Step := ⟨(l.map rise).sum, (l.map run).sum⟩

@[simp]
lemma whole_append_gain (slope : ℚ) (l m : List α) : (whole rise run (l ++ m)).gain slope =
    (whole rise run l).gain slope + (whole rise run m).gain slope := by
  simp only [whole, gain, map_append, sum_append]
  ring

/-- The parts from the start rise less steeply than the whole. -/
def Leading (l : List α) : Prop :=
  ∀ p q, l = p ++ q → p ≠ [] → q ≠ [] →
    (whole rise run p).slope < (whole rise run l).slope

/-- Leading segments, sorted by falling slope. -/
structure Segments (segments : List (List α)) : Prop where
  nonempty : ∀ s ∈ segments, s ≠ []
  pos : ∀ s ∈ segments, ∀ a ∈ s, 0 < run a
  leading : ∀ s ∈ segments, Leading rise run s
  falling : Falling (segments.map (whole rise run))

variable {rise run}

lemma whole_run_pos (pos : ∀ a ∈ l, 0 < run a) (nonempty : l ≠ []) :
  0 < (whole rise run l).run := by
  apply sum_pos
  · simp only [mem_map]
    rintro x ⟨a, hm, rfl⟩
    exact pos a hm
  · simpa using nonempty

lemma Step.gain_neg (pos : 0 < step.run) : step.gain slope < 0 ↔ step.slope < slope := by
  rw [← not_le, gain_nonneg pos, not_le]

lemma Step.gain_pos (pos : 0 < step.run) : 0 < step.gain slope ↔ slope < step.slope := by
  rw [← not_le, gain_nonpos pos, not_le]

lemma gain_anti (step : Step) (pos : 0 ≤ step.run) {s t : ℚ} (le : s ≤ t) :
  step.gain t ≤ step.gain s := by
  have := mul_le_mul_of_nonneg_right le pos
  simp only [gain]
  linarith

/-- A part of a leading list from its start gains no more than the list or nothing. -/
lemma Leading.gain_le (pos : ∀ a ∈ l, 0 < run a) (hl : Leading rise run l)
  {p q : List α} (eq : l = p ++ q) (slope : ℚ) :
  (whole rise run p).gain slope ≤ max 0 ((whole rise run l).gain slope) := by
  by_cases emptyP : p = []
  · subst emptyP
    simp [whole, gain]
  by_cases emptyQ : q = []
  · subst emptyQ
    rw [eq, append_nil]
    exact le_max_right _ _
  have steep := hl p q eq emptyP emptyQ
  have posP : 0 < (whole rise run p).run :=
    whole_run_pos (fun a ma => pos a (eq ▸ mem_append_left q ma)) emptyP
  have posQ : 0 < (whole rise run q).run :=
    whole_run_pos (fun a ma => pos a (eq ▸ mem_append_right p ma)) emptyQ
  rcases le_total slope (whole rise run p).slope with up | down
  · -- the rest gains as well
    have nonempty : l ≠ [] := by simp [eq, emptyP]
    have posL : 0 < (whole rise run l).run := whole_run_pos pos nonempty
    have zero := gain_slope posL
    have below := (gain_neg posP).mpr steep
    rw [eq, whole_append_gain, ← eq] at zero
    have rest : 0 ≤ (whole rise run q).gain slope := by
      have := gain_anti (whole rise run q) posQ.le (up.trans steep.le)
      linarith
    refine le_max_of_le_right ?_
    rw [eq, whole_append_gain]
    linarith
  · exact le_max_of_le_left ((gain_nonpos posP).mpr down)

lemma leading_single (a : α) : Leading rise run [a] := by
  intro p q eq hnp hnq
  rcases append_eq_singleton_iff.mp eq.symm with ⟨rfl, -⟩ | ⟨-, rfl⟩
  · exact absurd rfl hnp
  · exact absurd rfl hnq

lemma Leading.append {m : List α} (pos : ∀ a ∈ l ++ m, 0 < run a) (hnl : l ≠ [])
  (hnm : m ≠ []) (hll : Leading rise run l) (hlm : Leading rise run m)
  (hs : (whole rise run l).slope < (whole rise run m).slope) : Leading rise run (l ++ m) := by
  intro p q eq hnp hnq
  have posL : 0 < (whole rise run l).run :=
    whole_run_pos (fun a ma => pos a (mem_append_left m ma)) hnl
  have posM : 0 < (whole rise run m).run :=
    whole_run_pos (fun a ma => pos a (mem_append_right l ma)) hnm
  have posP : 0 < (whole rise run p).run :=
    whole_run_pos (fun a ma => pos a (eq ▸ mem_append_left q ma)) hnp
  have posQ : 0 < (whole rise run q).run :=
    whole_run_pos (fun a ma => pos a (eq ▸ mem_append_right p ma)) hnq
  have posAll : 0 < (whole rise run (l ++ m)).run := whole_run_pos pos (by simp [hnl])
  have zero := gain_slope posAll
  set r := (whole rise run (l ++ m)).slope with slope
  rw [whole_append_gain] at zero
  -- the first list is below the slope of both, the second above it
  have between : (whole rise run l).slope < r ∧ r < (whole rise run m).slope := by
    constructor
    · by_contra high
      have up := (gain_nonneg posL).mpr (not_lt.mp high)
      have up' := (gain_pos posM).mpr ((not_lt.mp high).trans_lt hs)
      linarith
    · by_contra low
      have down := (gain_nonpos posM).mpr (not_lt.mp low)
      have down' := (gain_neg posL).mpr (hs.trans_le (not_lt.mp low))
      linarith
  rw [← gain_neg posP]
  rcases append_eq_append_iff.mp eq with ⟨c, rfl, rfl⟩ | ⟨c, rfl, rfl⟩
  · by_cases emptyC : c = []
    · subst emptyC
      rw [append_nil]
      exact (gain_neg posL).mpr between.1
    have low := hlm c q rfl emptyC hnq
    have posC : 0 < (whole rise run c).run := whole_run_pos
      (fun a ma => pos a (by simp [ma])) emptyC
    have belowC := (gain_neg posC).mpr low
    have zeroM := gain_slope posM
    rw [whole_append_gain] at zeroM zero
    have := gain_anti (whole rise run q) posQ.le between.2.le
    rw [whole_append_gain]
    linarith
  · by_cases emptyC : c = []
    · subst emptyC
      rw [append_nil] at between
      exact (gain_neg posP).mpr between.1
    · exact (gain_neg posP).mpr ((hll p c rfl hnp emptyC).trans between.1)

namespace Segments

variable {l : List (List α)} {s : List α}

lemma tail (seg : Segments rise run (s :: l)) : Segments rise run l where
  nonempty t mt := seg.nonempty t (.tail _ mt)
  pos t mt := seg.pos t (.tail _ mt)
  leading t mt := seg.leading t (.tail _ mt)
  falling := (pairwise_cons.mp seg.falling).2

lemma init (seg : Segments rise run (l ++ [s])) : Segments rise run l where
  nonempty t mt := seg.nonempty t (mem_append_left _ mt)
  pos t mt := seg.pos t (mem_append_left _ mt)
  leading t mt := seg.leading t (mem_append_left _ mt)
  falling := by
    have falling := seg.falling
    rw [map_append, Falling, pairwise_append] at falling
    exact falling.1

/-- A leading list that is no steeper than the last segment is one more segment. -/
lemma concat {t : List α} (seg : Segments rise run (l ++ [s])) (nonempty : t ≠ [])
  (pos : ∀ a ∈ t, 0 < run a) (hl : Leading rise run t)
  (lower : (whole rise run t).slope ≤ (whole rise run s).slope) :
  Segments rise run (l ++ [s] ++ [t]) := by
  have both : ∀ {P : List α → Prop}, (∀ u ∈ l ++ [s], P u) → P t → ∀ u ∈ l ++ [s] ++ [t], P u := by
    intro P old new u mu
    rcases mem_append.mp mu with mu | mu
    · exact old u mu
    · exact mem_singleton.mp mu ▸ new
  refine ⟨both seg.nonempty nonempty, both seg.pos pos, both seg.leading hl, ?_⟩
  have falling := seg.falling
  rw [map_append, Falling, pairwise_append]
  refine ⟨falling, pairwise_singleton _ _, ?_⟩
  intro a ma b mb
  rw [map_singleton, mem_singleton] at mb
  rw [mb]
  refine lower.trans ?_
  rw [map_append, mem_append] at ma
  rcases ma with ma | ma
  · rw [map_append, Falling, pairwise_append] at falling
    exact falling.2.2 a ma _ (by simp)
  · rw [map_singleton, mem_singleton] at ma
    rw [ma]

lemma head_steepest (seg : Segments rise run (s :: l)) :
  ∀ t ∈ l, (whole rise run t).slope ≤ (whole rise run s).slope := by
  intro t mt
  exact (pairwise_cons.mp seg.falling).1 _ (mem_map_of_mem mt)

section
variable (seg : Segments rise run l)
include seg

lemma forward : Forward (l.map (whole rise run)) := by
  intro step hm
  obtain ⟨s, ms, rfl⟩ := mem_map.mp hm
  exact whole_run_pos (seg.pos s ms) (seg.nonempty s ms)

/-- No beginning of the list gains more than the segments that gain. -/
lemma gain_le {p q : List α} (eq : l.flatten = p ++ q) (slope : ℚ) :
  (whole rise run p).gain slope ≤ potential slope (l.map (whole rise run)) := by
  induction l generalizing p with
  | nil =>
    have empty : p = [] := by
      simp only [flatten_nil] at eq
      exact (append_eq_nil_iff.mp eq.symm).1
    simp [empty, whole, gain, potential]
  | cons s l ih =>
    rw [flatten_cons] at eq
    rw [map_cons, potential_cons]
    rcases append_eq_append_iff.mp eq with ⟨c, rfl, rest⟩ | ⟨c, eqS, -⟩
    · have later := ih seg.tail rest
      have first := le_max_right 0 ((whole rise run s).gain slope)
      rw [whole_append_gain]
      linarith
    · have first := (seg.leading s (.head _)).gain_le (seg.pos s (.head _)) eqS slope
      have later := potential_nonneg slope (l.map (whole rise run))
      linarith

/-- Some beginning of the list gains just that. -/
lemma gain_attained (slope : ℚ) : ∃ p q, l.flatten = p ++ q ∧
    (whole rise run p).gain slope = potential slope (l.map (whole rise run)) := by
  induction l with
  | nil => exact ⟨[], [], rfl, by simp [whole, Step.gain, potential]⟩
  | cons s l ih =>
    have posS : 0 < (whole rise run s).run := whole_run_pos
      (seg.pos s (.head _)) (seg.nonempty s (.head _))
    rw [map_cons, potential_cons]
    rcases le_total slope (whole rise run s).slope with up | down
    · obtain ⟨p, q, eq, gain⟩ := ih seg.tail
      refine ⟨s ++ p, q, by rw [flatten_cons, eq, append_assoc], ?_⟩
      rw [whole_append_gain, gain, max_eq_right ((gain_nonneg posS).mpr up)]
    refine ⟨[], _, rfl, ?_⟩
    have later : potential slope (l.map (whole rise run)) = 0 := by
      refine potential_eq_zero fun step hm => ?_
      obtain ⟨t, mt, rfl⟩ := mem_map.mp hm
      refine (gain_nonpos (seg.tail.forward _ hm)).mpr ?_
      exact (seg.head_steepest t mt).trans down
    rw [max_eq_left ((gain_nonpos posS).mpr down), later]
    simp [whole, Step.gain]

end

/-- The first of two ways to cut a list does not end inside the first segment of the other. -/
lemma head_ends {c : List α} (seg : Segments rise run (s :: l)) (pos : ∀ a ∈ s ++ c, 0 < run a)
  {m : List α} (hl : Leading rise run (s ++ c)) (eq : l.flatten = c ++ m) : c = [] := by
  by_contra nonemptyC
  have nonemptyS := seg.nonempty s (.head _)
  have posS : 0 < (whole rise run s).run := whole_run_pos (seg.pos s (.head _)) nonemptyS
  have posAll : 0 < (whole rise run (s ++ c)).run := whole_run_pos pos (by simp [nonemptyS])
  have steep := hl s c rfl nonemptyS nonemptyC
  have low := seg.tail.gain_le eq (whole rise run s).slope
  have zero : potential (whole rise run s).slope (l.map (whole rise run)) = 0 := by
    refine potential_eq_zero fun step hm => ?_
    obtain ⟨t, mt, rfl⟩ := mem_map.mp hm
    exact (gain_nonpos (seg.tail.forward _ hm)).mpr (seg.head_steepest t mt)
  have high := (gain_pos posAll).mpr steep
  rw [whole_append_gain, gain_slope posS] at high
  linarith

/-- A list is cut into sorted leading segments in one way. -/
theorem unique {others : List (List α)} (seg : Segments rise run l)
  (seg' : Segments rise run others) (eq : l.flatten = others.flatten) : l = others := by
  induction l generalizing others with
  | nil =>
    cases others with
    | nil => rfl
    | cons o others =>
      have nonempty := seg'.nonempty o (.head _)
      simp [nonempty] at eq
  | cons s l ih =>
    have nonempty := seg.nonempty s (.head _)
    cases others with
    | nil => simp [nonempty] at eq
    | cons o others =>
      rw [flatten_cons, flatten_cons] at eq
      have same : s = o ∧ l.flatten = others.flatten := by
        rcases append_eq_append_iff.mp eq with ⟨c, rfl, hl⟩ | ⟨c, rfl, hl⟩
        · have empty := seg.head_ends (seg'.pos _ (.head _)) (seg'.leading _ (.head _)) hl
          subst empty
          exact ⟨(append_nil _).symm, hl⟩
        · have empty := seg'.head_ends (seg.pos _ (.head _)) (seg.leading _ (.head _)) hl
          subst empty
          exact ⟨append_nil _, hl.symm⟩
      obtain ⟨rfl, hl⟩ := same
      rw [ih seg.tail seg'.tail hl]

end Segments

end StepDiagram
