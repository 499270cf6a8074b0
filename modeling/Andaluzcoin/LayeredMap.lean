import Mathlib

/-!
# Partial maps stacked in layers

A layer records edits to a partial map: `none` leaves a key alone, `some none` removes it,
`some (some x)` sets it. A stack of layers over a base map is read from the top down. Merging the
top layer into the next one changes only what the lower depths show. Lists of writes are applied
in order, and a step that takes entries out and puts others in can be undone.
-/

universe u v

variable {K : Type u} {V : Type v}

/-- The edits one layer makes to the map below it. -/
abbrev Edits (K : Type u) (V : Type v) := K → Option (Option V)

structure LayeredMap (K : Type u) (V : Type v) where
  layers : List (Edits K V)
  base : K → Option V

namespace LayeredMap

open List Function

/-- The map seen through one layer. -/
def overlay (edits : Edits K V) (below : K → Option V) : K → Option V :=
  fun k => (edits k).getD (below k)

/-- What each depth of a stack shows, from the top layer down to the base. -/
def stacked (base : K → Option V) : List (Edits K V) → List (K → Option V)
  | [] => [base]
  | edits :: rest =>
    overlay edits ((stacked base rest).headD base) :: stacked base rest

def views (m : LayeredMap K V) : List (K → Option V) := stacked m.base m.layers

/-- The map seen through every layer. -/
def top (m : LayeredMap K V) : K → Option V := m.views.headD m.base

/-- A layer without edits on top. -/
def push (m : LayeredMap K V) : LayeredMap K V :=
  { m with layers := (fun _ => none) :: m.layers }

/-- Forget the top layer and its edits. -/
def pop (m : LayeredMap K V) : LayeredMap K V :=
  { m with layers := m.layers.tail }

/-- Discard the edits of the top layer. -/
def clearTop (m : LayeredMap K V) : LayeredMap K V :=
  match m.layers with
  | [] => m
  | _ :: rest => { m with layers := (fun _ => none) :: rest }

/-- Record one edit in the top layer. -/
def edit [DecidableEq K] (m : LayeredMap K V) (k : K) (x : Option V) : LayeredMap K V :=
  match m.layers with
  | [] => m
  | top :: rest => { m with layers := update top k (some x) :: rest }

/-- Move the edits of the top layer into the next one, or into the base. -/
def mergeDown (m : LayeredMap K V) : LayeredMap K V :=
  match m.layers with
  | [] => m
  | [top] => ⟨[fun _ => none], overlay top m.base⟩
  | top :: next :: rest =>
    { m with layers := (fun _ => none) :: (fun k => (top k).or (next k)) :: rest }

@[simp] lemma overlay_none (below : K → Option V) : overlay (fun _ => none) below = below := rfl

lemma overlay_update [DecidableEq K] (edits : Edits K V) (below : K → Option V)
  (k : K) (x : Option V) :
  overlay (update edits k (some x)) below = update (overlay edits below) k x := by
  funext k'
  by_cases hs : k' = k
  · subst hs
    simp [overlay]
  · simp [overlay, hs]

lemma overlay_or (upper lower : Edits K V) (below : K → Option V) :
  overlay (fun k => (upper k).or (lower k)) below = overlay upper (overlay lower below) := by
  funext k
  cases h : upper k <;> simp [overlay, h]

lemma views_push (m : LayeredMap K V) : m.push.views = m.top :: m.views := rfl

section
variable (top : Edits K V)
include top

variable (rest : List (Edits K V)) (base : K → Option V)
include rest base

lemma views_clearTop :
  (clearTop ⟨top :: rest, base⟩).views = LayeredMap.top ⟨rest, base⟩ :: views ⟨rest, base⟩ := rfl

lemma views_edit [DecidableEq K] (k : K) (x : Option V) : (edit ⟨top :: rest, base⟩ k x).views
    = update (LayeredMap.top ⟨top :: rest, base⟩) k x :: views ⟨rest, base⟩ := by
  simp [edit, views, stacked, LayeredMap.top, overlay_update]

lemma views_mergeDown : (mergeDown ⟨top :: rest, base⟩).views
    = LayeredMap.top ⟨top :: rest, base⟩ :: LayeredMap.top ⟨top :: rest, base⟩
        :: (views ⟨rest, base⟩).tail := by
  cases rest with
  | nil => simp [mergeDown, views, stacked, LayeredMap.top]
  | cons next rest => simp [mergeDown, views, stacked, LayeredMap.top, overlay_or]

end

section
variable [DecidableEq K] {E : Type*} {k : K}

/-- Write a list of keyed values into a map, in order. -/
def writeAll (value : E → Option V) (below : K → Option V) (entries : List (K × E)) :
  K → Option V :=
  entries.foldl (fun view p => update view p.1 (value p.2)) below

variable (value : E → Option V)
include value

variable (entries : List (K × E)) (below : K → Option V)
include entries below

lemma writeAll_of_notMem (ha : k ∉ entries.map Prod.fst) :
  writeAll value below entries k = below k := by
  induction entries generalizing below with
  | nil => rfl
  | cons p rest ih =>
    simp only [map_cons, mem_cons, not_or] at ha
    calc writeAll value below (p :: rest) k = update below p.1 (value p.2) k := ih _ ha.2
      _ = below k := update_of_ne ha.1 _ _

lemma writeAll_of_mem (nodup : (entries.map Prod.fst).Nodup) {e : E} (hm : (k, e) ∈ entries) :
  writeAll value below entries k = value e := by
  induction entries generalizing below with
  | nil => cases hm
  | cons p rest ih =>
    simp only [map_cons, nodup_cons] at nodup
    rcases mem_cons.mp hm with rfl | hl
    · calc writeAll value below ((k, e) :: rest) k
          = update below k (value e) k := writeAll_of_notMem value rest _ nodup.1
        _ = value e := update_self _ _ _
    · exact ih _ nodup.2 hl

/-- A part of the entries, each key in one entry: every key holds its old or its new value. -/
lemma writeAll_take (nodup : (entries.map Prod.fst).Nodup) (n : ℕ) (k : K) :
  writeAll value below (entries.take n) k = below k ∨
    writeAll value below (entries.take n) k = writeAll value below entries k := by
  by_cases hl : k ∈ (entries.take n).map Prod.fst
  · obtain ⟨⟨k', e⟩, hm, rfl⟩ := mem_map.mp hl
    have nodupTake := nodup.sublist ((take_sublist n entries).map Prod.fst)
    right
    rw [writeAll_of_mem value _ below nodupTake hm,
      writeAll_of_mem value entries below nodup (mem_of_mem_take hm)]
  · left
    exact writeAll_of_notMem value _ below hl

end

variable {k : K} {m : K → Option V} {writes : List (K × Option V)} {entries : List (K × V)}

/-- The writes that take entries out of a map, and those that put entries in. -/
def takes (entries : List (K × V)) : List (K × Option V) := entries.map fun p => (p.1, none)

def puts (entries : List (K × V)) : List (K × Option V) := entries.map fun p => (p.1, some p.2)

lemma takes_keys (entries : List (K × V)) : (takes entries).map Prod.fst = entries.map Prod.fst := by
  simp [takes]

lemma puts_keys (entries : List (K × V)) : (puts entries).map Prod.fst = entries.map Prod.fst := by
  simp [puts]

variable [DecidableEq K]

/-- Apply a list of writes, where writing `none` removes the key. -/
def apply (m : K → Option V) (writes : List (K × Option V)) : K → Option V := writeAll id m writes

lemma apply_cons (m : K → Option V) (k : K) (x : Option V) (writes : List (K × Option V)) :
  apply m ((k, x) :: writes) = apply (update m k x) writes := rfl

lemma apply_append (m : K → Option V) (first second : List (K × Option V)) :
  apply m (first ++ second) = apply (apply m first) second := by
  simp [apply, writeAll]

lemma apply_of_notMem (ha : k ∉ writes.map Prod.fst) : apply m writes k = m k :=
  writeAll_of_notMem id writes m ha

/-- What is written last at a key does not depend on the map it is written to. -/
lemma apply_of_mem (hli : k ∈ writes.map Prod.fst)
  (m m' : K → Option V) : apply m writes k = apply m' writes k := by
  induction writes generalizing m m' with
  | nil => cases hli
  | cons p rest ih =>
    obtain ⟨k', x⟩ := p
    rw [apply_cons, apply_cons]
    by_cases hl : k ∈ rest.map Prod.fst
    · exact ih hl _ _
    have here : k = k' := by
      rcases mem_cons.mp hli with hs | hm
      · exact hs
      · exact absurd hm hl
    rw [apply_of_notMem hl, apply_of_notMem hl, here]
    simp

/-- Every write that names `k` writes `x` there. -/
lemma apply_of_forall {x : Option V}
  (hli : k ∈ writes.map Prod.fst) (all : ∀ p ∈ writes, p.1 = k → p.2 = x) :
  apply m writes k = x := by
  induction writes generalizing m with
  | nil => cases hli
  | cons p rest ih =>
    obtain ⟨k', y⟩ := p
    rw [apply_cons]
    by_cases hl : k ∈ rest.map Prod.fst
    · exact ih hl fun q hm => all q (.tail _ hm)
    have here : k' = k := by
      rcases mem_cons.mp hli with hs | hm
      · exact hs.symm
      · exact absurd hm hl
    subst here
    rw [apply_of_notMem hl, update_self]
    exact all (k', y) (.head _) rfl

/-- A property of all values of a map that the values written have as well. -/
lemma apply_preserves {P : V → Prop}
  (held : ∀ k x, m k = some x → P x) (written : ∀ p ∈ writes, ∀ x, p.2 = some x → P x) :
  ∀ k x, apply m writes k = some x → P x := by
  induction writes generalizing m with
  | nil => exact held
  | cons p rest ih =>
    obtain ⟨k', y⟩ := p
    rw [apply_cons]
    refine ih (fun k x hf => ?_) fun q hm => written q (.tail _ hm)
    by_cases hs : k = k'
    · subst hs
      rw [update_self] at hf
      exact written (k, y) (.head _) x hf
    · rw [update_of_ne hs] at hf
      exact held k x hf

lemma apply_takes (hl : k ∈ entries.map Prod.fst) : apply m (takes entries) k = none := by
  refine apply_of_forall (by rwa [takes_keys]) fun p hm _ => ?_
  obtain ⟨q, -, rfl⟩ := mem_map.mp hm
  rfl

lemma apply_puts {x : V} (nodup : (entries.map Prod.fst).Nodup) (hm : (k, x) ∈ entries) :
  apply m (puts entries) k = some x := by
  refine writeAll_of_mem id (puts entries) m (by rwa [puts_keys]) ?_
  exact mem_map.mpr ⟨(k, x), hm, rfl⟩

/-- Taking known entries out and putting entries in at free keys is undone by removing the
latter and restoring the former, in whatever order. -/
theorem apply_undo {taken put restored : List (K × V)}
  (held : ∀ p ∈ taken, m p.1 = some p.2) (takenNodup : (taken.map Prod.fst).Nodup)
  (free : ∀ p ∈ put, apply m (takes taken) p.1 = none) (perm : restored.Perm taken) :
  apply (apply (apply m (takes taken)) (puts put)) (takes put ++ puts restored) = m := by
  have restoredNodup : (restored.map Prod.fst).Nodup :=
    ((perm.map Prod.fst).nodup_iff).mpr takenNodup
  funext k
  rw [apply_append]
  by_cases wasTaken : k ∈ taken.map Prod.fst
  · obtain ⟨⟨k', x⟩, hm, rfl⟩ := mem_map.mp wasTaken
    rw [apply_puts restoredNodup (perm.mem_iff.mpr hm), held _ hm]
  have notRestored : k ∉ (puts restored).map Prod.fst := by
    rw [puts_keys, (perm.map Prod.fst).mem_iff]
    exact wasTaken
  have kept : apply m (takes taken) k = m k := apply_of_notMem (by rwa [takes_keys])
  rw [apply_of_notMem notRestored]
  by_cases wasPut : k ∈ put.map Prod.fst
  · obtain ⟨p, hm, rfl⟩ := mem_map.mp wasPut
    rw [apply_takes wasPut, ← kept, free p hm]
  · rw [apply_of_notMem (by rwa [takes_keys]), apply_of_notMem (by rwa [puts_keys]), kept]

/-- Writing is idempotent from any mixture of an old and a new map: undo what led from
`f` to the old map `a`, redo what led to the new map `b`. -/
theorem apply_replay {a b f d : K → Option V} {undo writesA writesB : List (K × Option V)}
  (undone : apply a undo = f) (old : apply f writesA = a)
  (hc : ∀ k ∈ writesA.map Prod.fst, k ∈ undo.map Prod.fst) (new : apply f writesB = b)
  (hm : ∀ k, d k = a k ∨ d k = b k) : apply (apply d undo) writesB = b := by
  funext k
  by_cases redone : k ∈ writesB.map Prod.fst
  · rw [apply_of_mem redone _ f, new]
  have unchanged : b k = f k := by rw [← new, apply_of_notMem redone]
  rw [apply_of_notMem redone, unchanged]
  by_cases reverted : k ∈ undo.map Prod.fst
  · rw [apply_of_mem reverted d a, undone]
  have kept : a k = f k := by
    rw [← old, apply_of_notMem fun written => reverted (hc k written)]
  rw [apply_of_notMem reverted]
  rcases hm k with ho | isNew
  · rw [ho, kept]
  · rw [isNew, unchanged]

end LayeredMap
