import Mathlib

/-!
# Greedy orders

Items are listed one by one. An item is ready when all items it needs are listed, and the next
item is the first of the ready ones in a given priority. If the needs have no cycle, then some
item is ready until all are listed, and the list is determined by the needs and the priority.
-/

namespace GreedyOrder

open List

variable {K : Type*} {a : K} {l listed listed' : List K}

/-- All items that this one needs are listed. -/
def Ready (items : Finset K) (needs : K → K → Prop) (listed : List K) (a : K) : Prop :=
  ∀ b ∈ items, needs a b → b ∈ listed

/-- Each listed item was ready, and ahead of the other ready ones. -/
structure IsGreedy (items : Finset K) (needs before : K → K → Prop) (l : List K) : Prop where
  nodup : l.Nodup
  mem : ∀ a, a ∈ l ↔ a ∈ items
  ready : ∀ p a q, l = p ++ a :: q → Ready items needs p a
  first : ∀ p a q, l = p ++ a :: q → ∀ b ∈ items, b ∉ p → b ≠ a → Ready items needs p b →
    before a b

variable {items : Finset K} {needs before : K → K → Prop}

/-- Going down from an item that is not listed, one comes to a ready one. -/
lemma exists_ready {level : K → ℕ} {higher : K → K → Prop}
  (refl : ∀ a, higher a a) (trans : ∀ a b c, higher a b → higher b c → higher a c)
  (descends : ∀ a ∈ items, ∀ b ∈ items, needs a b → level b < level a ∧ higher b a)
  (hi : a ∈ items) (open_ : a ∉ listed) :
  ∃ b ∈ items, b ∉ listed ∧ Ready items needs listed b ∧ higher b a := by
  induction hn : level a using Nat.strong_induction_on generalizing a with
  | _ n ih =>
    by_cases hr : Ready items needs listed a
    · exact ⟨a, hi, open_, hr, refl a⟩
    rw [Ready] at hr
    push Not at hr
    obtain ⟨b, hi', hne, open'⟩ := hr
    obtain ⟨lower, up⟩ := descends a hi b hi' hne
    obtain ⟨c, hi'', open'', hr, up'⟩ := ih (level b) (hn ▸ lower) hi' open' rfl
    exact ⟨c, hi'', open'', hr, trans c b a up' up⟩

/-- Where the needs have no cycle, some item is ready as long as one is open. -/
lemma exists_ready_of_level (level : K → ℕ)
  (descends : ∀ a ∈ items, ∀ b ∈ items, needs a b → level b < level a)
  (hi : a ∈ items) (open_ : a ∉ listed) : ∃ b ∈ items, b ∉ listed ∧ Ready items needs listed b := by
  obtain ⟨b, hi', open', hr, -⟩ := exists_ready (fun _ => trivial)
    (fun _ _ _ _ _ => trivial) (fun a ma b mb hn => ⟨descends a ma b mb hn, trivial⟩)
    hi open_
  exact ⟨b, hi', open', hr⟩

variable (items needs before) in
/-- A greedy continuation of what is listed. -/
inductive Continues : List K → List K → Prop
  | nil {listed : List K} (all : ∀ a ∈ items, a ∈ listed) : Continues listed []
  | cons {listed : List K} {a : K} {rest : List K} (isItem : a ∈ items) (open_ : a ∉ listed)
      (ready : Ready items needs listed a)
      (first : ∀ b ∈ items, b ∉ listed → b ≠ a → Ready items needs listed b → before a b)
      (continues : Continues (listed ++ [a]) rest) : Continues listed (a :: rest)

lemma Ready.congr (hs : ∀ a ∈ items, a ∈ listed ↔ a ∈ listed') :
  Ready items needs listed a ↔ Ready items needs listed' a := by
  refine forall_congr' fun b => forall_congr' fun hi => ?_
  rw [hs b hi]

/-- Only the items among the listed ones matter. -/
lemma Continues.congr (continues : Continues items needs before listed l)
  (hs : ∀ a ∈ items, a ∈ listed ↔ a ∈ listed') : Continues items needs before listed' l := by
  induction continues generalizing listed' with
  | nil all => exact .nil fun a hi => (hs a hi).mp (all a hi)
  | cons hi open_ hr first _ ih =>
    refine .cons hi (fun old => open_ ((hs _ hi).mpr old)) ((Ready.congr hs).mp hr)
      ?_ (ih fun b hi' => ?_)
    · intro b hi' open' ne hr'
      exact first b hi' (fun old => open' ((hs b hi').mp old)) ne ((Ready.congr hs).mpr hr')
    · rw [mem_append, mem_append, hs b hi']

lemma Continues.isGreedy (continues : Continues items needs before [] l) :
  IsGreedy items needs before l := by
  have spec : ∀ {listed l : List K}, Continues items needs before listed l →
    (l.Nodup ∧ ∀ a ∈ l, a ∉ listed) ∧ (∀ a ∈ l, a ∈ items) ∧
    (∀ a ∈ items, a ∈ listed ∨ a ∈ l) ∧ ∀ p a q, l = p ++ a :: q →
      Ready items needs (listed ++ p) a ∧ ∀ b ∈ items, b ∉ listed ++ p → b ≠ a →
        Ready items needs (listed ++ p) b → before a b := by
    intro listed l continues
    induction continues with
    | nil all =>
      refine ⟨⟨nodup_nil, by simp⟩, by simp, fun a hi => .inl (all a hi), ?_⟩
      intro p a q eq
      simp at eq
    | @cons listed a rest hi open_ hr first _ ih =>
      obtain ⟨⟨nodup, fresh⟩, sub, all, hs⟩ := ih
      have new : a ∉ rest := fun hl => fresh a hl (by simp)
      refine ⟨⟨nodup_cons.mpr ⟨new, nodup⟩, ?_⟩, ?_, ?_, ?_⟩
      · intro b hm
        rcases mem_cons.mp hm with rfl | hl
        · exact open_
        · exact fun old => fresh b hl (mem_append_left _ old)
      · exact forall_mem_cons.mpr ⟨hi, sub⟩
      · intro b hi'
        have := all b hi'
        simp only [mem_append, mem_cons] at this ⊢
        tauto
      · intro p b q eq
        cases p with
        | nil =>
          obtain ⟨rfl, rfl⟩ := List.cons.inj eq
          rw [append_nil]
          exact ⟨hr, first⟩
        | cons c p =>
          obtain ⟨rfl, eq'⟩ := List.cons.inj eq
          rw [append_cons]
          exact hs p b q eq'
  obtain ⟨⟨nodup, -⟩, sub, all, hs⟩ := spec continues
  refine ⟨nodup, fun a => ⟨sub a, fun hi => (all a hi).resolve_left (by simp)⟩, ?_, ?_⟩
  · exact fun p a q eq => (hs p a q eq).1
  · exact fun p a q eq => (hs p a q eq).2

namespace IsGreedy

variable {b : K} {l l' p q : List K}

section
variable (hg : IsGreedy items needs before l)
include hg

lemma needs_before {a : K} (eq : l = p ++ a :: q) (hi : b ∈ items) (needed : needs a b) : b ∈ p :=
  hg.ready p a q eq b hi needed

lemma notMem_of_append (eq : l = p ++ q) (hl : b ∈ q) : b ∉ p := by
  intro he
  have distinct := hg.nodup
  rw [eq, nodup_append] at distinct
  exact distinct.2.2 b he b hl rfl

/-- Where no need leads to a lower item and the priority is to the higher ones, the list
falls. -/
lemma falling (level : K → ℕ) {higher : K → K → Prop} (refl : ∀ a, higher a a)
  (trans : ∀ a b c, higher a b → higher b c → higher a c)
  (descends : ∀ a ∈ items, ∀ b ∈ items, needs a b → level b < level a ∧ higher b a)
  (priority : ∀ a b, before a b → higher a b) : l.Pairwise higher := by
  have later : ∀ p a q, l = p ++ a :: q → ∀ b ∈ q, higher a b := by
    intro p a q eq b isLater
    have isItem := (hg.mem b).mp (by simp [eq, isLater])
    have open_ := hg.notMem_of_append eq (.tail a isLater)
    obtain ⟨c, hi', open', hr, up⟩ := exists_ready refl trans descends isItem open_
    by_cases hs : c = a
    · exact hs ▸ up
    · exact trans a c b (priority a c (hg.first p a q eq c hi' open' hs hr)) up
  have rest : ∀ p q, l = p ++ q → q.Pairwise higher := by
    intro p q
    induction q generalizing p with
    | nil => exact fun _ => List.Pairwise.nil
    | cons a q ih =>
      intro eq
      exact pairwise_cons.mpr ⟨later p a q eq, ih (p ++ [a]) (by simp [eq])⟩
  exact rest [] l rfl

end

lemma rest_unique (ha : ∀ a ∈ items, ∀ b ∈ items, before a b → ¬ before b a)
  (hg : IsGreedy items needs before (p ++ l))
  (hg' : IsGreedy items needs before (p ++ l')) : l = l' := by
  induction l generalizing p l' with
  | nil =>
    cases l' with
    | nil => rfl
    | cons a l' =>
      have isItem := (hg'.mem a).mp (by simp)
      have listed := (hg.mem a).mpr isItem
      rw [append_nil] at listed
      exact absurd listed (hg'.notMem_of_append rfl (.head _))
  | cons a l ih =>
    have isItem := (hg.mem a).mp (by simp)
    have notListed : a ∉ p := hg.notMem_of_append rfl (.head _)
    cases l' with
    | nil =>
      have listed := (hg'.mem a).mpr isItem
      rw [append_nil] at listed
      exact absurd listed notListed
    | cons a' l' =>
      have isItem' := (hg'.mem a').mp (by simp)
      have notListed' : a' ∉ p := hg'.notMem_of_append rfl (.head _)
      have same : a = a' := by
        by_contra ne
        exact ha a isItem a' isItem' (hg.first p a l rfl a' isItem' notListed' (Ne.symm ne)
            (hg'.ready p a' l' rfl))
          (hg'.first p a' l' rfl a isItem notListed ne (hg.ready p a l rfl))
      subst same
      rw [append_cons] at hg hg'
      rw [ih hg hg']

lemma map {K' : Type*} [DecidableEq K'] (hg : IsGreedy items needs before l) {f : K → K'}
  {needs' before' : K' → K' → Prop} (inj : ∀ a ∈ items, ∀ b ∈ items, f a = f b → a = b)
  (needs_iff : ∀ a ∈ items, ∀ b ∈ items, needs' (f a) (f b) ↔ needs a b)
  (before_iff : ∀ a ∈ items, ∀ b ∈ items, before a b → before' (f a) (f b)) :
  IsGreedy (items.image f) needs' before' (l.map f) := by
  have item : ∀ a ∈ l, a ∈ items := fun a => (hg.mem a).mp
  have ready : ∀ {p : List K} {a : K}, (∀ b ∈ p, b ∈ items) → a ∈ items →
    (Ready (items.image f) needs' (p.map f) (f a) ↔ Ready items needs p a) := by
    intro p a sub hi
    constructor
    · intro ready b hi' hn
      obtain ⟨c, listed, eq⟩ := mem_map.mp (ready (f b) (Finset.mem_image_of_mem f hi')
        ((needs_iff a hi b hi').mpr hn))
      exact inj c (sub c listed) b hi' eq ▸ listed
    · intro ready b hi' hn
      obtain ⟨c, hi'', rfl⟩ := Finset.mem_image.mp hi'
      exact mem_map_of_mem (ready c hi'' ((needs_iff a hi c hi'').mp hn))
  have divided : ∀ p a q, l.map f = p ++ a :: q →
    ∃ p₀ a₀ q₀, l = p₀ ++ a₀ :: q₀ ∧ p = p₀.map f ∧ a = f a₀ := by
    intro p a q eq
    obtain ⟨p₀, rest, rfl, rfl, eq'⟩ := map_eq_append_iff.mp eq
    obtain ⟨a₀, q₀, rfl, rfl, -⟩ := map_eq_cons_iff.mp eq'
    exact ⟨p₀, a₀, q₀, rfl, rfl, rfl⟩
  constructor
  · exact hg.nodup.map_on fun a ma b mb => inj a (item a ma) b (item b mb)
  · intro a
    simp only [mem_map, Finset.mem_image, hg.mem]
  · intro p a q eq
    obtain ⟨p₀, a₀, q₀, eq₀, rfl, rfl⟩ := divided p a q eq
    refine (ready (fun b mb => item b ?_) (item a₀ ?_)).mpr (hg.ready p₀ a₀ q₀ eq₀)
    · simp [eq₀, mb]
    · simp [eq₀]
  · intro p a q eq b hi notListed ne hr
    obtain ⟨p₀, a₀, q₀, eq₀, rfl, rfl⟩ := divided p a q eq
    obtain ⟨b₀, isItem₀, rfl⟩ := Finset.mem_image.mp hi
    have isItemA : a₀ ∈ items := item a₀ (by simp [eq₀])
    refine before_iff a₀ isItemA b₀ isItem₀ ?_
    refine hg.first p₀ a₀ q₀ eq₀ b₀ isItem₀ ?_ ?_ ?_
    · exact fun listed => notListed (mem_map_of_mem listed)
    · exact fun hs => ne (hs ▸ rfl)
    · exact (ready (fun c mc => item c (by simp [eq₀, mc])) isItem₀).mp hr

theorem unique (ha : ∀ a ∈ items, ∀ b ∈ items, before a b → ¬ before b a)
  (hg : IsGreedy items needs before l) (hg' : IsGreedy items needs before l') :
  l = l' := rest_unique (p := []) ha hg hg'

end IsGreedy

end GreedyOrder
