import Mathlib

/-!
# Ordered indexes

A list kept in the order of a key, with the rules of a container that other orders share: an element
that is changed stays where it is as long as the order allows it, and goes behind the elements of
the same key otherwise. Elements are addressed by a test that one of them passes.
-/

namespace OrderedIndex

open List Option

section
variable {α K : Type*} [LinearOrder K] (key : α → K)

/-- Behind the last element whose key is not greater. -/
def insertUpper (x : α) (l : List α) : List α :=
  l.takeWhile (fun y => key y ≤ key x) ++ x :: l.dropWhile (fun y => key y ≤ key x)

/-- What stands before the addressed element. -/
def before (is : α → Bool) (l : List α) : List α := l.takeWhile fun y => !is y

/-- What stands behind the addressed element. -/
def after (is : α → Bool) (l : List α) : List α := (l.dropWhile fun y => !is y).tail

/-- An element with its neighbours, moved if it is out of order. -/
def place (front : List α) (x : α) (back : List α) : List α :=
  if (front.getLast?.all fun y => key y ≤ key x) && (back.head?.all fun y => key x ≤ key y)
  then front ++ x :: back
  else insertUpper key x (front ++ back)

/-- Change the addressed element. -/
def modify (is : α → Bool) (f : α → α) (l : List α) : List α :=
  match l.find? is with
  | none => l
  | some a => place key (before is l) (f a) (after is l)

/-- The elements are in the order of their keys. -/
def Ordered (l : List α) : Prop := l.Pairwise fun a b => key a ≤ key b

end

variable {α K : Type*} [LinearOrder K] {key : α → K} {l : List α} {front rest : List α}

lemma insertUpper_perm (x : α) (l : List α) : (insertUpper key x l).Perm (x :: l) := by
  rw [insertUpper]
  refine perm_middle.trans ?_
  rw [takeWhile_append_dropWhile]

section
variable (ordered : Ordered key l) {p : α → Bool}
include ordered

/-- In order, the elements that pass a test which greater ones do not pass stand in front. -/
lemma Ordered.span_eq_filter (down : ∀ a ∈ l, ∀ b ∈ l, key a ≤ key b → p b = true → p a = true) :
  l.takeWhile p = l.filter p ∧ l.dropWhile p = l.filter fun a => !p a := by
  induction l with
  | nil => exact ⟨rfl, rfl⟩
  | cons a l ih =>
    obtain ⟨first, rest⟩ := pairwise_cons.mp ordered
    cases pass : p a with
    | true => simp [pass, ih rest fun b hmb c hmc => down b (.tail a hmb) c (.tail a hmc)]
    | false =>
      have fails : ∀ b ∈ l, p b = false := fun b hm => Bool.eq_false_iff.mpr fun passB =>
        Bool.eq_false_iff.mp pass (down a (.head _) b (.tail a hm) (first b hm) passB)
      have all : l.filter (fun a => !p a) = l := filter_eq_self.mpr (by simpa using fails)
      simpa [pass, all] using fails

lemma insertUpper_ordered {x : α} : Ordered key (insertUpper key x l) := by
  have down : ∀ a ∈ l, ∀ b ∈ l, key a ≤ key b → decide (key b ≤ key x) = true →
    decide (key a ≤ key x) = true := by
    intro a _ b _ le pass
    simpa using le.trans (by simpa using pass)
  rw [insertUpper, (ordered.span_eq_filter down).1, (ordered.span_eq_filter down).2]
  have greater : ∀ b ∈ l.filter fun a => !decide (key a ≤ key x), key x ≤ key b := fun b hm => by
    simpa using le_of_not_ge (of_decide_eq_false (by simpa using (mem_filter.mp hm).2))
  refine pairwise_append.mpr
    ⟨ordered.filter _, pairwise_cons.mpr ⟨greater, ordered.filter _⟩, fun a hma => ?_⟩
  have small : key a ≤ key x := by simpa using (mem_filter.mp hma).2
  exact forall_mem_cons.mpr ⟨small, fun b hmb => small.trans (greater b hmb)⟩

lemma Ordered.le_getLast {a last : α} (hl : l.getLast? = some last)
  (hm : a ∈ l) : key a ≤ key last := by
  obtain ⟨front, rfl⟩ := getLast?_eq_some_iff.mp hl
  rcases mem_append.mp hm with hm | hs
  · exact (pairwise_append.mp ordered).2.2 a hm last (.head _)
  · rw [mem_singleton.mp hs]

lemma Ordered.head_le {a first : α} (hf : l.head? = some first)
  (hm : a ∈ l) : key first ≤ key a := by
  obtain ⟨back, rfl⟩ := head?_eq_some_iff.mp hf
  rcases mem_cons.mp hm with rfl | hm
  · exact le_rfl
  · exact (pairwise_cons.mp ordered).1 a hm

/-- The first element that passes a test is not greater than any other that does. -/
lemma Ordered.find?_le {a b : α} (hfo : l.find? p = some a)
  (hm : b ∈ l) (hp : p b = true) : key a ≤ key b := by
  obtain ⟨-, front, back, rfl, hf⟩ := find?_eq_some_iff_append.mp hfo
  obtain ⟨-, hob, -⟩ := pairwise_append.mp ordered
  rcases mem_append.mp hm with hm | hm
  · have := hf b hm
    rw [hp] at this
    cases this
  · rcases mem_cons.mp hm with rfl | hm
    · exact le_rfl
    · exact (pairwise_cons.mp hob).1 b hm

end

lemma place_perm (front : List α) (x : α) (back : List α) :
  (place key front x back).Perm (x :: (front ++ back)) := by
  rw [place]
  split
  · exact perm_middle
  · exact insertUpper_perm x _

lemma place_ordered {back : List α} {x : α} (ordered : Ordered key (front ++ back)) :
  Ordered key (place key front x back) := by
  rw [place]
  split
  · next inPlace =>
    rw [Bool.and_eq_true, Option.all_eq_true, Option.all_eq_true] at inPlace
    obtain ⟨hof, hob, across⟩ := pairwise_append.mp ordered
    have lower : ∀ a ∈ front, key a ≤ key x := by
      intro a hm
      obtain ⟨last, hl⟩ := ne_none_iff_exists'.mp (mt getLast?_eq_none_iff.mp (ne_nil_of_mem hm))
      exact (Ordered.le_getLast hof hl hm).trans (of_decide_eq_true (inPlace.1 last hl))
    have upper : ∀ b ∈ back, key x ≤ key b := by
      intro b hm
      obtain ⟨first, hf⟩ := ne_none_iff_exists'.mp (mt head?_eq_none_iff.mp (ne_nil_of_mem hm))
      exact (of_decide_eq_true (inPlace.2 first hf)).trans (Ordered.head_le hob hf hm)
    refine pairwise_append.mpr ⟨hof, pairwise_cons.mpr ⟨upper, hob⟩, ?_⟩
    intro a hma b hmb
    rcases mem_cons.mp hmb with rfl | hmb
    · exact lower a hma
    · exact across a hma b hmb
  · exact insertUpper_ordered ordered

/-- An element that is the only one to pass the test is found between its neighbours. -/
lemma split_at {is : α → Bool} {a : α} (back : List α) (hp : is a = true)
  (only : ∀ b ∈ front, is b = false) :
  before is (front ++ a :: back) = front ∧ after is (front ++ a :: back) = back ∧
    (front ++ a :: back).find? is = some a := by
  have skip : ∀ b ∈ front, (!is b) = true := fun b hm => by rw [only b hm]; rfl
  refine ⟨?_, ?_, ?_⟩
  · rw [before, takeWhile_append_of_pos skip]
    simp [hp]
  · rw [after, dropWhile_append_of_pos skip]
    simp [hp]
  · rw [find?_append, find?_eq_none.mpr (fun b hm => by simp [only b hm])]
    simp [hp]

variable {is : α → Bool} {a : α}

/-- The address is of one element. -/
def Addresses (is : α → Bool) (l : List α) (a : α) : Prop :=
  is a = true ∧ ∃ rest, l.Perm (a :: rest) ∧ ∀ b ∈ rest, is b = false

lemma Addresses.split (ha : Addresses is l a) :
  ∃ front back, l = front ++ a :: back ∧ ∀ b ∈ front ++ back, is b = false := by
  obtain ⟨hp, rest, perm, ho⟩ := ha
  obtain ⟨front, back, rfl⟩ := append_of_mem (perm.mem_iff.mpr (.head _))
  have same : (front ++ back).Perm rest := (perm_cons a).mp (perm_middle.symm.trans perm)
  exact ⟨front, back, rfl, fun b hm => ho b (same.mem_iff.mp hm)⟩

variable (key) in
lemma modify_perm (ha : Addresses is l a) (f : α → α)
  (perm : l.Perm (a :: rest)) : (modify key is f l).Perm (f a :: rest) := by
  obtain ⟨front, back, rfl, ho⟩ := ha.split
  obtain ⟨eqBefore, eqAfter, hf⟩ := split_at back ha.1 fun b hm => ho b (mem_append_left _ hm)
  rw [modify, hf, eqBefore, eqAfter]
  refine (place_perm front (f a) back).trans ((perm_cons _).mpr ?_)
  exact (perm_cons a).mp (perm_middle.symm.trans perm)

lemma modify_ordered (ordered : Ordered key l) (f : α → α) : Ordered key (modify key is f l) := by
  rw [modify]
  split
  · exact ordered
  have shorter : (before is l ++ after is l).Sublist
    (l.takeWhile (fun y => !is y) ++ l.dropWhile (fun y => !is y)) :=
    (tail_sublist _).append_left _
  rw [takeWhile_append_dropWhile] at shorter
  exact place_ordered (ordered.sublist shorter)

omit [LinearOrder K] in
lemma eraseP_perm (ha : Addresses is l a) (perm : l.Perm (a :: rest)) :
  (l.eraseP is).Perm rest := by
  obtain ⟨front, back, rfl, ho⟩ := ha.split
  have skip : ∀ b ∈ front, ¬ is b = true := by
    intro b hm
    simp [ho b (mem_append_left _ hm)]
  rw [eraseP_append_right _ skip, eraseP_cons_of_pos ha.1]
  exact (perm_cons a).mp (perm_middle.symm.trans perm)

variable (ordered : Ordered key l)
include ordered

variable (ha : Addresses is l a) (perm : l.Perm (a :: rest))
include ha perm

/-- Around the addressed element are those of the others that are not greater and not less. -/
lemma Ordered.around :
  rest.Perm (before is l ++ after is l) ∧ Ordered key (before is l) ∧ Ordered key (after is l) ∧
    (∀ b ∈ before is l, key b ≤ key a) ∧ ∀ b ∈ after is l, key a ≤ key b := by
  obtain ⟨front, back, rfl, ho⟩ := ha.split
  obtain ⟨eqBefore, eqAfter, -⟩ := split_at back ha.1 fun b hm => ho b (mem_append_left _ hm)
  obtain ⟨hof, hob, across⟩ := pairwise_append.mp ordered
  rw [eqBefore, eqAfter]
  exact ⟨(perm_cons a).mp (perm.symm.trans perm_middle), hof,
    (pairwise_cons.mp hob).2, fun b hm => across b hm a (.head _),
    (pairwise_cons.mp hob).1⟩

/-- Between another element and the addressed one stands one of its neighbours. -/
lemma neighbour {b : α} (hm : b ∈ rest) :
  (∃ c, (before is l).getLast? = some c ∧ key b ≤ key c ∧ key c ≤ key a) ∨
    ∃ c, (after is l).head? = some c ∧ key a ≤ key c ∧ key c ≤ key b := by
  obtain ⟨hs, hob, hoa, lower, upper⟩ := ordered.around ha perm
  rcases mem_append.mp (hs.mem_iff.mp hm) with hm | hm
  · obtain ⟨c, last⟩ := ne_none_iff_exists'.mp (mt getLast?_eq_none_iff.mp (ne_nil_of_mem hm))
    exact .inl ⟨c, last, hob.le_getLast last hm, lower c (mem_of_mem_getLast? last)⟩
  · obtain ⟨c, first⟩ := ne_none_iff_exists'.mp (mt head?_eq_none_iff.mp (ne_nil_of_mem hm))
    exact .inr ⟨c, first, upper c (mem_of_mem_head? first), hoa.head_le first hm⟩

/-- The neighbours are among the other elements, on their sides of the addressed one. -/
lemma neighbour_mem : (∀ c, (before is l).getLast? = some c → c ∈ rest ∧ key c ≤ key a) ∧
    ∀ c, (after is l).head? = some c → c ∈ rest ∧ key a ≤ key c := by
  obtain ⟨hs, -, -, lower, upper⟩ := ordered.around ha perm
  refine ⟨fun c last => ?_, fun c first => ?_⟩
  · have member := mem_of_mem_getLast? last
    exact ⟨hs.mem_iff.mpr (mem_append_left _ member), lower c member⟩
  · have member := mem_of_mem_head? first
    exact ⟨hs.mem_iff.mpr (mem_append_right _ member), upper c member⟩

end OrderedIndex
