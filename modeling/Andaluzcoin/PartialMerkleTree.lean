import Andaluzcoin.Merkle

/-!
# Partial Merkle trees

A `CPartialMerkleTree` holds the bits and hashes of a depth-first walk through the Merkle tree of
a block, which descends only towards matched transactions. What the extractor reads of a tree
that was built from a list of transactions is the root and the matched ones. Whatever the bits
and hashes are, transactions that are extracted together with the root of a list are in that
list.
-/

namespace Merkle

open List

variable {α : Type*}

def maxBlockWeight : ℕ := 4000000

def minTransactionWeight : ℕ := 4 * 60

structure CPartialMerkleTree (α : Type*) where
  nTransactions : ℕ
  vBits : List Bool
  vHash : List α
  fBad : Bool

open CPartialMerkleTree

/-- The number of nodes at a height. -/
def calcTreeWidth (nTransactions height : ℕ) : ℕ := (nTransactions + (1 <<< height) - 1) >>> height

/-- The hash of a node, at the leaf level the transaction itself. -/
def calcHash (hash : α → α → α) (null : α) (nTransactions : ℕ) (vTxid : List α) : ℕ → ℕ → α
  | 0, pos => vTxid.getD pos null
  | height + 1, pos =>
    let left := calcHash hash null nTransactions vTxid height (pos * 2)
    let right := if pos * 2 + 1 < calcTreeWidth nTransactions height
      then calcHash hash null nTransactions vTxid height (pos * 2 + 1) else left
    hash left right

/-- The positions of the leaves under a node. -/
def leavesUnder (nTransactions height pos : ℕ) : List ℕ :=
  List.range' (pos <<< height) (min ((pos + 1) <<< height) nTransactions - (pos <<< height))

/-- Whether a node is the parent of at least one matched transaction. -/
def parentOfMatch (vMatch : List Bool) (nTransactions height pos : ℕ) : Bool :=
  (leavesUnder nTransactions height pos).any (vMatch.getD · false)

def CPartialMerkleTree.pushBit (tree : CPartialMerkleTree α) (bit : Bool) : CPartialMerkleTree α :=
  { tree with vBits := tree.vBits ++ [bit] }

def CPartialMerkleTree.pushHash (tree : CPartialMerkleTree α) (h : α) : CPartialMerkleTree α :=
  { tree with vHash := tree.vHash ++ [h] }

/-- Walk through the nodes, storing the data as bits and hashes. -/
def traverseAndBuild (hash : α → α → α) (null : α) (vTxid : List α) (vMatch : List Bool) :
  ℕ → ℕ → CPartialMerkleTree α → CPartialMerkleTree α
  | 0, pos, tree =>
    let n := tree.nTransactions
    (tree.pushBit (parentOfMatch vMatch n 0 pos)).pushHash (calcHash hash null n vTxid 0 pos)
  | height + 1, pos, tree =>
    let n := tree.nTransactions
    let fParentOfMatch := parentOfMatch vMatch n (height + 1) pos
    let tree := tree.pushBit fParentOfMatch
    if fParentOfMatch then
      let tree := traverseAndBuild hash null vTxid vMatch height (pos * 2) tree
      if pos * 2 + 1 < calcTreeWidth n height then
        traverseAndBuild hash null vTxid vMatch height (pos * 2 + 1) tree
      else tree
    else tree.pushHash (calcHash hash null n vTxid (height + 1) pos)

/-- `while (CalcTreeWidth(nHeight) > 1) nHeight++` -/
def heightLoop (nTransactions : ℕ) : ℕ → ℕ → ℕ
  | 0, nHeight => nHeight
  | fuel + 1, nHeight =>
    if 1 < calcTreeWidth nTransactions nHeight then heightLoop nTransactions fuel (nHeight + 1)
    else nHeight

def calcHeight (nTransactions : ℕ) : ℕ := heightLoop nTransactions nTransactions 0

/-- The partial tree of some of the transactions of a block. -/
def CPartialMerkleTree.ofTxids (hash : α → α → α) (null : α) (vTxid : List α)
  (vMatch : List Bool) : CPartialMerkleTree α :=
  traverseAndBuild hash null vTxid vMatch (calcHeight vTxid.length) 0 ⟨vTxid.length, [], [], false⟩

/-- What the extractor has used and found. -/
structure Extraction (α : Type*) where
  nBitsUsed : ℕ
  nHashUsed : ℕ
  vMatch : List α
  vnIndex : List ℕ
  fBad : Bool

open Extraction

/-- Use a stored hash, and do not descend. -/
def useHash (null : α) (tree : CPartialMerkleTree α) (e : Extraction α) : α × Extraction α :=
  match tree.vHash[e.nHashUsed]? with
  | none => (null, { e with fBad := true })
  | some h => (h, { e with nHashUsed := e.nHashUsed + 1 })

variable [DecidableEq α]

/-- Walk through the nodes, consuming the bits and hashes. -/
def traverseAndExtract (hash : α → α → α) (null : α) (tree : CPartialMerkleTree α) :
  ℕ → ℕ → Extraction α → α × Extraction α
  | 0, pos, e =>
    match tree.vBits[e.nBitsUsed]? with
    | none => (null, { e with fBad := true })
    | some fParentOfMatch =>
      let e := { e with nBitsUsed := e.nBitsUsed + 1 }
      match tree.vHash[e.nHashUsed]? with
      | none => (null, { e with fBad := true })
      | some h =>
        let e := { e with nHashUsed := e.nHashUsed + 1 }
        (h, if fParentOfMatch
          then { e with vMatch := e.vMatch ++ [h], vnIndex := e.vnIndex ++ [pos] } else e)
  | height + 1, pos, e =>
    match tree.vBits[e.nBitsUsed]? with
    | none => (null, { e with fBad := true })
    | some fParentOfMatch =>
      let e := { e with nBitsUsed := e.nBitsUsed + 1 }
      if fParentOfMatch then
        let (left, e) := traverseAndExtract hash null tree height (pos * 2) e
        if pos * 2 + 1 < calcTreeWidth tree.nTransactions height then
          let (right, e) := traverseAndExtract hash null tree height (pos * 2 + 1) e
          (hash left right, if right = left then { e with fBad := true } else e)
        else (hash left left, e)
      else useHash null tree e

/-- The root, or the null hash in case of failure. What is found replaces `vMatch` and is
appended to `vnIndex`. -/
def extractMatches (hash : α → α → α) (null : α) (tree : CPartialMerkleTree α)
  (vnIndex : List ℕ) : α × Extraction α :=
  let e : Extraction α := ⟨0, 0, [], vnIndex, tree.fBad⟩
  if tree.nTransactions = 0 then (null, e)
  else if maxBlockWeight / minTransactionWeight < tree.nTransactions then (null, e)
  else if tree.nTransactions < tree.vHash.length then (null, e)
  else if tree.vBits.length < tree.vHash.length then (null, e)
  else
    let (hashMerkleRoot, e) :=
      traverseAndExtract hash null tree (calcHeight tree.nTransactions) 0 e
    if e.fBad then (null, e)
    else if (e.nBitsUsed + 7) / 8 ≠ (tree.vBits.length + 7) / 8 then (null, e)
    else if e.nHashUsed ≠ tree.vHash.length then (null, e)
    else (hashMerkleRoot, e)

section
variable {l : List α} {height n pos : ℕ}

lemma calcTreeWidth_eq (n height : ℕ) :
  calcTreeWidth n height = (n + 2 ^ height - 1) / 2 ^ height := by
  rw [calcTreeWidth, Nat.one_shiftLeft, Nat.shiftRight_eq_div_pow]

lemma lt_calcTreeWidth : pos < calcTreeWidth n height ↔ pos * 2 ^ height < n := by
  have positive : 0 < 2 ^ height := Nat.two_pow_pos height
  rw [calcTreeWidth_eq, Nat.lt_iff_add_one_le, Nat.le_div_iff_mul_le positive, add_mul]
  omega

lemma calcTreeWidth_zero (n : ℕ) : calcTreeWidth n 0 = n := by
  rw [calcTreeWidth_eq]
  simp

lemma calcTreeWidth_succ (n height : ℕ) :
  calcTreeWidth n (height + 1) = (calcTreeWidth n height + 1) / 2 := by
  refine eq_of_forall_lt_iff fun pos => ?_
  have half : pos < (calcTreeWidth n height + 1) / 2 ↔ pos * 2 < calcTreeWidth n height := by omega
  rw [half, lt_calcTreeWidth, lt_calcTreeWidth, pow_succ']
  rw [mul_assoc]

omit [DecidableEq α] in
lemma length_level (hash : α → α → α) (l : List α) (height : ℕ) :
  (level hash l height).length = calcTreeWidth l.length height := by
  induction height with
  | zero => rw [level_zero, calcTreeWidth_zero]
  | succ height ih => rw [level_succ, length_nextLevel, ih, calcTreeWidth_succ]

lemma heightLoop_spec (n : ℕ) : ∀ fuel height, calcTreeWidth n (height + fuel) ≤ 1 →
  (∀ lower < height, 1 < calcTreeWidth n lower) → calcTreeWidth n (heightLoop n fuel height) ≤ 1 ∧
    ∀ lower < heightLoop n fuel height, 1 < calcTreeWidth n lower := by
  intro fuel
  induction fuel with
  | zero => exact fun height short long => ⟨short, long⟩
  | succ fuel ih =>
    intro height short long
    rw [heightLoop]
    split_ifs with more
    · refine ih (height + 1) (by rwa [add_assoc, add_comm 1]) fun lower below => ?_
      rcases Nat.lt_succ_iff_lt_or_eq.mp below with old | rfl
      · exact long lower old
      · exact more
    · exact ⟨not_lt.mp more, long⟩

lemma calcHeight_spec (n : ℕ) : calcTreeWidth n (calcHeight n) ≤ 1 ∧
  ∀ lower < calcHeight n, 1 < calcTreeWidth n lower := by
  refine heightLoop_spec n n 0 ?_ (by simp)
  by_contra wide
  rw [not_le, lt_calcTreeWidth, zero_add, one_mul] at wide
  exact lt_asymm wide n.lt_two_pow_self

lemma level_calcHeight (hash : α → α → α) (null : α) (nonempty : l ≠ []) :
  level hash l (calcHeight l.length) = [(computeMerkleRoot hash null l).1] := by
  obtain ⟨height, top, long, -⟩ := computeMerkleRoot_spec hash null nonempty
  obtain ⟨short, long'⟩ := calcHeight_spec l.length
  have same : calcHeight l.length = height := by
    rcases lt_trichotomy (calcHeight l.length) height with lower | same | hh
    · have more := long _ lower
      rw [length_level] at more
      omega
    · exact same
    · have more := long' _ hh
      rw [← length_level hash, top, length_singleton] at more
      omega
  rw [same, top]

omit [DecidableEq α] in
/-- A node of the next level hashes two of this one, or the last one with itself. -/
lemma getElem?_nextLevel (hash : α → α → α) : ∀ (l : List α) (pos : ℕ),
  (nextLevel hash l)[pos]? = l[pos * 2]?.map fun left => hash left (l[pos * 2 + 1]?.getD left)
  | [], _ => by simp
  | [_], 0 => by simp
  | [_], pos + 1 => by simp
  | _ :: _ :: _, 0 => by simp
  | a :: b :: rest, pos + 1 => by
    rw [nextLevel_cons_cons, getElem?_cons_succ, getElem?_nextLevel hash rest pos,
      show (pos + 1) * 2 = pos * 2 + 1 + 1 by omega]
    rfl

omit [DecidableEq α] in
lemma level_getElem? (hash : α → α → α) (null : α) (l : List α) : ∀ (height pos : ℕ),
  pos < calcTreeWidth l.length height →
    (level hash l height)[pos]? = some (calcHash hash null l.length l height pos) := by
  intro height
  induction height with
  | zero =>
    intro pos hi
    rw [calcTreeWidth_zero] at hi
    rw [level_zero, calcHash, getD_eq_getElem _ _ hi, getElem?_eq_getElem hi]
  | succ height ih =>
    intro pos hi
    rw [calcTreeWidth_succ] at hi
    have left := ih (pos * 2) (by omega)
    rw [level_succ, getElem?_nextLevel hash _ pos, left, calcHash]
    refine congrArg some (congrArg (hash _) ?_)
    split_ifs with hb
    · rw [ih (pos * 2 + 1) hb, Option.getD_some]
    · rw [getElem?_eq_none, Option.getD_none]
      rw [length_level]
      omega

lemma calcHash_calcHeight (hash : α → α → α) (null : α) (nonempty : l ≠ []) :
  0 < calcTreeWidth l.length (calcHeight l.length) ∧
    calcHash hash null l.length l (calcHeight l.length) 0 = (computeMerkleRoot hash null l).1 := by
  have inside : 0 < calcTreeWidth l.length (calcHeight l.length) := by
    rw [lt_calcTreeWidth, zero_mul]
    exact length_pos_iff.mpr nonempty
  have top := level_getElem? hash null l (calcHeight l.length) 0 inside
  rw [level_calcHeight hash null nonempty] at top
  exact ⟨inside, (Option.some.inj top).symm⟩

lemma leavesUnder_eq (n height pos : ℕ) : leavesUnder n height pos =
  range' (pos * 2 ^ height) (min ((pos + 1) * 2 ^ height) n - pos * 2 ^ height) := by
  rw [leavesUnder, Nat.shiftLeft_eq, Nat.shiftLeft_eq]

lemma leavesUnder_succ (n height pos : ℕ) : leavesUnder n (height + 1) pos =
  leavesUnder n height (pos * 2) ++ leavesUnder n height (pos * 2 + 1) := by
  rw [leavesUnder_eq, leavesUnder_eq, leavesUnder_eq]
  generalize width : 2 ^ height = w
  have first : pos * 2 ^ (height + 1) = pos * 2 * w := by rw [pow_succ', ← mul_assoc, width]
  have last : (pos + 1) * 2 ^ (height + 1) = pos * 2 * w + w + w := by
    rw [pow_succ', width]
    ring
  have middle : (pos * 2 + 1) * w = pos * 2 * w + w := by ring
  have last' : (pos * 2 + 1 + 1) * w = pos * 2 * w + w + w := by ring
  rw [first, last, middle, last']
  generalize pos * 2 * w = start
  rcases le_total n (start + w) with short | long
  · rw [show min (start + w + w) n - (start + w) = 0 by omega, range'_zero, append_nil]
    congr 1
    omega
  · rw [show min (start + w) n - start = w by omega, range'_append_1]
    congr 1
    omega

lemma leavesUnder_eq_nil (ho : ¬ pos < calcTreeWidth n height) : leavesUnder n height pos = [] := by
  rw [lt_calcTreeWidth] at ho
  rw [leavesUnder_eq, show min ((pos + 1) * 2 ^ height) n - pos * 2 ^ height = 0 by omega,
    range'_zero]

lemma leavesUnder_ne_nil (hi : pos < calcTreeWidth n height) :
  0 < (leavesUnder n height pos).length := by
  have positive : 0 < 2 ^ height := Nat.two_pow_pos height
  rw [lt_calcTreeWidth] at hi
  rw [leavesUnder_eq, length_range', add_mul]
  omega

end

section
variable (hash : α → α → α) (null : α) (vTxid : List α) (vMatch : List Bool) {l m rest : List α}
  {k n pos : ℕ}

/-- The bits and the hashes of the part of the walk under a node. -/
def stored (n : ℕ) : ℕ → ℕ → List Bool × List α
  | 0, pos => ([parentOfMatch vMatch n 0 pos], [calcHash hash null n vTxid 0 pos])
  | height + 1, pos =>
    if parentOfMatch vMatch n (height + 1) pos then
      let left := stored n height (pos * 2)
      if pos * 2 + 1 < calcTreeWidth n height then
        let right := stored n height (pos * 2 + 1)
        (true :: (left.1 ++ right.1), left.2 ++ right.2)
      else (true :: left.1, left.2)
    else ([false], [calcHash hash null n vTxid (height + 1) pos])

omit [DecidableEq α] in
lemma traverseAndBuild_eq : ∀ (height pos : ℕ) (tree : CPartialMerkleTree α),
  traverseAndBuild hash null vTxid vMatch height pos tree = { tree with
      vBits := tree.vBits ++ (stored hash null vTxid vMatch tree.nTransactions height pos).1
      vHash := tree.vHash ++ (stored hash null vTxid vMatch tree.nTransactions height pos).2 } := by
  intro height
  induction height with
  | zero => exact fun _ _ => rfl
  | succ height ih =>
    intro pos tree
    rw [traverseAndBuild, stored]
    cases parent : parentOfMatch vMatch tree.nTransactions (height + 1) pos with
    | false => rfl
    | true =>
      rw [if_pos rfl, if_pos rfl]
      split_ifs with hb
      · simp [pushBit, ih]
      · simp [pushBit, ih]

/-- The positions of the matched transactions under a node. -/
def matchedUnder (n height pos : ℕ) : List ℕ :=
  (leavesUnder n height pos).filter (vMatch.getD · false)

variable {vMatch} in
lemma matchedUnder_eq_nil {height : ℕ} (none_ : parentOfMatch vMatch n height pos = false) :
  matchedUnder vMatch n height pos = [] := by
  rw [parentOfMatch, any_eq_false] at none_
  exact filter_eq_nil_iff.mpr none_

lemma matchedUnder_zero (hi : pos < n) : leavesUnder n 0 pos = [pos] := by
  rw [leavesUnder_eq, pow_zero, mul_one, mul_one, show min (pos + 1) n - pos = 1 by omega]
  rfl

omit [DecidableEq α] in
lemma getElem?_of_drop {a : α} (eq : l.drop k = a :: m ++ rest) :
  l[k]? = some a ∧ l.drop (k + 1) = m ++ rest := by
  constructor
  · rw [← add_zero k, ← getElem?_drop, eq]
    rfl
  · rw [← drop_drop, eq]
    rfl

omit [DecidableEq α] in
lemma drop_of_drop (eq : l.drop k = m ++ rest) : l.drop (k + m.length) = rest := by
  rw [← drop_drop, eq, drop_left]

lemma samePair_ne : ∀ {l : List α}, samePair l = false → ∀ {pos : ℕ} {a b : α},
  l[pos * 2]? = some a → l[pos * 2 + 1]? = some b → a ≠ b
  | [], _, _, _, _, found, _ => by simp at found
  | [_], _, 0, _, _, _, found => by simp at found
  | [_], _, _ + 1, _, _, found, _ => by simp at found
  | c :: d :: rest, unmutated, 0, a, b, found, found' => by
    obtain rfl : c = a := by simpa using found
    obtain rfl : d = b := by simpa using found'
    rw [samePair, Bool.or_eq_false_iff] at unmutated
    simpa using unmutated.1
  | c :: d :: rest, unmutated, pos + 1, a, b, found, found' => by
    rw [samePair, Bool.or_eq_false_iff] at unmutated
    rw [show (pos + 1) * 2 = pos * 2 + 1 + 1 by omega] at found found'
    exact samePair_ne unmutated.2 found found'

/-- Bits and hashes are consumed, and matches are found. -/
def Extraction.advance (e : Extraction α) (bits : List Bool) (hashes matches_ : List α)
  (indexes : List ℕ) : Extraction α where
  nBitsUsed := e.nBitsUsed + bits.length
  nHashUsed := e.nHashUsed + hashes.length
  vMatch := e.vMatch ++ matches_
  vnIndex := e.vnIndex ++ indexes
  fBad := e.fBad

variable {hash null vTxid vMatch} {tree : CPartialMerkleTree α}

variable (tree) in
/-- The extractor consumes what was stored for a node. -/
lemma traverseAndExtract_stored (size : tree.nTransactions = vTxid.length)
  (hu : ∀ height, samePair (level hash vTxid height) = false) :
  ∀ (height pos : ℕ) (e : Extraction α) (bits : List Bool) (hashes : List α),
    pos < calcTreeWidth vTxid.length height → tree.vBits.drop e.nBitsUsed =
      (stored hash null vTxid vMatch vTxid.length height pos).1 ++ bits →
    tree.vHash.drop e.nHashUsed =
      (stored hash null vTxid vMatch vTxid.length height pos).2 ++ hashes →
    traverseAndExtract hash null tree height pos e =
      (calcHash hash null vTxid.length vTxid height pos,
        e.advance (stored hash null vTxid vMatch vTxid.length height pos).1
          (stored hash null vTxid vMatch vTxid.length height pos).2
          ((matchedUnder vMatch vTxid.length height pos).map (vTxid.getD · null))
          (matchedUnder vMatch vTxid.length height pos)) := by
  intro height
  induction height with
  | zero =>
    intro pos e bits hashes hi heb heh
    rw [calcTreeWidth_zero] at hi
    obtain ⟨bit, -⟩ := getElem?_of_drop heb
    obtain ⟨hf, -⟩ := getElem?_of_drop heh
    simp only [traverseAndExtract, bit, hf, stored, matchedUnder, parentOfMatch,
      matchedUnder_zero hi, calcHash]
    cases isMatch : vMatch[pos]?.getD false with
    | false => simp [isMatch, advance]
    | true => simp [isMatch, advance]
  | succ height ih =>
    intro pos e bits hashes hi heb heh
    rw [stored] at heb heh ⊢
    cases parent : parentOfMatch vMatch vTxid.length (height + 1) pos with
    | false =>
      rw [parent] at heb heh
      obtain ⟨bit, -⟩ := getElem?_of_drop heb
      obtain ⟨hf, -⟩ := getElem?_of_drop heh
      simp [traverseAndExtract, bit, useHash, hf, matchedUnder_eq_nil parent, advance]
    | true =>
      have insideL : pos * 2 < calcTreeWidth vTxid.length height := by
        rw [calcTreeWidth_succ] at hi
        omega
      rw [parent] at heb heh
      rw [traverseAndExtract, calcHash, matchedUnder, leavesUnder_succ, filter_append,
        ← matchedUnder, ← matchedUnder, size]
      by_cases hb : pos * 2 + 1 < calcTreeWidth vTxid.length height
      · simp only [hb, if_true, cons_append, append_assoc] at heb heh ⊢
        obtain ⟨bit, heb⟩ := getElem?_of_drop heb
        have left := ih (pos * 2) { e with nBitsUsed := e.nBitsUsed + 1 } _ _ insideL heb heh
        have right := ih (pos * 2 + 1) (advance { e with nBitsUsed := e.nBitsUsed + 1 }
            (stored hash null vTxid vMatch vTxid.length height (pos * 2)).1
            (stored hash null vTxid vMatch vTxid.length height (pos * 2)).2
            ((matchedUnder vMatch vTxid.length height (pos * 2)).map (vTxid.getD · null))
            (matchedUnder vMatch vTxid.length height (pos * 2))) _ _ hb
          (drop_of_drop heb) (drop_of_drop heh)
        have differ := samePair_ne (hu height) (level_getElem? hash null vTxid height _ insideL)
          (level_getElem? hash null vTxid height _ hb)
        simp only [bit, if_true, left, right, if_neg (Ne.symm differ)]
        simp only [advance, map_append, append_assoc, length_cons, length_append]
        congr 2
        · omega
        · omega
      · simp only [hb, if_true, if_false, cons_append] at heb heh ⊢
        obtain ⟨bit, heb⟩ := getElem?_of_drop heb
        have left := ih (pos * 2) { e with nBitsUsed := e.nBitsUsed + 1 } _ _ insideL heb heh
        have none_ : matchedUnder vMatch vTxid.length height (pos * 2 + 1) = [] := by
          rw [matchedUnder, leavesUnder_eq_nil hb, filter_nil]
        simp only [bit, if_true, left, none_, append_nil]
        simp only [advance, length_cons]
        congr 2
        omega

omit [DecidableEq α] in
variable (hash null vTxid vMatch) in
lemma stored_length : ∀ height pos : ℕ, pos < calcTreeWidth n height →
  (stored hash null vTxid vMatch n height pos).2.length ≤ (leavesUnder n height pos).length ∧
    (stored hash null vTxid vMatch n height pos).2.length ≤
      (stored hash null vTxid vMatch n height pos).1.length := by
  intro height
  induction height with
  | zero =>
    intro pos hi
    exact ⟨leavesUnder_ne_nil hi, le_refl _⟩
  | succ height ih =>
    intro pos hi
    rw [stored]
    split_ifs with parent hb
    · obtain ⟨leaves, bits⟩ := ih (pos * 2) (by omega)
      obtain ⟨leaves', bits'⟩ := ih (pos * 2 + 1) hb
      rw [leavesUnder_succ]
      simp only [length_append, length_cons]
      omega
    · rw [calcTreeWidth_succ] at hi
      obtain ⟨leaves, bits⟩ := ih (pos * 2) (by omega)
      rw [leavesUnder_succ]
      simp only [length_append, length_cons]
      omega
    · exact ⟨leavesUnder_ne_nil hi, le_refl _⟩

lemma leavesUnder_calcHeight (n : ℕ) : leavesUnder n (calcHeight n) 0 = List.range n := by
  have short := (calcHeight_spec n).1
  have all : n ≤ 2 ^ calcHeight n := by
    by_contra more
    have second : 1 < calcTreeWidth n (calcHeight n) := by
      rw [lt_calcTreeWidth, one_mul]
      exact not_le.mp more
    omega
  rw [leavesUnder_eq, zero_mul, zero_add, one_mul, min_eq_right all, Nat.sub_zero, range_eq_range']

/-- What is extracted from the partial tree of a list: the root of the list and the matched
transactions. -/
theorem extractMatches_ofTxids (nonempty : vTxid ≠ [])
  (hb : vTxid.length ≤ maxBlockWeight / minTransactionWeight)
  (hu : (computeMerkleRoot hash null vTxid).2 = false) (vnIndex : List ℕ) :
  let result := extractMatches hash null (.ofTxids hash null vTxid vMatch) vnIndex
  let positions := (range vTxid.length).filter (vMatch.getD · false)
  result.1 = (computeMerkleRoot hash null vTxid).1 ∧
    result.2.vMatch = positions.map (vTxid.getD · null) ∧
    result.2.vnIndex = vnIndex ++ positions := by
  have pos : 0 < vTxid.length := length_pos_iff.mpr nonempty
  set n := vTxid.length with isN
  obtain ⟨-, -, -, flag⟩ := computeMerkleRoot_spec hash null nonempty
  obtain ⟨hi, root⟩ := calcHash_calcHeight hash null nonempty
  rw [← isN] at hi root
  have built : ofTxids hash null vTxid vMatch =
    ⟨n, (stored hash null vTxid vMatch n (calcHeight n) 0).1,
      (stored hash null vTxid vMatch n (calcHeight n) 0).2, false⟩ :=
    traverseAndBuild_eq hash null vTxid vMatch (calcHeight n) 0 ⟨n, [], [], false⟩
  obtain ⟨leaves, bits⟩ := stored_length hash null vTxid vMatch (calcHeight n) 0 hi
  rw [leavesUnder_calcHeight, length_range] at leaves
  have walk := traverseAndExtract_stored (ofTxids hash null vTxid vMatch)
    (by rw [built]) (flag.mp hu) (calcHeight n) 0 ⟨0, 0, [], vnIndex, false⟩ [] [] hi
    (by rw [built, drop_zero, append_nil]) (by rw [built, drop_zero, append_nil])
  rw [built, ← isN] at walk
  simp only [extractMatches, built]
  rw [if_neg pos.ne', if_neg (not_lt.mpr hb), if_neg (not_lt.mpr leaves),
    if_neg (not_lt.mpr bits), walk, matchedUnder, leavesUnder_calcHeight]
  simp [advance, root]

end

section
variable {hash : α → α → α} {null : α} {tree : CPartialMerkleTree α} {vTxid : List α}
  {vnIndex : List ℕ}

/-- The matches were found in addition to the earlier ones. -/
def Finds (e e' : Extraction α) (found : List (α × ℕ)) : Prop :=
  e'.vMatch = e.vMatch ++ found.map Prod.fst ∧ e'.vnIndex = e.vnIndex ++ found.map Prod.snd

omit [DecidableEq α] in
lemma Finds.append {e e' e'' : Extraction α} {found found' : List (α × ℕ)}
  (first : Finds e e' found) (hs : Finds e' e'' found') : Finds e e'' (found ++ found') := by
  rw [Finds, hs.1, hs.2, first.1, first.2]
  simp

variable (null) in
/-- Whatever the tree, what is found under a node whose hash comes out right is in the list. -/
lemma traverseAndExtract_sound (hin : ∀ a b c d, hash a b = hash c d → a = c ∧ b = d)
  (size : tree.nTransactions = vTxid.length) : ∀ (height pos : ℕ) (e : Extraction α),
  ∃ found, Finds e (traverseAndExtract hash null tree height pos e).2 found ∧
    (pos < calcTreeWidth vTxid.length height → (traverseAndExtract hash null tree height pos e).1 =
        calcHash hash null vTxid.length vTxid height pos →
      ∀ f ∈ found, vTxid[f.2]? = some f.1) := by
  have nothing : ∀ {e e' : Extraction α}, e'.vMatch = e.vMatch → e'.vnIndex = e.vnIndex →
    ∀ {P Q : Prop}, ∃ found, Finds e e' found ∧
      (P → Q → ∀ f ∈ found, vTxid[f.2]? = some f.1) := by
    intro e e' matches_ indexes P Q
    exact ⟨[], ⟨by simp [matches_], by simp [indexes]⟩, fun _ _ => by simp⟩
  intro height
  induction height with
  | zero =>
    intro pos e
    rw [traverseAndExtract]
    cases tree.vBits[e.nBitsUsed]? with
    | none => exact nothing rfl rfl
    | some bit =>
      dsimp only
      cases tree.vHash[e.nHashUsed]? with
      | none => exact nothing rfl rfl
      | some h =>
        cases bit with
        | false => exact nothing rfl rfl
        | true =>
          refine ⟨[(h, pos)], ⟨rfl, rfl⟩, fun hi hs f mem => ?_⟩
          rw [calcTreeWidth_zero] at hi
          rw [mem_singleton.mp mem, getElem?_eq_getElem hi]
          rw [calcHash, getD_eq_getElem _ _ hi] at hs
          exact congrArg some hs.symm
  | succ height ih =>
    intro pos e
    rw [traverseAndExtract]
    cases tree.vBits[e.nBitsUsed]? with
    | none => exact nothing rfl rfl
    | some bit =>
      dsimp only
      cases bit with
      | false =>
        rw [if_neg Bool.false_ne_true, useHash]
        cases tree.vHash[e.nHashUsed]? with
        | none => exact nothing rfl rfl
        | some h => exact nothing rfl rfl
      | true =>
        rw [if_pos rfl, size]
        obtain ⟨found, finds, hso⟩ := ih (pos * 2) { e with nBitsUsed := e.nBitsUsed + 1 }
        generalize traverseAndExtract hash null tree height (pos * 2)
          { e with nBitsUsed := e.nBitsUsed + 1 } = left at finds hso ⊢
        obtain ⟨left, e₁⟩ := left
        obtain ⟨hf', finds', hs'⟩ := ih (pos * 2 + 1) e₁
        generalize traverseAndExtract hash null tree height (pos * 2 + 1) e₁ = right at finds' hs' ⊢
        obtain ⟨right, e₂⟩ := right
        rw [calcHash, calcTreeWidth_succ]
        by_cases hb : pos * 2 + 1 < calcTreeWidth vTxid.length height
        · simp only [if_pos hb]
          refine ⟨found ++ hf', finds.append ?_, fun hi hs f mem => ?_⟩
          · split_ifs
            · exact finds'
            · exact finds'
          obtain ⟨sameL, sameR⟩ := hin _ _ _ _ hs
          rcases mem_append.mp mem with mem | mem
          · exact hso (by omega) sameL f mem
          · exact hs' hb sameR f mem
        · simp only [if_neg hb]
          refine ⟨found, finds, fun hi hs f mem => ?_⟩
          exact hso (by omega) (hin _ _ _ _ hs).1 f mem

lemma extractMatches_valid (hv : (extractMatches hash null tree vnIndex).1 ≠ null) :
  0 < tree.nTransactions ∧ extractMatches hash null tree vnIndex = traverseAndExtract hash null
    tree (calcHeight tree.nTransactions) 0 ⟨0, 0, [], vnIndex, tree.fBad⟩ := by
  rw [extractMatches] at hv ⊢
  dsimp only at hv ⊢
  split_ifs at hv with empty large hashes bits bad padding rest
  all_goals try exact absurd rfl hv
  rw [if_neg empty, if_neg large, if_neg hashes, if_neg bits, if_neg bad, if_neg padding,
    if_neg rest]
  exact ⟨pos_of_ne_zero empty, rfl⟩

lemma extractMatches_sound (hin : ∀ a b c d, hash a b = hash c d → a = c ∧ b = d)
  (size : vTxid.length = tree.nTransactions)
  (hsa : (extractMatches hash null tree vnIndex).1 = (computeMerkleRoot hash null vTxid).1)
  (hv : (extractMatches hash null tree vnIndex).1 ≠ null) :
  ∃ found : List (α × ℕ), (extractMatches hash null tree vnIndex).2.vMatch = found.map Prod.fst ∧
    (extractMatches hash null tree vnIndex).2.vnIndex = vnIndex ++ found.map Prod.snd ∧
    ∀ f ∈ found, f.2 < tree.nTransactions ∧ vTxid[f.2]? = some f.1 := by
  obtain ⟨pos, walk⟩ := extractMatches_valid hv
  rw [← size] at pos walk
  obtain ⟨found, finds, hs⟩ := traverseAndExtract_sound null hin size.symm
    (calcHeight vTxid.length) 0 ⟨0, 0, [], vnIndex, tree.fBad⟩
  obtain ⟨hi, root⟩ := calcHash_calcHeight hash null (length_pos_iff.mp pos)
  rw [walk, ← root] at hsa
  rw [walk]
  refine ⟨found, finds.1, finds.2, fun f mem => ?_⟩
  have listed := hs hi hsa f mem
  obtain ⟨below, -⟩ := List.getElem?_eq_some_iff.mp listed
  exact ⟨size ▸ below, listed⟩

end

/-- What `ExtractMatches` returns for the partial tree of a list is its root with the matched
transactions and their positions. Whatever the tree, transactions that it returns with the root
of a list, other than the null hash, are in the list at their positions. -/
theorem partialMerkleTree_correct (hash : α → α → α) (null : α) :
  (∀ (vTxid : List α) (vMatch : List Bool) (vnIndex : List ℕ), vTxid ≠ [] →
    vTxid.length ≤ maxBlockWeight / minTransactionWeight →
    (computeMerkleRoot hash null vTxid).2 = false → vMatch.length = vTxid.length →
    let result := extractMatches hash null (.ofTxids hash null vTxid vMatch) vnIndex
    let positions := (List.range vTxid.length).filter (vMatch.getD · false)
    result.1 = (computeMerkleRoot hash null vTxid).1 ∧
      result.2.vMatch = positions.map (vTxid.getD · null) ∧
      result.2.vnIndex = vnIndex ++ positions) ∧
  ((∀ a b c d, hash a b = hash c d → a = c ∧ b = d) →
    ∀ (tree : CPartialMerkleTree α) (vTxid : List α) (vnIndex : List ℕ),
      vTxid.length = tree.nTransactions →
      let result := extractMatches hash null tree vnIndex
      result.1 = (computeMerkleRoot hash null vTxid).1 → result.1 ≠ null →
      ∃ found : List (α × ℕ), result.2.vMatch = found.map Prod.fst ∧
        result.2.vnIndex = vnIndex ++ found.map Prod.snd ∧
        ∀ f ∈ found, f.2 < tree.nTransactions ∧ vTxid[f.2]? = some f.1) := by
  constructor
  · intro vTxid vMatch vnIndex nonempty hb hu _
    exact extractMatches_ofTxids nonempty hb hu vnIndex
  · intro injective tree vTxid vnIndex size _ hs hv
    exact extractMatches_sound injective size hs hv

lemma computeMerkleRoot_three : computeMerkleRoot oddPair 0 [2, 4, 6] =
  (oddPair (oddPair 2 4) (oddPair 6 6), false) := by
  simp [computeMerkleRoot, computeLoop, samePair, oddPair]

theorem partialMerkleTree_correct_three :
  let result := extractMatches oddPair 0 (.ofTxids oddPair 0 [2, 4, 6] [true, false, true]) []
  result.1 = oddPair (oddPair 2 4) (oddPair 6 6) ∧ result.2.vMatch = [2, 6] ∧
    result.2.vnIndex = [0, 2] ∧
    ∃ found : List (ℕ × ℕ), result.2.vMatch = found.map Prod.fst ∧
      result.2.vnIndex = [] ++ found.map Prod.snd ∧
      ∀ f ∈ found, f.2 < 3 ∧ [2, 4, 6][f.2]? = some f.1 := by
  obtain ⟨root, matches_, positions⟩ := (partialMerkleTree_correct oddPair 0).1 [2, 4, 6]
    [true, false, true] [] (by decide) (by decide) (by rw [computeMerkleRoot_three]) rfl
  have value : (computeMerkleRoot oddPair 0 [2, 4, 6]).1 =
    oddPair (oddPair 2 4) (oddPair 6 6) := by rw [computeMerkleRoot_three]
  refine ⟨root.trans value, matches_, positions, ?_⟩
  refine (partialMerkleTree_correct oddPair 0).2 oddPair_injective
    (.ofTxids oddPair 0 [2, 4, 6] [true, false, true]) [2, 4, 6] [] rfl root ?_
  rw [root, value]
  exact Nat.succ_ne_zero _

/-- A tree whose extraction fails, with a match that is not in the list whose root is the null
hash. -/
theorem extractMatches_failure_is_root :
  let result := extractMatches oddPair 0 ⟨1, List.replicate 9 true, [2], false⟩ []
  result.1 = (computeMerkleRoot oddPair 0 [0]).1 ∧ result.2.vMatch = [2] ∧
    result.2.vnIndex = [0] ∧ [0][0]? ≠ some 2 := by
  refine ⟨?_, by decide, by decide, by decide⟩
  have root : computeMerkleRoot oddPair 0 [0] = (0, false) := by
    simp [computeMerkleRoot, computeLoop]
  rw [root]
  decide

end Merkle
