import Andaluzcoin.LeafStack
import Andaluzcoin.Serialize
import Andaluzcoin.VerifyScript

/-!
# Building taproot trees

`TaprootBuilder` of `script/signingprovider.cpp`, with every leaf tracked. A builder is its branch,
the deepest level in front; one that has become invalid or has failed an assertion is `none`.
-/

namespace TaprootBuilder

open Transaction Script VerifyScript LeafStack List LeafTree

structure LeafInfo where
  script : Bytes
  leafVersion : UInt8
  merkleBranch : List Uint256
  deriving DecidableEq

open LeafInfo

structure NodeInfo where
  hash : Uint256
  leaves : List LeafInfo

structure TaprootSpendData where
  internalKey : Uint256
  merkleRoot : Uint256
  /-- The control blocks of each script and leaf version. -/
  scripts : Finset ((Bytes × UInt8) × Bytes)
  deriving DecidableEq

def uint256Bytes (n : Uint256) : Bytes := writeLE 32 n.toNat

def LeafInfo.addPartner (hash : Uint256) (leaf : LeafInfo) : LeafInfo :=
  { leaf with merkleBranch := leaf.merkleBranch ++ [hash] }

/-- The loop of `Insert`, which remembers only whether there is a node. -/
def validDepths (depths : List ℤ) : Bool :=
  (pushAll taprootControlMaxNodeCount id (fun _ _ => ()) (depths.map (·, ()))).any complete

def getTreeTuples (branch : List (Option NodeInfo)) : List (ℤ × Bytes × UInt8) :=
  (branch.head?.join.elim [] NodeInfo.leaves).map fun leaf =>
    (leaf.merkleBranch.length, leaf.script, leaf.leafVersion)

section
variable (crypto : TaprootCrypto) (hasher : Bytes → Uint256)
  (createTapTweak : Uint256 → Option Uint256 → Option (Uint256 × Bool))

def computeTapbranchHash (a b : Bytes) : Uint256 :=
  if a < b then hasher (a ++ b) else hasher (b ++ a)

def tapbranch (a b : Uint256) : Uint256 :=
  computeTapbranchHash hasher (uint256Bytes a) (uint256Bytes b)

/-- The functions of a verifier that hashes branches in the same way. -/
def verifier : TaprootCrypto :=
  { crypto with computeTapbranchHash := fun a => computeTapbranchHash hasher (uint256Bytes a) }

def combine (a b : NodeInfo) : NodeInfo where
  leaves := a.leaves.map (.addPartner b.hash) ++ b.leaves.map (.addPartner a.hash)
  hash := tapbranch hasher a.hash b.hash

def leafNode (leaf : Bytes × UInt8) : NodeInfo :=
  ⟨crypto.computeTapleafHash leaf.2 leaf.1, [⟨leaf.1, leaf.2, []⟩]⟩

/-- `Add` for each depth, script and leaf version. -/
def addAll (calls : List (ℤ × Bytes × UInt8)) : Option (List (Option NodeInfo)) :=
  pushAll taprootControlMaxNodeCount (leafNode crypto) (combine hasher) calls

def controlBlock (internalKey : Uint256) (parity : Bool) (leaf : LeafInfo) : Bytes :=
  (leaf.leafVersion ||| if parity then 1 else 0) :: uint256Bytes internalKey
    ++ leaf.merkleBranch.flatMap uint256Bytes

/-- After `Finalize` with the key. -/
def getSpendData (internalKey : Uint256) (branch : List (Option NodeInfo)) :
  Option TaprootSpendData :=
  let root := branch.head?.join
  (createTapTweak internalKey (root.map NodeInfo.hash)).map fun (_, parity) =>
    { internalKey
      merkleRoot := (root.map NodeInfo.hash).getD 0
      scripts := ((root.elim [] NodeInfo.leaves).map fun leaf =>
        ((leaf.script, leaf.leafVersion), controlBlock internalKey parity leaf)).toFinset }

end

variable {crypto : TaprootCrypto} {hasher : Bytes → Uint256}

lemma length_uint256Bytes (n : Uint256) : (uint256Bytes n).length = 32 :=
  Serialize.length_writeLE 32 _

lemma tapbranch_comm (a b : Uint256) : tapbranch hasher a b = tapbranch hasher b a := by
  unfold tapbranch computeTapbranchHash
  generalize uint256Bytes a = x, uint256Bytes b = y
  by_cases less : x < y
  · rw [if_pos less, if_neg (List.lt_asymm less)]
  · by_cases greater : y < x
    · rw [if_neg less, if_pos greater]
    · rw [List.le_antisymm greater less]

lemma length_controlBlock (key : Uint256) (parity : Bool) (leaf : LeafInfo) :
  (controlBlock key parity leaf).length = 33 + 32 * leaf.merkleBranch.length := by
  simp [controlBlock, length_flatMap, length_uint256Bytes, mul_comm]
  omega

lemma computeTaprootMerkleRoot_controlBlock (key : Uint256) (parity : Bool) (leaf : LeafInfo)
  (k : Uint256) : computeTaprootMerkleRoot (verifier crypto hasher)
      (controlBlock key parity leaf) k = leaf.merkleBranch.foldl (tapbranch hasher) k := by
  have path : ∀ (nodes : List Uint256) (k : Uint256), merkleRootFrom (verifier crypto hasher)
    nodes.length k (nodes.flatMap uint256Bytes) = nodes.foldl (tapbranch hasher) k := by
    intro nodes
    induction nodes with
    | nil => exact fun k => rfl
    | cons node nodes ih =>
      intro k
      rw [length_cons, merkleRootFrom, flatMap_cons, taprootControlNodeSize,
        take_left' (length_uint256Bytes node), drop_left' (length_uint256Bytes node), ih]
      rfl
  have rest : (controlBlock key parity leaf).drop 33 = leaf.merkleBranch.flatMap uint256Bytes :=
    drop_left' (by simp [length_uint256Bytes])
  rw [computeTaprootMerkleRoot, taprootControlBaseSize, taprootControlNodeSize, rest,
    length_controlBlock, Nat.add_sub_cancel_left, Nat.mul_div_cancel_left _ (by decide), path]

variable (crypto hasher) in
/-- What the builder knows of a tree. -/
def info (t : LeafTree (Bytes × UInt8)) : NodeInfo :=
  t.fold (leafNode crypto) (combine hasher)

/-- The branch of a leaf leads to the root. -/
lemma info_branch (t : LeafTree (Bytes × UInt8)) : ∀ leaf ∈ (info crypto hasher t).leaves,
  leaf.merkleBranch.foldl (tapbranch hasher)
    (crypto.computeTapleafHash leaf.leafVersion leaf.script) = (info crypto hasher t).hash := by
  induction t with
  | leaf b =>
    intro leaf mem
    rw [mem_singleton.mp mem]
    rfl
  | node left right ihl ihr =>
    intro leaf mem
    rcases mem_append.mp mem with mem | mem <;> obtain ⟨below, inner, rfl⟩ := mem_map.mp mem
    · rw [addPartner, foldl_append, ihr below inner]
      rfl
    · rw [addPartner, foldl_append, ihl below inner]
      exact tapbranch_comm _ _

/-- Left and right exchanged. -/
def mirror : LeafTree (Bytes × UInt8) → LeafTree (Bytes × UInt8)
  | .leaf b => .leaf b
  | .node left right => .node (mirror right) (mirror left)

section
variable (t : LeafTree (Bytes × UInt8))
include t

/-- `Combine` takes the right part first: the tracked leaves are those of the mirror image. -/
lemma leaves_mirror (depth : ℤ) : ((info crypto hasher t).leaves.map fun leaf =>
    (depth + leaf.merkleBranch.length, leaf.script, leaf.leafVersion))
      = (mirror t).leaves depth := by
  induction t generalizing depth with
  | leaf b => simp [info, fold, leafNode, mirror, leaves]
  | node left right ihl ihr =>
    rw [mirror, leaves, ← ihl, ← ihr]
    simp [info, fold, combine, addPartner, Function.comp_def, add_assoc, add_comm]

lemma info_mirror : (info crypto hasher (mirror t)).hash = (info crypto hasher t).hash ∧
    (info crypto hasher (mirror t)).leaves ~ (info crypto hasher t).leaves := by
  induction t with
  | leaf b => exact ⟨rfl, .refl _⟩
  | node left right ihl ihr =>
    obtain ⟨hashL, leavesL⟩ := ihl
    obtain ⟨hashR, leavesR⟩ := ihr
    constructor
    · change tapbranch _ _ _ = tapbranch _ _ _
      exact (congrArg₂ _ hashL hashR).trans (tapbranch_comm _ _)
    refine perm_append_comm.trans (.append ?_ ?_)
    · exact hashL ▸ leavesR.map _
    · exact hashR ▸ leavesL.map _

lemma bounded_mirror {bound : ℤ} {depth : ℤ}
  (hb : ∀ x ∈ t.leaves depth, x.1 ≤ bound) : ∀ x ∈ (mirror t).leaves depth, x.1 ≤ bound := by
  induction t generalizing depth with
  | leaf b => exact hb
  | node left right ihl ihr =>
    obtain ⟨boundedL, boundedR⟩ := forall_mem_append.mp hb
    exact forall_mem_append.mpr ⟨ihr boundedR, ihl boundedL⟩

end

lemma validDepths_iff {depths : List ℤ} : validDepths depths = true ↔ depths = [] ∨
  ∃ t : LeafTree Unit, (∀ x ∈ t.leaves 0, x.1 ≤ taprootControlMaxNodeCount) ∧
    (t.leaves 0).map Prod.fst = depths := by
  rw [validDepths, Option.any_eq_true, complete_iff, map_eq_nil_iff]
  refine or_congr_right (exists_congr fun t => and_congr_right fun _ => ?_)
  constructor
  · intro hs
    simp [hs, Function.comp_def]
  · rintro rfl
    simp [Function.comp_def]

variable (crypto hasher) (createTapTweak : Uint256 → Option Uint256 → Option (Uint256 × Bool))
  (internalKey : Uint256) (calls : List (ℤ × Bytes × UInt8))

lemma getTreeTuples_info (t : LeafTree (Bytes × UInt8)) :
  getTreeTuples [some (info crypto hasher t)] = (mirror t).leaves 0 := by
  simpa [getTreeTuples] using @leaves_mirror crypto hasher t 0

lemma getSpendData_mirror (t : LeafTree (Bytes × UInt8)) :
  getSpendData createTapTweak internalKey [some (info crypto hasher (mirror t))]
    = getSpendData createTapTweak internalKey [some (info crypto hasher t)] := by
  obtain ⟨hash, leaves⟩ := @info_mirror crypto hasher t
  have scripts := fun parity => toFinset_eq_of_perm _ _ (leaves.map fun leaf =>
    ((leaf.script, leaf.leafVersion), controlBlock internalKey parity leaf))
  simp only [getSpendData, head?_cons, Option.join_some, Option.map_some, hash, Option.elim_some,
    scripts]

/-- Depths that fit a tree build one that verifies, and `GetTreeTuples` gives it again. -/
theorem taprootBuilder_tree :
  ((∃ branch, addAll crypto hasher calls = some branch ∧ complete branch = true) ↔
    validDepths (calls.map Prod.fst) = true) ∧
  (validDepths (calls.map Prod.fst) = true ↔ calls.map Prod.fst = [] ∨ ∃ t : LeafTree Unit,
    (∀ x ∈ t.leaves 0, x.1 ≤ taprootControlMaxNodeCount) ∧
      (t.leaves 0).map Prod.fst = calls.map Prod.fst) ∧
  ∀ branch, addAll crypto hasher calls = some branch → complete branch = true →
    (∀ data ∈ getSpendData createTapTweak internalKey branch, ∀ entry ∈ data.scripts,
      (∃ nodes ≤ taprootControlMaxNodeCount,
        entry.2.length = taprootControlBaseSize + taprootControlNodeSize * nodes) ∧
      computeTaprootMerkleRoot (verifier crypto hasher) entry.2
        (crypto.computeTapleafHash entry.1.2 entry.1.1) = data.merkleRoot) ∧
    ∃ again, addAll crypto hasher (getTreeTuples branch) = some again ∧
      complete again = true ∧ getSpendData createTapTweak internalKey again
        = getSpendData createTapTweak internalKey branch := by
  have shape : validDepths (calls.map Prod.fst) = true ↔ ∃ stack,
    pushAll taprootControlMaxNodeCount (fun _ : Bytes × UInt8 => ()) (fun _ _ => ()) calls
      = some stack ∧ complete stack = true := by
    rw [validDepths, Option.any_eq_true, pushAll, pushAll, map_map, foldlM_map]
    rfl
  refine ⟨by rw [shape, complete_iff]; exact complete_iff, validDepths_iff, ?_⟩
  intro branch built hd
  rcases complete_iff.mp ⟨branch, built, hd⟩ with rfl | ⟨t, hb, rfl⟩
  · cases built
    exact ⟨by simp +contextual [getSpendData], [], rfl, rfl, rfl⟩
  obtain rfl := Option.some.inj (built.symm.trans (pushAll_leaves t hb))
  have tuples := getTreeTuples_info crypto hasher t
  refine ⟨?_, [some (info crypto hasher (mirror t))], ?_, rfl, getSpendData_mirror ..⟩
  · intro data given entry mem
    obtain ⟨tweak, -, rfl⟩ := Option.map_eq_some_iff.mp given
    obtain ⟨leaf, tracked, rfl⟩ := mem_map.mp (mem_toFinset.mp mem)
    have short := tuples.symm ▸ bounded_mirror t hb
    refine ⟨⟨_, Nat.cast_le.mp (short _ (mem_map_of_mem tracked)), length_controlBlock ..⟩, ?_⟩
    rw [computeTaprootMerkleRoot_controlBlock]
    exact info_branch t leaf tracked
  · exact (congrArg (addAll crypto hasher) tuples).trans
      (pushAll_leaves (mirror t) (bounded_mirror t hb))

end TaprootBuilder
