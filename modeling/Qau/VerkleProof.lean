import Qau.VerkleRoot

/-!
# Verkle proofs: the prover and the verifier

`VerkleProof`, `Prove`, `proveWalk` and `Verify` of
`qaudb/trie/verkle.go`. The prover appends to four accumulators while it
walks; the verifier checks the shape of the proof (`validateStructure`)
and then recomputes the parent hash of every level from the path, the
siblings and the extension stems. Lengths and indices that a proof carries
are Go `int`s and may be negative.

A nil proof is rejected before anything else and is not modelled.
-/

namespace Qau

abbrev MaxProofDepth : Nat := 32
abbrev MaxSiblingsPerLevel : Nat := BranchingFactor
abbrev MaxProofTotalBytes : Nat := 2 ^ 20

structure SiblingWithIdx where
  idx : Int
  hash : Hash
deriving DecidableEq

/-- The stem of an extension level; `stemLen` 0 marks an internal level. -/
structure ExtensionLevelData where
  stem : Stem
  stemLen : Int
deriving DecidableEq

/-- Why a key is absent. A byte other than the three constants is
`unknown`. -/
inductive ExclusionType where
  | emptySlot
  | extensionMismatch
  | leafMismatch
  | unknown
deriving DecidableEq

structure ExclusionEvidence where
  type : ExclusionType
  extensionStem : Stem := zeroArr 31
  extensionStemLen : Int := 0
  extensionChild : Hash := zeroHash
  encodedLeaf : Bytes := []
deriving DecidableEq

structure VerkleProof where
  key : Bytes
  value : Bytes := []
  path : List Hash := []
  siblings : List (List SiblingWithIdx) := []
  extensionStems : List ExtensionLevelData := []
  exclusionEvidence : Option ExclusionEvidence := none
  inclusionLeaf : Bytes := []
  commitments : List Hash := []
  stemHash : Hash := zeroHash
  isExclusion : Bool := false
  proof : List Bytes := []
deriving DecidableEq

/-! ## The verifier -/

/-- The sibling checks of one level: not too many, indices in range, none
twice. -/
def levelValid (lvl : List SiblingWithIdx) : Bool :=
  decide (lvl.length ≤ MaxSiblingsPerLevel) &&
    lvl.all (fun sib => decide (0 ≤ sib.idx ∧ sib.idx < (BranchingFactor : Int))) &&
    decide (lvl.map SiblingWithIdx.idx).Nodup

def VerkleProof.totalBytes (p : VerkleProof) : Nat :=
  p.key.length + p.value.length + (p.siblings.map fun lvl => lvl.length * (32 + 8)).sum
    + p.commitments.length * 32 + (p.proof.map List.length).sum

def VerkleProof.validateStructure (p : VerkleProof) : Bool :=
  decide (p.key.length ≤ MaxProofDepth) &&
    decide (p.siblings.length ≤ MaxProofDepth) &&
    decide (p.siblings.length ≤ p.key.length) &&
    (decide (p.path.length = p.siblings.length + 1) ||
      (p.path.isEmpty && p.siblings.isEmpty && p.isExclusion)) &&
    (p.extensionStems.isEmpty || decide (p.extensionStems.length = p.siblings.length)) &&
    (p.extensionStems.zip p.siblings).all (fun l =>
      decide (l.1.stemLen ≤ 0) || (decide (l.1.stemLen ≤ StemSize) && l.2.isEmpty)) &&
    p.siblings.all levelValid &&
    decide (p.totalBytes ≤ MaxProofTotalBytes) &&
    p.commitments.isEmpty

def placeSibling (children : UInt8 → Hash) (sib : SiblingWithIdx) : UInt8 → Hash :=
  if 0 ≤ sib.idx ∧ sib.idx < (BranchingFactor : Int) then
    Function.update children (UInt8.ofNat sib.idx.toNat) sib.hash
  else children

/-- The children array of `recomputeParent`: the path child first, then the
siblings, which may overwrite it. -/
def parentChildren (child : Hash) (siblings : List SiblingWithIdx) (pathIndex : UInt8) :
    UInt8 → Hash :=
  siblings.foldl placeSibling (Function.update (fun _ => zeroHash) pathIndex child)

/-- The extension data of a level, if it is an extension level. -/
def extensionLevel : List ExtensionLevelData → Option ExtensionLevelData
  | e :: _ => if 0 < e.stemLen then some e else none
  | [] => none

section
variable (sha3 : Bytes → Hash)

def recomputeParent (child : Hash) (siblings : List SiblingWithIdx) (pathIndex : UInt8) : Hash :=
  sha3 (internalMessage (parentChildren child siblings pathIndex))

/-- The loop of `verifyInclusion` and `verifyExclusion`: the depth reached
after the last level, `none` where a check fails. -/
def verifyLevels (stem : Stem) : Nat → List Hash → List (List SiblingWithIdx) →
    List ExtensionLevelData → Option Nat
  | depth, _, [], _ => some depth
  | depth, parent :: child :: path, lvl :: siblings, exts =>
    match extensionLevel exts with
    | some e =>
      let stemLen := e.stemLen.toNat
      if StemSize < depth + stemLen then none
      else if (stem.toList.drop depth).take stemLen ≠ e.stem.toList.take stemLen then none
      else if sha3 (extensionMessage e.stem child) ≠ parent then none
      else verifyLevels stem (depth + stemLen) (child :: path) siblings exts.tail
    | none =>
      match stem.toList[depth]? with
      | none => none
      | some pathIndex =>
        if recomputeParent sha3 child lvl pathIndex ≠ parent then none
        else verifyLevels stem (depth + 1) (child :: path) siblings exts.tail
  | _, _, _ :: _, _ => none

/-- `leafHashAndValueCheck`; without an encoded leaf the leaf hash is
recomputed from key and value alone. -/
def VerkleProof.leafHashAndValueCheck (p : VerkleProof) (pathLast : Hash) : Bool :=
  if p.inclusionLeaf ≠ [] then
    match decodeLeafNode p.inclusionLeaf with
    | none => false
    | some leaf =>
      decide (sha3 leaf.message = pathLast) && decide (leaf.lookup p.key = some p.value)
  else decide (sha3 (newLeafNode p.key p.value).message = pathLast)

def VerkleProof.verifyInclusion (p : VerkleProof) (root : Hash) : Bool :=
  if p.value = [] then false
  else
    match p.path, p.path.getLast? with
    | first :: _, some last =>
      if p.siblings = [] then
        decide (p.path.length = 1) && decide (first = root) &&
          p.leafHashAndValueCheck sha3 first
      else
        decide (first = root) && p.leafHashAndValueCheck sha3 last &&
          (verifyLevels sha3 (keyToStem sha3 p.key) 0 p.path p.siblings p.extensionStems).isSome
    | _, _ => false

/-- `verifyExclusionEvidence`, with the last entry of the path. -/
def VerkleProof.verifyExclusionEvidence (p : VerkleProof) (forkDepth : Nat) (lastPath : Hash) :
    Bool :=
  match p.exclusionEvidence with
  | none => false
  | some ev =>
    match ev.type with
    | .emptySlot => decide (lastPath = zeroHash)
    | .extensionMismatch =>
      if sha3 (extensionMessage ev.extensionStem ev.extensionChild) ≠ lastPath then false
      else if ev.extensionStemLen < 0 ∨ StemSize < ev.extensionStemLen then false
      else if StemSize < forkDepth + ev.extensionStemLen.toNat then true
      else
        decide (((keyToStem sha3 p.key).toList.drop forkDepth).take ev.extensionStemLen.toNat
          ≠ ev.extensionStem.toList.take ev.extensionStemLen.toNat)
    | .leafMismatch =>
      if ev.encodedLeaf = [] then false
      else
        match decodeLeafNode ev.encodedLeaf with
        | none => false
        | some leaf => decide (sha3 leaf.message = lastPath) && decide (leaf.lookup p.key = none)
    | .unknown => false

def VerkleProof.verifyExclusion (p : VerkleProof) (root : Hash) : Bool :=
  match p.path, p.path.getLast? with
  | first :: _, some last =>
    if p.siblings = [] then
      decide (p.path.length = 1) && decide (first = root) &&
        p.verifyExclusionEvidence sha3 0 first
    else
      decide (first = root) &&
        match verifyLevels sha3 (keyToStem sha3 p.key) 0 p.path p.siblings p.extensionStems with
        | none => false
        | some depth => p.verifyExclusionEvidence sha3 depth last
  | _, _ => p.siblings.isEmpty && decide (root = zeroHash) && p.value.isEmpty

/-- `Verify`. A zero root is accepted for the proof of the empty tree only. -/
def VerkleProof.verify (p : VerkleProof) (root : Hash) : Bool :=
  if root = zeroHash ∧ ¬ (p.isExclusion ∧ p.path = [] ∧ p.siblings = []) then false
  else
    p.validateStructure &&
      if p.isExclusion then p.verifyExclusion sha3 root else p.verifyInclusion sha3 root

/-! ## The prover -/

/-- The accumulators of `proveWalk`. -/
structure ProofWalk where
  path : List Hash := []
  siblings : List (List SiblingWithIdx) := []
  extStems : List ExtensionLevelData := []
  evidence : Option ExclusionEvidence := none

/-- The siblings an internal level carries: the occupied slots off the
path. -/
def levelSiblings (children : UInt8 → Hash) (idx : UInt8) : List SiblingWithIdx :=
  (slots.filter fun i => decide (i ≠ idx ∧ children i ≠ zeroHash)).map
    fun i => { idx := i.toNat, hash := children i }

def TreeNode.childHash : TreeNode → Hash
  | .extension _ _ child => child.hash sha3
  | .extensionRef _ _ childHash => childHash
  | _ => zeroHash

def VerkleTree.proveWalk (pdb : Kv) (t : VerkleTree) :
    Nat → Option TreeNode → Stem → Bytes → Nat → ProofWalk → Option TreeNode × ProofWalk
  | 0, _, _, _, _, w => (none, w)
  | _, none, _, _, _, w => (none, w)
  | fuel + 1, some node, stem, key, depth, w =>
    match stem.toList[depth]? with
    | none => (some node, w)
    | some idx =>
      match node with
      | .leaf n =>
        if n.lookup key ≠ none then (some node, w)
        else
          (none, { w with
            path := w.path ++ [node.hash sha3]
            evidence := some { type := .leafMismatch, encodedLeaf := n.encode } })
      | .internal children =>
        let w := { w with
          path := w.path ++ [node.hash sha3]
          siblings := w.siblings ++ [levelSiblings children idx]
          extStems := w.extStems ++ [{ stem := zeroArr 31, stemLen := 0 }] }
        if children idx = zeroHash then
          (none, { w with
            path := w.path ++ [zeroHash]
            evidence := some { type := .emptySlot } })
        else t.proveWalk pdb fuel (t.getNode pdb (children idx)) stem key (depth + 1) w
      | .extension s stemLen _ | .extensionRef s stemLen _ =>
        if stemLen = 0 ∨ StemSize < stemLen then (none, w)
        else
          let w := { w with path := w.path ++ [node.hash sha3] }
          if s.toList.take stemLen <+: stem.toList.drop depth then
            let w := { w with
              siblings := w.siblings ++ [[]]
              extStems := w.extStems ++ [{ stem := s, stemLen := stemLen }] }
            t.proveWalk pdb fuel (t.extensionChild pdb node) stem key (depth + stemLen) w
          else
            (none, { w with
              evidence := some
                { type := .extensionMismatch, extensionStem := s,
                  extensionStemLen := stemLen, extensionChild := node.childHash sha3 } })

/-- The value `Prove` reports for the leaf it found. A leaf without suffix
entries reports its own value, whatever the key. -/
def LeafNode.provenValue (n : LeafNode) (key : Bytes) : Bytes :=
  match n.lookup key with
  | some v => v
  | none => if n.suffixValues.isEmpty then n.value else []

def VerkleTree.prove (pdb : Kv) (t : VerkleTree) (key : Bytes) : VerkleProof :=
  match t.rootNode with
  | none => { key := key, isExclusion := true }
  | some _ =>
    let (found, w) := t.proveWalk sha3 pdb treeFuel t.rootNode (keyToStem sha3 key) key 0 {}
    let proof : VerkleProof :=
      { key := key, path := w.path, siblings := w.siblings, extensionStems := w.extStems }
    match found with
    | none => { proof with isExclusion := true, exclusionEvidence := w.evidence }
    | some (.leaf n) =>
      { proof with
        value := n.provenValue key
        path := w.path ++ [sha3 n.message]
        stemHash := sha3 n.message
        inclusionLeaf := n.encode }
    | some _ => proof

end

end Qau
