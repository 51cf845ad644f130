import Qau.ErasureCode

/-!
# The matrix commitment

A translation of `merkle_commitment.go`. Every row of the extended matrix is
the leaf list of a hash tree, the roots of the rows are the leaf list of one
more tree, and its root is the commitment. A proof for a cell has a sibling
list for each of the two trees.

SHA-256 is the parameter `sha256`. Arrays of digests are functions from
indices, and the loop that builds the inner nodes is a fold of updates, in
the order of the source.
-/

namespace Qau

abbrev Digest := ByteArr 32

section
variable (sha256 : Bytes → Digest)

def merkleLeafHash (cell : Bytes) : Digest := sha256 (0x00 :: cell)

def merkleInternalHash (left right : Digest) : Digest := sha256 (0x01 :: (left.toList ++ right.toList))

/-! ## Building a tree -/

/-- The doubling loop of `nextPowerOf2`; `fuel` bounds its rounds. -/
def doubleUntil : (fuel n p : Nat) → Nat
  | 0, _, p => p
  | fuel + 1, n, p => if p < n then doubleUntil fuel n (2 * p) else p

def nextPowerOf2 (n : Nat) : Nat := if n ≤ 1 then 1 else doubleUntil n n 1

/-- The index of the first leaf in the array of a tree with `n` leaves. -/
def leafStart (n : Nat) : Nat := nextPowerOf2 n - 1

/-- The nodes of the tree by their index in the array: the root at 0, the
children of `i` at `2 * i + 1` and `2 * i + 2`, the leaves at the end. Missing
leaves are zero. -/
def buildMerkleTree (leaves : List Digest) : Nat → Digest :=
  (List.range (leafStart leaves.length)).reverse.foldl
    (fun tree i => Function.update tree i (merkleInternalHash sha256 (tree (2 * i + 1)) (tree (2 * i + 2))))
    (fun i => leaves.getD (i - leafStart leaves.length) (zeroArr 32))

/-! ## Proofs in one tree -/

/-- The loop of `generateMerkleProof`: the sibling of the node and so on up to
the root. -/
def siblingsFrom (tree : Nat → Digest) (nodeIndex : Nat) : List Bytes :=
  if h : 0 < nodeIndex then
    let parent := (nodeIndex - 1) / 2
    let sibling := if nodeIndex % 2 = 1 then tree (2 * parent + 2) else tree (2 * parent + 1)
    sibling.toList :: siblingsFrom tree parent
  else []
  termination_by nodeIndex
  decreasing_by omega

def generateMerkleProof (tree : Nat → Digest) (leafIndex leafCount : Nat) : List Bytes :=
  siblingsFrom tree (leafStart leafCount + leafIndex)

def maxMerkleProofLen : Nat := 64

/-- The loop over the siblings. -/
def proofLoop : List Bytes → Nat → Digest → Digest
  | [], _, current => current
  | sibling :: rest, index, current =>
    let sibArr := copyInto 32 sibling
    proofLoop rest (index / 2)
      (if index % 2 = 0 then merkleInternalHash sha256 current sibArr
        else merkleInternalHash sha256 sibArr current)

/-- The checks and the loop that the two verifiers share. -/
def proofRoot (leafHash : Digest) (leafIndex leafCount : Int) (proof : List Bytes) : Option Digest :=
  if leafCount ≤ 0 then none
  else if leafIndex < 0 ∨ leafIndex ≥ leafCount then none
  else if proof.length > maxMerkleProofLen then none
  else if proof.any fun sib => sib.length ≠ 32 then none
  else some (proofLoop sha256 proof leafIndex.toNat leafHash)

def verifyMerkleProof (root leafHash : Digest) (leafIndex leafCount : Int) (proof : List Bytes) : Bool :=
  proofRoot sha256 leafHash leafIndex leafCount proof == some root

def verifyMerkleProofGetRoot (leafHash : Digest) (leafIndex leafCount : Int) (proof : List Bytes) :
    Option Digest :=
  proofRoot sha256 leafHash leafIndex leafCount proof

/-! ## The matrix -/

abbrev Matrix := BlobMatrixExtended cellsPerBlob

def cellsPerBlobExtended : Nat := 2 * cellsPerBlob

/-- The leaf hashes of a row. -/
def rowLeaves (matrix : Matrix) (colCount : Nat) (row : Fin (2 * cellsPerBlob)) : List Digest :=
  ((List.finRange maxBlobColumnsExt).take colCount).map fun col =>
    merkleLeafHash sha256 (matrix col row).toList

def buildRowTrees (matrix : Matrix) (colCount : Nat) : Fin (2 * cellsPerBlob) → Nat → Digest :=
  fun row => buildMerkleTree sha256 (rowLeaves sha256 matrix colCount row)

/-- The root and the roots of the rows. -/
def buildMatrixCommitment (matrix : Matrix) (colCount : Nat) : Digest × List Digest :=
  let rowRoots := (List.finRange (2 * cellsPerBlob)).map fun row =>
    buildRowTrees sha256 matrix colCount row 0
  (buildMerkleTree sha256 rowRoots 0, rowRoots)

structure MerkleProof where
  rowSiblings : List Bytes
  colSiblings : List Bytes
  rowIndex : Int
  colIndex : Int
  deriving DecidableEq, Repr

/-- A nil proof, which the source rejects first, is not modelled. -/
def verifyCellProof2D (root : Digest) (cell : Cell) (proof : MerkleProof) (colCount : Int) : Bool :=
  if proof.rowIndex < 0 ∨ proof.rowIndex ≥ cellsPerBlobExtended then false
  else if proof.colIndex < 0 ∨ proof.colIndex ≥ colCount then false
  else
    let leafHash := merkleLeafHash sha256 cell.toList
    match verifyMerkleProofGetRoot sha256 leafHash proof.colIndex colCount proof.rowSiblings with
    | none => false
    | some rowRoot =>
      verifyMerkleProof sha256 root rowRoot proof.rowIndex cellsPerBlobExtended proof.colSiblings

end

end Qau
