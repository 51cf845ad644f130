import Qau.MerkleArray

/-!
# What a cell proof binds

The matrix commitment is the root of one tree whose upper thirteen levels are
the tree of the row roots and whose lower levels are the trees of the rows
(`isTree_matrixNode`). A cell proof is a climb in this tree: it takes its
lower sides from the column index and its upper sides from the row index.

The verifier fixes neither the lengths of the two sibling lists nor their
sum. Only the sum is forced by the tree. A proof that moves levels from one
list to the other reads other bits of the two indices and leads to another
cell than the one it names (`leadsTo`), and the verifier accepts it for that
cell. Main result: `verifyCellProof2D_binds`.
-/

namespace Qau

variable {p d row col rowLevels colLevels : Nat} {c : Cell}

/-! ## The matrix as one tree -/

/-- The levels of the tree of the row roots. -/
def rowDepth : Nat := 13

theorem two_pow_rowDepth : 2 ^ rowDepth = 2 * cellsPerBlob := by decide

instance : NeZero (2 * cellsPerBlob) := ⟨by decide⟩

section
variable (sha256 : Bytes → Digest) (matrix : Matrix) (colCount : Nat)

/-- The tree of a row; rows are counted modulo their number. -/
def rowTree (row : Nat) : Nat → Digest :=
  buildRowTrees sha256 matrix colCount (Fin.ofNat (2 * cellsPerBlob) row)

/-- The nodes of the commitment: the tree of the row roots above, the trees of
the rows below. -/
def matrixNode (d p : Nat) : Digest :=
  if d < rowDepth then
    treeNode (buildMerkleTree sha256 (buildMatrixCommitment sha256 matrix colCount).2) d p
  else
    treeNode (rowTree sha256 matrix colCount (p / 2 ^ (d - rowDepth))) (d - rowDepth)
      (p % 2 ^ (d - rowDepth))

/-- The cell at an offset of the lowest level; none where the row is padded. -/
def cellAt (p : Nat) : Option Cell :=
  let depth := Nat.clog 2 colCount
  if h : p % 2 ^ depth < maxBlobColumnsExt ∧ p % 2 ^ depth < colCount then
    some (matrix ⟨p % 2 ^ depth, h.1⟩ (Fin.ofNat (2 * cellsPerBlob) (p / 2 ^ depth)))
  else none

/-- What committing to the matrix hashes. -/
def matrixMessages : List Bytes :=
  ((List.finRange (2 * cellsPerBlob)).flatMap fun row =>
    ((List.finRange maxBlobColumnsExt).take colCount).map fun col => 0x00 :: (matrix col row).toList) ++
  ((List.finRange (2 * cellsPerBlob)).flatMap fun row =>
    treeMessages sha256 (rowLeaves sha256 matrix colCount row)) ++
  treeMessages sha256 (buildMatrixCommitment sha256 matrix colCount).2

end

section
variable {sha256 : Bytes → Digest} {matrix : Matrix} {colCount : Nat}

theorem length_rowLeaves (hcol : colCount ≤ maxBlobColumnsExt) (row : Fin (2 * cellsPerBlob)) :
    (rowLeaves sha256 matrix colCount row).length = colCount := by
  simp [rowLeaves, hcol]

theorem length_rowRoots : (buildMatrixCommitment sha256 matrix colCount).2.length = 2 * cellsPerBlob := by
  simp [buildMatrixCommitment]

variable (sha256 matrix colCount) in
theorem clog_length_rowRoots :
    Nat.clog 2 (buildMatrixCommitment sha256 matrix colCount).2.length = rowDepth := by
  rw [length_rowRoots, ← two_pow_rowDepth, Nat.clog_pow 2 _ (by decide)]

theorem getElem_rowRoots (hp : p < 2 * cellsPerBlob)
    (h : p < (buildMatrixCommitment sha256 matrix colCount).2.length) :
    (buildMatrixCommitment sha256 matrix colCount).2[p] = rowTree sha256 matrix colCount p 0 := by
  have hrow : Fin.ofNat (2 * cellsPerBlob) p = ⟨p, hp⟩ := Fin.ext (Nat.mod_eq_of_lt hp)
  rw [rowTree, hrow]
  simp only [buildMatrixCommitment, List.getElem_map, List.getElem_finRange]
  rfl

theorem treeNode_rowRoot (hp : p < 2 ^ rowDepth) :
    treeNode (buildMerkleTree sha256 (buildMatrixCommitment sha256 matrix colCount).2) rowDepth p =
      rowTree sha256 matrix colCount p 0 := by
  have hleaf := treeNode_leaf sha256 (buildMatrixCommitment sha256 matrix colCount).2 p
  rw [clog_length_rowRoots, List.getD_eq_getElem _ _ (by rwa [length_rowRoots])] at hleaf
  rw [hleaf, getElem_rowRoots hp]

theorem matrixNode_upper (hd : d ≤ rowDepth) (hp : p < 2 ^ d) :
    matrixNode sha256 matrix colCount d p =
      treeNode (buildMerkleTree sha256 (buildMatrixCommitment sha256 matrix colCount).2) d p := by
  rcases Nat.lt_or_eq_of_le hd with hlt | rfl
  · rw [matrixNode, if_pos hlt]
  · rw [matrixNode, treeNode_rowRoot hp]
    simp [treeNode, Nat.mod_one]

theorem matrixNode_lower (e p : Nat) : matrixNode sha256 matrix colCount (rowDepth + e) p =
      treeNode (rowTree sha256 matrix colCount (p / 2 ^ e)) e (p % 2 ^ e) := by
  rw [matrixNode, if_neg (by omega), Nat.add_sub_cancel_left]

/-- Children below the row roots stay in the row of their parent. -/
theorem matrixNode_child (e p : Nat) {b : Nat} (hb : b < 2) :
    matrixNode sha256 matrix colCount (rowDepth + e + 1) (2 * p + b) =
      treeNode (rowTree sha256 matrix colCount (p / 2 ^ e)) (e + 1) (2 * (p % 2 ^ e) + b) := by
  have h2 : (2 * p + b) / 2 = p := by omega
  have hdiv : (2 * p + b) / 2 ^ (e + 1) = p / 2 ^ e := by
    rw [Nat.pow_succ', ← Nat.div_div_eq_div_mul, h2]
  have hmod : (2 * p + b) % 2 ^ (e + 1) = 2 * (p % 2 ^ e) + b := by
    rw [Nat.pow_succ', Nat.mod_mul, h2]
    omega
  rw [Nat.add_assoc, matrixNode_lower, hdiv, hmod]

variable (sha256 matrix) in
/-- The children of an inner node, in the tree they belong to. -/
theorem matrixNode_children (hcol : colCount ≤ maxBlobColumnsExt)
    (hd : d < rowDepth + Nat.clog 2 colCount) (hp : p < 2 ^ d) :
    matrixNode sha256 matrix colCount d p = merkleInternalHash sha256
        (matrixNode sha256 matrix colCount (d + 1) (2 * p))
        (matrixNode sha256 matrix colCount (d + 1) (2 * p + 1)) ∧
      pairMessage (matrixNode sha256 matrix colCount (d + 1) (2 * p),
        matrixNode sha256 matrix colCount (d + 1) (2 * p + 1)) ∈ matrixMessages sha256 matrix colCount := by
  by_cases hlow : d < rowDepth
  · have hdepth : d < Nat.clog 2 (buildMatrixCommitment sha256 matrix colCount).2.length := by
      rwa [clog_length_rowRoots]
    have hchild : 2 * p + 1 < 2 ^ (d + 1) := by rw [Nat.pow_succ]; omega
    rw [matrixNode_upper hlow.le hp, matrixNode_upper hlow (by omega), matrixNode_upper hlow hchild]
    exact ⟨isTree_buildMerkleTree sha256 _ d p hdepth hp,
      List.mem_append_right _ (mem_treeMessages _ hdepth hp)⟩
  · obtain ⟨e, rfl⟩ : ∃ e, d = rowDepth + e := ⟨d - rowDepth, by omega⟩
    have hlt := Nat.mod_lt p (Nat.two_pow_pos e)
    have hdepth : e < Nat.clog 2
        (rowLeaves sha256 matrix colCount (Fin.ofNat _ (p / 2 ^ e))).length := by
      rw [length_rowLeaves hcol]
      omega
    rw [matrixNode_lower, matrixNode_child e p (b := 1) (by decide), ← Nat.add_zero (2 * p),
      matrixNode_child e p (b := 0) (by decide), Nat.add_zero]
    exact ⟨isTree_buildMerkleTree sha256 _ e _ hdepth hlt, List.mem_append_left _
      (List.mem_append_right _ (List.mem_flatMap.2 ⟨_, List.mem_finRange _, mem_treeMessages _ hdepth hlt⟩))⟩

variable (sha256 matrix) in
theorem isTree_matrixNode (hcol : colCount ≤ maxBlobColumnsExt) :
    IsTree (merkleInternalHash sha256) (rowDepth + Nat.clog 2 colCount)
      (matrixNode sha256 matrix colCount) := fun _ _ hd hp => (matrixNode_children sha256 matrix hcol hd hp).1

theorem matrixNode_root :
    matrixNode sha256 matrix colCount 0 0 = (buildMatrixCommitment sha256 matrix colCount).1 := by
  rw [matrixNode_upper (Nat.zero_le _) (by decide), treeNode_root]
  simp only [buildMatrixCommitment]

theorem matrixNode_leaf (hcol : colCount ≤ maxBlobColumnsExt) (p : Nat) :
    matrixNode sha256 matrix colCount (rowDepth + Nat.clog 2 colCount) p =
      (cellAt matrix colCount p).elim (zeroArr 32) fun c => merkleLeafHash sha256 c.toList := by
  have hleaf := treeNode_leaf sha256 (rowLeaves sha256 matrix colCount
    (Fin.ofNat _ (p / 2 ^ Nat.clog 2 colCount))) (p % 2 ^ Nat.clog 2 colCount)
  rw [length_rowLeaves hcol] at hleaf
  rw [matrixNode_lower]
  refine hleaf.trans ?_
  rw [cellAt]
  by_cases h : p % 2 ^ Nat.clog 2 colCount < colCount
  · rw [dif_pos ⟨by omega, h⟩, List.getD_eq_getElem _ _ (by rwa [length_rowLeaves hcol])]
    simp [rowLeaves]
  · rw [dif_neg (fun h' => h h'.2), List.getD_eq_default _ _ (by rw [length_rowLeaves hcol]; omega)]
    rfl

theorem mem_matrixMessages_leaf (h : cellAt matrix colCount p = some c) :
    0x00 :: c.toList ∈ matrixMessages sha256 matrix colCount := by
  rw [cellAt] at h
  split at h
  case isFalse => exact nomatch h
  case isTrue hlt =>
    obtain rfl := Option.some.inj h
    refine List.mem_append_left _ (List.mem_append_left _ (List.mem_flatMap.2 ⟨_, List.mem_finRange _,
      List.mem_map.2 ⟨_, ?_, rfl⟩⟩))
    exact List.mem_take_iff_getElem.2 ⟨_, by simpa using ⟨hlt.2, hlt.1⟩, by simp⟩

end

/-! ## Cell proofs -/

section
variable (sha256 : Bytes → Digest)

/-- The climb of a cell proof: the sides of the lower steps are bits of the
column index, those of the upper steps bits of the row index. -/
def cellSteps (proof : MerkleProof) : List (ClimbStep Digest) :=
  proofSteps proof.colIndex.toNat proof.rowSiblings ++ proofSteps proof.rowIndex.toNat proof.colSiblings

/-- What verifying a cell proof hashes. -/
def cellMessages (cell : Cell) (proof : MerkleProof) : List Bytes :=
  (0x00 :: cell.toList) ::
    climbMessages sha256 (cellSteps proof) (merkleLeafHash sha256 cell.toList)

/-- The entry of the matrix at a row and a column. -/
def matrixEntry (matrix : Matrix) (row col : Int) : Option Cell :=
  if h : (0 ≤ row ∧ row < cellsPerBlobExtended) ∧ 0 ≤ col ∧ col < maxBlobColumnsExt then
    some (matrix ⟨col.toNat, by omega⟩ ⟨row.toNat, by unfold cellsPerBlobExtended at h; omega⟩)
  else none

/-- The offset to which a proof for `row` and `col` leads when its lists have
`rowLevels` and `colLevels` siblings. -/
def leadsTo (rowLevels colLevels row col : Nat) : Nat :=
  col % 2 ^ rowLevels + 2 ^ rowLevels * (row % 2 ^ colLevels)

end

section
variable {sha256 : Bytes → Digest} {matrix : Matrix} {colCount : Nat}

theorem length_cellSteps (proof : MerkleProof) :
    (cellSteps proof).length = proof.rowSiblings.length + proof.colSiblings.length := by
  rw [cellSteps, List.length_append, length_proofSteps, length_proofSteps]

theorem stepsOffset_cellSteps (proof : MerkleProof) :
    stepsOffset (cellSteps proof) = leadsTo proof.rowSiblings.length proof.colSiblings.length
      proof.rowIndex.toNat proof.colIndex.toNat := by
  rw [cellSteps, stepsOffset_append, length_proofSteps, stepsOffset_proofSteps, stepsOffset_proofSteps,
    leadsTo]

/-- A proof with as many row siblings as the rows have levels leads to the entry it names. -/
theorem leadsTo_own (hrow : row < 2 ^ rowDepth) (hcol : col < 2 ^ Nat.clog 2 colCount) :
    leadsTo (Nat.clog 2 colCount) rowDepth row col = col + 2 ^ Nat.clog 2 colCount * row := by
  rw [leadsTo, Nat.mod_eq_of_lt hrow, Nat.mod_eq_of_lt hcol]

theorem verifyCellProof2D_eq_true_iff {root : Digest} {cell : Cell} {proof : MerkleProof}
    {count : Int} : verifyCellProof2D sha256 root cell proof count = true ↔
      (0 ≤ proof.rowIndex ∧ proof.rowIndex < cellsPerBlobExtended) ∧
      (0 ≤ proof.colIndex ∧ proof.colIndex < count) ∧
      (proof.rowSiblings.length ≤ maxMerkleProofLen ∧ proof.colSiblings.length ≤ maxMerkleProofLen) ∧
      (∀ sib ∈ proof.rowSiblings ++ proof.colSiblings, sib.length = 32) ∧
      climb (merkleInternalHash sha256) (cellSteps proof) (merkleLeafHash sha256 cell.toList) = root := by
  rw [verifyCellProof2D, cellSteps, climb_append]
  split_ifs with h1 h2
  · simp only [false_iff]
    omega
  · simp only [false_iff]
    omega
  · simp only [verifyMerkleProofGetRoot]
    split
    case h_1 hnone =>
      rw [Option.eq_none_iff_forall_ne_some] at hnone
      simp only [Bool.false_eq_true, false_iff]
      rintro ⟨-, hc, hlen, hsib, -⟩
      exact hnone _ (proofRoot_eq_some_iff.2 ⟨hc, hlen.1,
        fun sib hs => hsib sib (List.mem_append_left _ hs), rfl⟩)
    case h_2 rowRoot hsome =>
      obtain ⟨hc, hlen, hsib, hclimb⟩ := proofRoot_eq_some_iff.1 hsome
      rw [verifyMerkleProof, beq_iff_eq, proofRoot_eq_some_iff, hclimb, List.forall_mem_append]
      tauto

variable (sha256) in
/-- A climb of at least one step ends in a digest of one of its messages. -/
theorem climb_mem_messages {steps : List (ClimbStep Digest)} (hne : steps ≠ []) (cur : Digest) :
    ∃ pair, pairMessage pair ∈ climbMessages sha256 steps cur ∧
      climb (merkleInternalHash sha256) steps cur = sha256 (pairMessage pair) := by
  induction steps generalizing cur with
  | nil => exact absurd rfl hne
  | cons step steps ih =>
    by_cases h : steps = []
    · subst h
      exact ⟨stepPair step cur, by simp [climbMessages, climbPairs], rfl⟩
    · obtain ⟨pair, hmem, heq⟩ := ih h
        (merkleInternalHash sha256 (stepPair step cur).1 (stepPair step cur).2)
      exact ⟨pair, List.mem_cons_of_mem _ hmem, heq⟩

section
variable {cell : Cell} {proof : MerkleProof} (hcol : colCount ≤ maxBlobColumnsExt)
  (hfree : Collisionless sha256 (matrixMessages sha256 matrix colCount ++ cellMessages sha256 cell proof))
  (hclimb : climb (merkleInternalHash sha256) (cellSteps proof) (merkleLeafHash sha256 cell.toList) =
    (buildMatrixCommitment sha256 matrix colCount).1)
include hfree

/-- A leaf message and the message of an inner node do not collide. -/
theorem leaf_ne_pair {pair : Digest × Digest}
    (hc : 0x00 :: c.toList ∈ matrixMessages sha256 matrix colCount ++ cellMessages sha256 cell proof)
    (hpair : pairMessage pair ∈
      matrixMessages sha256 matrix colCount ++ cellMessages sha256 cell proof) :
    merkleLeafHash sha256 c.toList ≠ sha256 (pairMessage pair) := fun heq =>
  absurd (List.cons.inj (hfree _ hc _ hpair heq)).1 (by decide)

include hcol hclimb

/-- The lower part of an accepted climb: what stands above its first `k` steps is
the node of the tree that the remaining ones lead down to. -/
theorem climb_take_eq_node {k : Nat} (hk : k ≤ (cellSteps proof).length)
    (hdepth : (cellSteps proof).length ≤ k + (rowDepth + Nat.clog 2 colCount)) :
    climb (merkleInternalHash sha256) ((cellSteps proof).take k) (merkleLeafHash sha256 cell.toList) =
      matrixNode sha256 matrix colCount ((cellSteps proof).length - k)
        (stepsOffset ((cellSteps proof).drop k)) := by
  have hsplit := List.take_append_drop k (cellSteps proof)
  have hpairs : climbMessages sha256 ((cellSteps proof).drop k) (climb (merkleInternalHash sha256)
      ((cellSteps proof).take k) (merkleLeafHash sha256 cell.toList)) ⊆
      matrixMessages sha256 matrix colCount ++ cellMessages sha256 cell proof := by
    intro m hm
    refine List.mem_append_right _ (List.mem_cons_of_mem _ ?_)
    rw [← hsplit, climbMessages, climbPairs_append, List.map_append]
    exact List.mem_append_right _ hm
  rw [← hsplit, climb_append, ← matrixNode_root] at hclimb
  have hclash := noClash_of_collisionless (rowDepth + Nat.clog 2 colCount)
    (matrixNode sha256 matrix colCount) hfree
    (fun d p hd hp => List.mem_append_left _ (matrixNode_children sha256 matrix hcol hd hp).2) hpairs
  have heq := climb_eq_node (isTree_matrixNode sha256 matrix hcol) (by rw [List.length_drop]; omega) (by simp)
    hclash hclimb
  rwa [Nat.zero_add, Nat.zero_mul, Nat.zero_add, List.length_drop] at heq

/-- With as many siblings as the commitment has levels, the leaf hash is the one
the climb leads to. -/
theorem leafHash_eq_of_length
    (hlen : proof.rowSiblings.length + proof.colSiblings.length = rowDepth + Nat.clog 2 colCount) :
    merkleLeafHash sha256 cell.toList =
      (cellAt matrix colCount (leadsTo proof.rowSiblings.length proof.colSiblings.length
        proof.rowIndex.toNat proof.colIndex.toNat)).elim (zeroArr 32)
        fun c => merkleLeafHash sha256 c.toList := by
  rw [← length_cellSteps] at hlen
  have h := climb_take_eq_node hcol hfree hclimb (k := 0) (Nat.zero_le _) (by omega)
  rw [List.drop_zero, Nat.sub_zero, hlen, matrixNode_leaf hcol,
    stepsOffset_cellSteps] at h
  exact h

theorem cell_eq_of_cellAt
    (hlen : proof.rowSiblings.length + proof.colSiblings.length = rowDepth + Nat.clog 2 colCount)
    (hc : cellAt matrix colCount (leadsTo proof.rowSiblings.length proof.colSiblings.length
      proof.rowIndex.toNat proof.colIndex.toNat) = some c) : cell = c := by
  have h := leafHash_eq_of_length hcol hfree hclimb hlen
  rw [hc] at h
  have hmsg := hfree _ (List.mem_append_right _ List.mem_cons_self) _
    (List.mem_append_left _ (mem_matrixMessages_leaf hc)) h
  exact List.Vector.eq _ _ (List.cons.inj hmsg).2

/-- Unless a digest is the zero padding, an accepted proof has as many siblings
as the commitment has levels and leads to a cell of the matrix. -/
theorem length_and_cellAt_of_accepted
    (hzero : ∀ m ∈ cellMessages sha256 cell proof, sha256 m ≠ zeroArr 32) :
    proof.rowSiblings.length + proof.colSiblings.length = rowDepth + Nat.clog 2 colCount ∧
      cellAt matrix colCount (leadsTo proof.rowSiblings.length proof.colSiblings.length
        proof.rowIndex.toNat proof.colIndex.toNat) = some cell := by
  have hmem : 0x00 :: cell.toList ∈ matrixMessages sha256 matrix colCount ++ cellMessages sha256 cell proof :=
    List.mem_append_right _ List.mem_cons_self
  have hlen : proof.rowSiblings.length + proof.colSiblings.length = rowDepth + Nat.clog 2 colCount := by
    rw [← length_cellSteps]
    rcases lt_trichotomy (cellSteps proof).length (rowDepth + Nat.clog 2 colCount) with hlt | heq | hgt
    · -- the climb would start at an inner node
      exfalso
      have h := climb_take_eq_node hcol hfree hclimb (k := 0) (Nat.zero_le _) (by omega)
      have hchildren := matrixNode_children sha256 matrix hcol hlt
        (stepsOffset_lt (cellSteps proof))
      rw [List.drop_zero, Nat.sub_zero, hchildren.1] at h
      exact leaf_ne_pair hfree hmem (List.mem_append_left _ hchildren.2) h
    · exact heq
    · -- the climb would pass through a leaf
      exfalso
      obtain ⟨k, hk⟩ := Nat.exists_eq_add_of_lt hgt
      have h := climb_take_eq_node hcol hfree hclimb (k := k + 1) (by omega) (by omega)
      have hne : (cellSteps proof).take (k + 1) ≠ [] := by
        intro h0
        have hzero := congrArg List.length h0
        rw [List.length_take, List.length_nil] at hzero
        omega
      obtain ⟨pair, hpair, heq⟩ := climb_mem_messages sha256 hne
        (merkleLeafHash sha256 cell.toList)
      have hpairMem : pairMessage pair ∈ cellMessages sha256 cell proof := by
        refine List.mem_cons_of_mem _ ?_
        rw [← List.take_append_drop (k + 1) (cellSteps proof), climbMessages, climbPairs_append,
          List.map_append]
        exact List.mem_append_left _ hpair
      rw [heq, show (cellSteps proof).length - (k + 1) = rowDepth + Nat.clog 2 colCount by omega,
        matrixNode_leaf hcol] at h
      cases hat : cellAt matrix colCount (stepsOffset ((cellSteps proof).drop (k + 1))) with
      | none => exact hzero _ hpairMem (by rw [h, hat]; rfl)
      | some c =>
        rw [hat] at h
        exact leaf_ne_pair hfree (List.mem_append_left _ (mem_matrixMessages_leaf hat))
          (List.mem_append_right _ hpairMem) h.symm
  refine ⟨hlen, ?_⟩
  cases hat : cellAt matrix colCount (leadsTo proof.rowSiblings.length proof.colSiblings.length
      proof.rowIndex.toNat proof.colIndex.toNat) with
  | none =>
    have h := leafHash_eq_of_length hcol hfree hclimb hlen
    rw [hat] at h
    exact absurd h (hzero _ List.mem_cons_self)
  | some c => rw [cell_eq_of_cellAt hcol hfree hclimb hlen hat]

end

/-! ## Proofs that lead elsewhere -/

variable (sha256 matrix colCount) in
/-- The commitment's own siblings on the way from offset `p`, shared out as
`rowLevels` row siblings and the rest, under the indices `row` and `col`. -/
def movedProof (rowLevels p row col : Nat) : MerkleProof :=
  let sibs := (pathSiblings (matrixNode sha256 matrix colCount) 0
    (rowDepth + Nat.clog 2 colCount) p).map List.Vector.toList
  { rowSiblings := sibs.take rowLevels, colSiblings := sibs.drop rowLevels, rowIndex := row, colIndex := col }

theorem cellSteps_movedProof (hlen : rowLevels + colLevels = rowDepth + Nat.clog 2 colCount) :
    cellSteps (movedProof sha256 matrix colCount rowLevels (leadsTo rowLevels colLevels row col) row col) =
      stepsOf (leadsTo rowLevels colLevels row col) (pathSiblings (matrixNode sha256 matrix colCount) 0
        (rowDepth + Nat.clog 2 colCount) (leadsTo rowLevels colLevels row col)) := by
  generalize hsibs : pathSiblings (matrixNode sha256 matrix colCount) 0
    (rowDepth + Nat.clog 2 colCount) (leadsTo rowLevels colLevels row col) = sibs
  have hlength : sibs.length = rowLevels + colLevels := by rw [← hsibs, length_pathSiblings, hlen]
  have hmap : ∀ l : List Digest, (l.map List.Vector.toList).map (copyInto 32) = l := by
    simp [Function.comp_def]
  have htake : (sibs.take rowLevels).length = rowLevels := by rw [List.length_take]; omega
  have hlow := Nat.mod_lt col (Nat.two_pow_pos rowLevels)
  rw [cellSteps, movedProof, hsibs, proofSteps, proofSteps]
  simp only [← List.map_take, ← List.map_drop, hmap, Int.toNat_natCast]
  conv_rhs => rw [← List.take_append_drop rowLevels sibs, stepsOf_append, htake]
  congr 1
  · refine stepsOf_congr ?_
    rw [htake, leadsTo, Nat.add_mul_mod_self_left, Nat.mod_mod]
  · refine stepsOf_congr ?_
    rw [List.length_drop, hlength, Nat.add_sub_cancel_left, leadsTo,
      Nat.add_mul_div_left _ _ (Nat.two_pow_pos rowLevels), Nat.div_eq_of_lt hlow, Nat.zero_add,
      Nat.mod_mod]

theorem leadsTo_lt (rowLevels colLevels row col : Nat) :
    leadsTo rowLevels colLevels row col < 2 ^ (rowLevels + colLevels) := by
  have hlow := Nat.mod_lt col (Nat.two_pow_pos rowLevels)
  have hhigh := Nat.mod_lt row (Nat.two_pow_pos colLevels)
  calc leadsTo rowLevels colLevels row col < 2 ^ rowLevels + 2 ^ rowLevels * (row % 2 ^ colLevels) := by
        rw [leadsTo]
        omega
    _ = 2 ^ rowLevels * (row % 2 ^ colLevels + 1) := by ring
    _ ≤ 2 ^ rowLevels * 2 ^ colLevels := Nat.mul_le_mul_left _ hhigh
    _ = 2 ^ (rowLevels + colLevels) := (Nat.pow_add ..).symm

variable (sha256) in
/-- Siblings shared out in any way are accepted for the cell they lead to, and
hash nothing new. This holds for every hash function. -/
theorem movedProof_accepted (hcol : colCount ≤ maxBlobColumnsExt)
    (hlen : rowLevels + colLevels = rowDepth + Nat.clog 2 colCount)
    (hrow : row < cellsPerBlobExtended) (hc : col < colCount)
    (hat : cellAt matrix colCount (leadsTo rowLevels colLevels row col) = some c) :
    verifyCellProof2D sha256 (buildMatrixCommitment sha256 matrix colCount).1 c
        (movedProof sha256 matrix colCount rowLevels (leadsTo rowLevels colLevels row col) row col)
        colCount = true ∧
      cellMessages sha256 c (movedProof sha256 matrix colCount rowLevels
        (leadsTo rowLevels colLevels row col) row col) ⊆ matrixMessages sha256 matrix colCount := by
  have hlt := leadsTo_lt rowLevels colLevels row col
  have hsmall : rowDepth + Nat.clog 2 colCount ≤ maxMerkleProofLen := by
    have h4 : Nat.clog 2 colCount ≤ 4 :=
      (Nat.clog_le_iff_le_pow (by decide)).2 (hcol.trans (by decide))
    calc rowDepth + Nat.clog 2 colCount ≤ rowDepth + 4 := by omega
      _ ≤ maxMerkleProofLen := by decide
  have hleaf : matrixNode sha256 matrix colCount (0 + (rowDepth + Nat.clog 2 colCount))
      (leadsTo rowLevels colLevels row col) = merkleLeafHash sha256 c.toList := by
    rw [Nat.zero_add, matrixNode_leaf hcol, hat]
    rfl
  have hclimb := climb_path (isTree_matrixNode sha256 matrix hcol) (d := 0)
    (p := leadsTo rowLevels colLevels row col) (m := rowDepth + Nat.clog 2 colCount) (by omega)
    (by rw [Nat.zero_add, ← hlen]; exact hlt)
  have hmessages := climbMessages_path_subset (isTree_matrixNode sha256 matrix hcol)
    (fun d p hd hp => (matrixNode_children sha256 matrix hcol hd hp).2) (d := 0)
    (p := leadsTo rowLevels colLevels row col) (m := rowDepth + Nat.clog 2 colCount) (by omega)
    (by rw [Nat.zero_add, ← hlen]; exact hlt)
  rw [hleaf] at hclimb hmessages
  rw [Nat.div_eq_of_lt (by rw [← hlen]; exact hlt), matrixNode_root] at hclimb
  constructor
  · rw [verifyCellProof2D_eq_true_iff, cellSteps_movedProof hlen]
    refine ⟨⟨by simp [movedProof], by simpa [movedProof] using hrow⟩,
      ⟨by simp [movedProof], by simpa [movedProof] using hc⟩, ⟨?_, ?_⟩, ?_, hclimb⟩
    · simp [movedProof]; omega
    · simp [movedProof]; omega
    · rw [movedProof, List.take_append_drop]
      simp
  · rw [cellMessages, cellSteps_movedProof hlen]
    exact List.cons_subset.2 ⟨mem_matrixMessages_leaf hat, hmessages⟩

/-! ## The theorem -/

variable (matrix) in
/-- Row by row, the lowest level holds the entries of the matrix. -/
theorem cellAt_offset (hcol : colCount ≤ maxBlobColumnsExt) (row col : Nat)
    (hrow : row < cellsPerBlobExtended) (hc : col < colCount) :
    cellAt matrix colCount (col + 2 ^ Nat.clog 2 colCount * row) = matrixEntry matrix row col := by
  have hpow : col < 2 ^ Nat.clog 2 colCount := hc.trans_le (Nat.le_pow_clog (by decide) colCount)
  rw [cellAt, matrixEntry]
  simp only [Nat.add_mul_mod_self_left, Nat.mod_eq_of_lt hpow,
    Nat.add_mul_div_left _ _ (Nat.two_pow_pos _), Nat.div_eq_of_lt hpow, Nat.zero_add]
  rw [dif_pos ⟨by omega, hc⟩, dif_pos ⟨⟨by omega, by omega⟩, by omega, by omega⟩]
  congr 2
  exact Fin.ext (Nat.mod_eq_of_lt hrow)

variable (matrix) in
theorem exists_matrixEntry (row col : Nat) (hrow : row < cellsPerBlobExtended)
    (hc : col < maxBlobColumnsExt) : ∃ c, matrixEntry matrix row col = some c :=
  ⟨_, dif_pos ⟨⟨by omega, by omega⟩, by omega, by omega⟩⟩

end

/-! ## One tree -/

section
variable (sha256 : Bytes → Digest) (leaves : List Digest) (leafIndex m : Nat)

/-- Every accepted proof of `m` siblings is of the leaf at its index. -/
def BindsLeaf : Prop :=
  ∀ (leafHash : Digest) (proof : List Bytes), proof.length = m →
    Collisionless sha256
      (treeMessages sha256 leaves ++ climbMessages sha256 (proofSteps leafIndex proof) leafHash) →
    verifyMerkleProof sha256 (buildMerkleTree sha256 leaves 0) leafHash leafIndex leaves.length
      proof = true →
    leaves[leafIndex]? = some leafHash

/-- No digest but the leaf leads by `k` siblings of the prover's choice to the
node `d` levels below the root. -/
def BindsBelow (d k : Nat) : Prop :=
  ∀ (x : Digest) (sibs : List Digest), sibs.length = k →
    Collisionless sha256
      (treeMessages sha256 leaves ++ climbMessages sha256 (stepsOf leafIndex sibs) x) →
    climb (merkleInternalHash sha256) (stepsOf leafIndex sibs) x =
      treeNode (buildMerkleTree sha256 leaves) d (leafIndex / 2 ^ k % 2 ^ d) →
    leaves[leafIndex]? = some x

variable {leafIndex}

/-- A proof is settled by its last siblings, as many as the tree has levels. -/
theorem bindsLeaf_iff {d k : Nat} (hidx : leafIndex < leaves.length)
    (hd : d ≤ Nat.clog 2 leaves.length) (hmax : k + d ≤ maxMerkleProofLen) :
    BindsLeaf sha256 leaves leafIndex (k + d) ↔ BindsBelow sha256 leaves leafIndex d k := by
  constructor
  · rintro hbinds x sibs rfl hfree hclimb
    obtain ⟨haccept, hsub⟩ := verifyMerkleProof_pathAbove sha256 leaves hd hidx hmax hclimb
    exact hbinds x _ (by simp [pathAbove]) (hfree.mono (List.append_subset.2
      ⟨List.subset_append_left _ _, hsub⟩)) haccept
  · intro hbelow leafHash proof hlen hfree h
    obtain ⟨-, -, -, hclimb⟩ := proofRoot_eq_some_iff.1 (beq_iff_eq.1 h)
    rw [Int.toNat_natCast] at hclimb
    have hsplit := List.take_append_drop k (proof.map (copyInto 32))
    have htake : ((proof.map (copyInto 32)).take k).length = k := by simp; omega
    have hdrop : ((proof.map (copyInto 32)).drop k).length = d := by simp; omega
    rw [proofSteps, ← hsplit] at hclimb hfree
    have hnode := climb_eq_treeNode (by rwa [hdrop]) hfree hclimb
    rw [htake, hdrop] at hnode
    refine hbelow leafHash _ htake (hfree.mono (List.append_subset.2 ⟨List.subset_append_left _ _, ?_⟩))
      hnode
    intro msg hmsg
    rw [climbMessages, stepsOf_append, climbPairs_append, List.map_append]
    exact List.mem_append_right _ (List.mem_append_left _ hmsg)

theorem bindsBelow_zero (hfree : Collisionless sha256 (treeMessages sha256 leaves))
    (hidx : leafIndex < leaves.length) : BindsBelow sha256 leaves leafIndex m 0 ↔
      treeNode (buildMerkleTree sha256 leaves) m (leafIndex % 2 ^ m) = leaves[leafIndex] := by
  rw [eq_comm, ← Option.some_inj, ← List.getElem?_eq_getElem hidx]
  constructor
  · intro hbelow
    exact hbelow _ [] rfl (by simpa [climbMessages, stepsOf, climbPairs] using hfree)
      (by simp [climb, stepsOf])
  · rintro hnode x sibs hlen - hclimb
    obtain rfl := List.length_eq_zero_iff.1 hlen
    rw [hnode, ← Nat.div_one leafIndex, ← Nat.pow_zero 2, ← hclimb]
    rfl

end

/-- What the two verifiers bind.

A cell proof whose row list has as many siblings as a row has levels, and whose
column list has thirteen, is accepted for the entry it names only. In general
the indices and the lengths of the lists decide: what is accepted for them is
the entry at `(row, col)` exactly if the lists lead to no other cell. In one
tree, a proof of `m` levels binds the node `m` levels below the root. Of a
proof longer than the depth the last siblings lead to a leaf, and it binds
unless that leaf is itself the end of a climb. More than 64 are refused. -/
theorem verifyCellProof2D_binds (sha256 : Bytes → Digest) (matrix : Matrix) (colCount : Nat)
    (hcol : colCount ≤ maxBlobColumnsExt) :
    (∀ (cell : Cell) (proof : MerkleProof), proof.rowSiblings.length = Nat.clog 2 colCount →
      proof.colSiblings.length = rowDepth →
      Collisionless sha256 (matrixMessages sha256 matrix colCount ++ cellMessages sha256 cell proof) →
      verifyCellProof2D sha256 (buildMatrixCommitment sha256 matrix colCount).1 cell proof colCount = true →
      matrixEntry matrix proof.rowIndex proof.colIndex = some cell) ∧
    (∀ row col rowLevels colLevels : Nat, row < cellsPerBlobExtended → col < colCount →
      Collisionless sha256 (matrixMessages sha256 matrix colCount) →
      (∀ m ∈ matrixMessages sha256 matrix colCount, sha256 m ≠ zeroArr 32) →
      ((∀ (cell : Cell) (proof : MerkleProof), proof.rowIndex = row → proof.colIndex = col →
        proof.rowSiblings.length = rowLevels → proof.colSiblings.length = colLevels →
        Collisionless sha256 (matrixMessages sha256 matrix colCount ++ cellMessages sha256 cell proof) →
        (∀ m ∈ cellMessages sha256 cell proof, sha256 m ≠ zeroArr 32) →
        verifyCellProof2D sha256 (buildMatrixCommitment sha256 matrix colCount).1 cell proof colCount =
          true →
        matrixEntry matrix row col = some cell) ↔
      (rowLevels + colLevels = rowDepth + Nat.clog 2 colCount →
        ∀ c, cellAt matrix colCount (leadsTo rowLevels colLevels row col) = some c →
          matrixEntry matrix row col = some c))) ∧
    ∀ (leaves : List Digest) (leafIndex m : Nat) (hidx : leafIndex < leaves.length),
      leaves.length < 2 ^ 63 → Collisionless sha256 (treeMessages sha256 leaves) →
      (m ≤ Nat.clog 2 leaves.length → (BindsLeaf sha256 leaves leafIndex m ↔
        treeNode (buildMerkleTree sha256 leaves) m (leafIndex % 2 ^ m) = leaves[leafIndex])) ∧
      (Nat.clog 2 leaves.length ≤ m → m ≤ maxMerkleProofLen →
        (BindsLeaf sha256 leaves leafIndex m ↔ BindsBelow sha256 leaves leafIndex
          (Nat.clog 2 leaves.length) (m - Nat.clog 2 leaves.length))) ∧
      (maxMerkleProofLen < m → ∀ (root leafHash : Digest) (proof : List Bytes), proof.length = m →
        verifyMerkleProof sha256 root leafHash leafIndex leaves.length proof = false) := by
  refine ⟨?_, ?_, ?_⟩
  · intro cell proof hrows hcols hfree h
    obtain ⟨⟨hr0, hr⟩, ⟨hc0, hc⟩, -, -, hclimb⟩ := verifyCellProof2D_eq_true_iff.1 h
    obtain ⟨row, hrow⟩ := Int.eq_ofNat_of_zero_le hr0
    obtain ⟨col, hcoli⟩ := Int.eq_ofNat_of_zero_le hc0
    have hown := cellAt_offset matrix hcol row col (by omega) (by omega)
    have hpow : col < 2 ^ Nat.clog 2 colCount :=
      (by omega : col < colCount).trans_le (Nat.le_pow_clog (by decide) colCount)
    rw [← leadsTo_own (by rw [two_pow_rowDepth, ← cellsPerBlobExtended]; omega) hpow] at hown
    obtain ⟨c, hentry⟩ := exists_matrixEntry matrix row col (by omega) (by omega)
    rw [hentry] at hown
    have hcell : cell = c := cell_eq_of_cellAt hcol hfree hclimb (by omega)
      (by rw [hrows, hcols, hrow, hcoli]; exact hown)
    rw [hrow, hcoli, hcell]
    exact hentry
  · intro row col rowLevels colLevels hrow hc hfree hzero
    constructor
    · intro hbinds hlen c hat
      obtain ⟨haccept, hsub⟩ := movedProof_accepted sha256 hcol hlen hrow hc hat
      have hsub' : matrixMessages sha256 matrix colCount ++ cellMessages sha256 c
          (movedProof sha256 matrix colCount rowLevels (leadsTo rowLevels colLevels row col) row col) ⊆
          matrixMessages sha256 matrix colCount := List.append_subset.2 ⟨List.Subset.refl _, hsub⟩
      exact hbinds c _ rfl rfl (by simp [movedProof]; omega) (by simp [movedProof]; omega)
        (hfree.mono hsub') (fun m hm => hzero m (hsub hm)) haccept
    · rintro hleads cell proof hr hci rfl rfl hfree' hzero' h
      obtain ⟨-, -, -, -, hclimb⟩ := verifyCellProof2D_eq_true_iff.1 h
      obtain ⟨hlen, hat⟩ := length_and_cellAt_of_accepted hcol hfree' hclimb hzero'
      rw [hr, hci] at hat
      exact hleads hlen cell hat
  · intro leaves leafIndex m hidx hcount hfree
    have h63 : Nat.clog 2 leaves.length ≤ 63 := (Nat.clog_le_iff_le_pow (by decide)).2 hcount.le
    refine ⟨fun hm => ?_, fun hm hmax => ?_, fun hm root leafHash proof hlen => ?_⟩
    · have hmax : 0 + m ≤ maxMerkleProofLen := by rw [maxMerkleProofLen]; omega
      rw [← bindsBelow_zero sha256 leaves m hfree hidx, ← bindsLeaf_iff sha256 leaves hidx hm hmax,
        Nat.zero_add]
    · rw [← bindsLeaf_iff sha256 leaves hidx le_rfl (by omega), Nat.sub_add_cancel hm]
    · rw [← Bool.not_eq_true]
      intro h
      have hle := (proofRoot_eq_some_iff.1 (beq_iff_eq.1 h)).2.1
      omega

/-! ## A proof with a level moved -/

/-- A matrix of zero cells but for row 2. -/
def rowTwoMatrix : Matrix := fun _ row => if row.val = 2 then copyInto cellSize [1] else zeroArr cellSize

/-- With two columns, the proof for the cell in row 2 and column 0 has one row
sibling. When the first column sibling is handed over as a second row sibling,
the verifier takes the proof for one of row 1, whatever the hash function is. -/
theorem verifyCellProof2D_moved_level : matrixEntry rowTwoMatrix 1 0 = some (zeroArr cellSize) ∧
      copyInto cellSize [1] ≠ zeroArr cellSize ∧
      ∀ sha256 : Bytes → Digest, ∃ proof : MerkleProof, proof.rowIndex = 1 ∧ proof.colIndex = 0 ∧
        verifyCellProof2D sha256 (buildMatrixCommitment sha256 rowTwoMatrix 2).1
          (copyInto cellSize [1]) proof 2 = true := by
  refine ⟨rfl, by decide, fun sha256 => ?_⟩
  have hat : cellAt rowTwoMatrix 2 (leadsTo 2 12 1 0) = some (copyInto cellSize [1]) := by
    rfl
  have hlen : 2 + 12 = rowDepth + Nat.clog 2 2 := by decide
  exact ⟨movedProof sha256 rowTwoMatrix 2 2 (leadsTo 2 12 1 0) 1 0, rfl, rfl,
    (movedProof_accepted sha256 (by decide) hlen (by decide) (by decide) hat).1⟩

/-! ## A matrix of zero cells

All nodes of one level are equal, so that committing to it hashes one message
a level. -/

/-- The parent of two equal children. -/
def twin (sha256 : Bytes → Digest) (x : Digest) : Digest := merkleInternalHash sha256 x x

theorem exists_depth_offset (i : Nat) : ∃ d p, p < 2 ^ d ∧ i = 2 ^ d - 1 + p := by
  have hle : 2 ^ Nat.log 2 (i + 1) ≤ i + 1 := Nat.pow_log_le_self 2 (Nat.succ_ne_zero i)
  have hlt := Nat.lt_pow_succ_log_self (b := 2) (by decide) (i + 1)
  exact ⟨Nat.log 2 (i + 1), i + 1 - 2 ^ Nat.log 2 (i + 1), by omega, by omega⟩

section
variable (sha256 : Bytes → Digest)

theorem treeNode_replicate (x : Digest) (k : Nat) {j : Nat} (hd : d + j = k) (hp : p < 2 ^ d) :
    treeNode (buildMerkleTree sha256 (List.replicate (2 ^ k) x)) d p = (twin sha256)^[j] x := by
  have hclog : Nat.clog 2 (List.replicate (2 ^ k) x).length = k := by
    rw [List.length_replicate, Nat.clog_pow 2 k (by decide)]
  induction j generalizing d p with
  | zero =>
    have hleaf := treeNode_leaf sha256 (List.replicate (2 ^ k) x) p
    rw [hclog] at hleaf
    rw [show d = k by omega, hleaf, List.getD_replicate _ (by rwa [show k = d by omega])]
    rfl
  | succ j ih =>
    have hchild : 2 * p + 1 < 2 ^ (d + 1) := by rw [Nat.pow_succ]; omega
    rw [isTree_buildMerkleTree sha256 _ d p (by rw [hclog]; omega) hp, ih (by omega) (by omega),
      ih (by omega) hchild, Function.iterate_succ_apply']
    rfl

theorem treeMessages_replicate (x : Digest) (k : Nat) {m : Bytes}
    (hm : m ∈ treeMessages sha256 (List.replicate (2 ^ k) x)) :
    ∃ j < k, m = pairMessage ((twin sha256)^[j] x, (twin sha256)^[j] x) := by
  obtain ⟨i, hi, rfl⟩ := List.mem_map.1 hm
  obtain ⟨d, p, hp, rfl⟩ := exists_depth_offset i
  rw [List.mem_range, leafStart_eq, List.length_replicate, Nat.clog_pow 2 k (by decide)] at hi
  have hd : d < k := by
    by_contra hge
    have := Nat.pow_le_pow_right (n := 2) (by decide) (not_lt.1 hge)
    omega
  have hchild : 2 * p + 1 < 2 ^ (d + 1) := by rw [Nat.pow_succ]; omega
  refine ⟨k - (d + 1), by omega, ?_⟩
  rw [(child_index d p).1, (child_index d p).2]
  have h0 := treeNode_replicate sha256 x k (d := d + 1) (p := 2 * p) (j := k - (d + 1)) (by omega)
    (by omega)
  have h1 := treeNode_replicate sha256 x k (d := d + 1) (p := 2 * p + 1) (j := k - (d + 1)) (by omega)
    hchild
  rw [treeNode] at h0 h1
  rw [h0, h1]

/-- The messages of the matrix of zero cells with two columns. -/
def zeroMatrixMessages : List Bytes :=
  (0x00 :: List.replicate cellSize 0) :: (List.range 14).map fun j =>
    pairMessage ((twin sha256)^[j] (merkleLeafHash sha256 (List.replicate cellSize 0)),
      (twin sha256)^[j] (merkleLeafHash sha256 (List.replicate cellSize 0)))

theorem matrixMessages_zero :
    matrixMessages sha256 (fun _ _ => zeroArr cellSize) 2 ⊆ zeroMatrixMessages sha256 := by
  have hleaves : ∀ row, rowLeaves sha256 (fun _ _ => zeroArr cellSize) 2 row =
      List.replicate (2 ^ 1) (merkleLeafHash sha256 (List.replicate cellSize 0)) := fun _ => rfl
  have hroots : (buildMatrixCommitment sha256 (fun _ _ => zeroArr cellSize) 2).2 =
      List.replicate (2 ^ rowDepth) (twin sha256 (merkleLeafHash sha256 (List.replicate cellSize 0))) := by
    refine List.eq_replicate_iff.2 ⟨length_rowRoots, ?_⟩
    intro x hx
    simp only [buildMatrixCommitment, List.mem_map] at hx
    obtain ⟨row, -, rfl⟩ := hx
    exact treeNode_replicate sha256 _ 1 (d := 0) (p := 0) (j := 1) rfl (by decide)
  intro m hm
  rw [matrixMessages, List.mem_append, List.mem_append] at hm
  rcases hm with (hm | hm) | hm
  · obtain ⟨row, -, hm⟩ := List.mem_flatMap.1 hm
    obtain ⟨col, -, rfl⟩ := List.mem_map.1 hm
    exact List.mem_cons_self
  · obtain ⟨row, -, hm⟩ := List.mem_flatMap.1 hm
    rw [hleaves] at hm
    obtain ⟨j, hj, rfl⟩ := treeMessages_replicate sha256 _ _ hm
    exact List.mem_cons_of_mem _ (List.mem_map.2 ⟨j, List.mem_range.2 (by omega), rfl⟩)
  · rw [hroots] at hm
    obtain ⟨j, hj, rfl⟩ := treeMessages_replicate sha256 _ _ hm
    rw [rowDepth] at hj
    exact List.mem_cons_of_mem _ (List.mem_map.2 ⟨j + 1, List.mem_range.2 (by omega), rfl⟩)

end

/-- A hash that tells the levels of the matrix of zero cells apart: its first
byte is one more than that of the left child. -/
def zeroSha256 (m : Bytes) : Digest := copyInto 32 [m.getD 1 0 + 1]

theorem collisionless_zeroSha256 : Collisionless zeroSha256 (zeroMatrixMessages zeroSha256) := by
  have hnodup : ((zeroMatrixMessages zeroSha256).map zeroSha256).Nodup := by decide +kernel
  exact fun x hx y hy => List.inj_on_of_nodup_map hnodup hx hy

/-- The commitment's own proof for row 5, column 1 of the matrix of zero cells. -/
theorem verifyCellProof2D_binds_zero : let matrix : Matrix := fun _ _ => zeroArr cellSize
    let proof := movedProof zeroSha256 matrix 2 1 (leadsTo 1 rowDepth 5 1) 5 1
    verifyCellProof2D zeroSha256 (buildMatrixCommitment zeroSha256 matrix 2).1 (zeroArr cellSize)
        proof 2 = true ∧
      matrixEntry matrix 5 1 = some (zeroArr cellSize) := by
  intro matrix proof
  have hat : cellAt matrix 2 (leadsTo 1 rowDepth 5 1) = some (zeroArr cellSize) := by
    rfl
  have hlen : 1 + rowDepth = rowDepth + Nat.clog 2 2 := by decide
  obtain ⟨haccept, hsub⟩ := movedProof_accepted zeroSha256 (by decide) hlen (by decide) (by decide) hat
  have hfree : Collisionless zeroSha256 (matrixMessages zeroSha256 matrix 2 ++
      cellMessages zeroSha256 (zeroArr cellSize) proof) :=
    collisionless_zeroSha256.mono (List.Subset.trans
      (List.append_subset.2 ⟨List.Subset.refl _, hsub⟩) (matrixMessages_zero zeroSha256))
  exact ⟨haccept, (verifyCellProof2D_binds zeroSha256 matrix 2 (by decide)).1 (zeroArr cellSize) proof
    (by simp [proof]; decide) (by simp [proof]; decide) hfree haccept⟩

end Qau
