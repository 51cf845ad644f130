import Qau.MerkleTree
import Qau.MerkleCommitment

/-!
# The array is a tree, the loop a climb

The array `buildMerkleTree` fills is a binary hash tree
(`isTree_buildMerkleTree`), and the loop of the two verifiers is a climb in
it (`proofRoot_eq_some_iff`). What follows for one tree: the last siblings
of an accepted proof start at the node that they lead down to
(`climb_eq_treeNode`), and the tree's own siblings are accepted above every
node (`verifyMerkleProof_pathAbove`).

`Collisionless` assumes of SHA-256 only that no two of the messages at hand
have one digest.
-/

namespace Qau

open Function

variable {leafHash root : Digest} {proof messages : List Bytes}

section
variable (sha256 : Bytes → Digest)

/-- No two of the messages have the same digest. -/
def Collisionless (messages : List Bytes) : Prop :=
  ∀ x ∈ messages, ∀ y ∈ messages, sha256 x = sha256 y → x = y

/-- What is hashed for an inner node. -/
def pairMessage (pair : Digest × Digest) : Bytes := 0x01 :: (pair.1.toList ++ pair.2.toList)

/-- The node of an array by depth and offset. -/
def treeNode (tree : Nat → Digest) (d p : Nat) : Digest := tree (2 ^ d - 1 + p)

/-- What `buildMerkleTree` hashes. -/
def treeMessages (leaves : List Digest) : List Bytes :=
  (List.range (leafStart leaves.length)).map fun i =>
    pairMessage (buildMerkleTree sha256 leaves (2 * i + 1), buildMerkleTree sha256 leaves (2 * i + 2))

/-- The climb a sibling list describes. -/
def proofSteps (index : Nat) (proof : List Bytes) : List (ClimbStep Digest) :=
  stepsOf index (proof.map (copyInto 32))

/-- What a climb hashes. -/
def climbMessages (steps : List (ClimbStep Digest)) (cur : Digest) : List Bytes :=
  (climbPairs (merkleInternalHash sha256) steps cur).map pairMessage

end

/-! ## The array is a tree -/

theorem doubleUntil_two_pow {fuel n k : Nat} (hk : k ≤ Nat.clog 2 n)
    (hfuel : Nat.clog 2 n ≤ k + fuel) : doubleUntil fuel n (2 ^ k) = 2 ^ Nat.clog 2 n := by
  induction fuel generalizing k with
  | zero => rw [doubleUntil, show k = Nat.clog 2 n by omega]
  | succ fuel ih =>
    rw [doubleUntil]
    split
    case isTrue h =>
      have hlt : k < Nat.clog 2 n := by
        by_contra hle
        have := (Nat.clog_le_iff_le_pow (by decide)).1 (not_lt.1 hle)
        omega
      rw [← Nat.pow_succ', ih (by omega) (by omega)]
    case isFalse h =>
      have hle : Nat.clog 2 n ≤ k := (Nat.clog_le_iff_le_pow (by decide)).2 (not_lt.1 h)
      rw [show k = Nat.clog 2 n by omega]

theorem nextPowerOf2_eq (n : Nat) : nextPowerOf2 n = 2 ^ Nat.clog 2 n := by
  rw [nextPowerOf2]
  split
  case isTrue h => rw [Nat.clog_of_right_le_one h, Nat.pow_zero]
  case isFalse h =>
    have hfuel : Nat.clog 2 n ≤ 0 + n :=
      (Nat.clog_le_iff_le_pow (by decide)).2 (by rw [Nat.zero_add]; exact Nat.lt_two_pow_self.le)
    exact doubleUntil_two_pow (k := 0) (Nat.zero_le _) hfuel

theorem leafStart_eq (n : Nat) : leafStart n = 2 ^ Nat.clog 2 n - 1 := by
  rw [leafStart, nextPowerOf2_eq]

section
variable {sha256 : Bytes → Digest}

/-- The loop that fills the inner nodes from `m - 1` down to 0. -/
theorem foldl_inner_nodes (m : Nat) (init : Nat → Digest) :
    let tree := (List.range m).reverse.foldl (fun tree i => update tree i
      (merkleInternalHash sha256 (tree (2 * i + 1)) (tree (2 * i + 2)))) init
    (∀ i, m ≤ i → tree i = init i) ∧
      ∀ i < m, tree i = merkleInternalHash sha256 (tree (2 * i + 1)) (tree (2 * i + 2)) := by
  induction m generalizing init with
  | zero => simp
  | succ m ih =>
    rw [List.range_succ, List.reverse_append, List.reverse_singleton, List.singleton_append,
      List.foldl_cons]
    obtain ⟨hkept, hinner⟩ := ih (update init m
      (merkleInternalHash sha256 (init (2 * m + 1)) (init (2 * m + 2))))
    refine ⟨fun i hi => ?_, fun i hi => ?_⟩
    · rw [hkept i (by omega), update_of_ne (by omega)]
    · rcases Nat.lt_succ_iff_lt_or_eq.1 hi with hlt | rfl
      · exact hinner i hlt
      · rw [hkept i le_rfl, hkept (2 * i + 1) (by omega), hkept (2 * i + 2) (by omega),
          update_self, update_of_ne (by omega), update_of_ne (by omega)]

theorem buildMerkleTree_inner {leaves : List Digest} {i : Nat} (hi : i < leafStart leaves.length) :
    buildMerkleTree sha256 leaves i = merkleInternalHash sha256
      (buildMerkleTree sha256 leaves (2 * i + 1)) (buildMerkleTree sha256 leaves (2 * i + 2)) :=
  (foldl_inner_nodes _ _).2 i hi

theorem buildMerkleTree_leaf (leaves : List Digest) (p : Nat) :
    buildMerkleTree sha256 leaves (leafStart leaves.length + p) = leaves.getD p (zeroArr 32) := by
  rw [buildMerkleTree, (foldl_inner_nodes _ _).1 _ (Nat.le_add_right ..), Nat.add_sub_cancel_left]

theorem child_index (d p : Nat) : 2 * (2 ^ d - 1 + p) + 1 = 2 ^ (d + 1) - 1 + 2 * p ∧
      2 * (2 ^ d - 1 + p) + 2 = 2 ^ (d + 1) - 1 + (2 * p + 1) := by
  have h := Nat.two_pow_pos d
  rw [Nat.pow_succ]
  omega

theorem inner_index_lt {n d p : Nat} (hd : d < Nat.clog 2 n) (hp : p < 2 ^ d) :
    2 ^ d - 1 + p < leafStart n := by
  have hpow : 2 ^ (d + 1) ≤ 2 ^ Nat.clog 2 n := Nat.pow_le_pow_right (by decide) hd
  rw [Nat.pow_succ] at hpow
  rw [leafStart_eq]
  omega

variable (sha256) in
theorem isTree_buildMerkleTree (leaves : List Digest) :
    IsTree (merkleInternalHash sha256) (Nat.clog 2 leaves.length)
      (treeNode (buildMerkleTree sha256 leaves)) := by
  intro d p hd hp
  rw [treeNode, treeNode, treeNode, buildMerkleTree_inner (inner_index_lt hd hp), (child_index d p).1,
    (child_index d p).2]

variable (sha256) in
theorem treeNode_leaf (leaves : List Digest) (p : Nat) :
    treeNode (buildMerkleTree sha256 leaves) (Nat.clog 2 leaves.length) p =
      leaves.getD p (zeroArr 32) := by
  rw [treeNode, ← leafStart_eq, buildMerkleTree_leaf]

theorem treeNode_root (tree : Nat → Digest) : treeNode tree 0 0 = tree 0 := rfl

/-! ## The verifiers climb -/

theorem proofLoop_eq_climb (proof : List Bytes) (index : Nat) (current : Digest) :
    proofLoop sha256 proof index current =
      climb (merkleInternalHash sha256) (proofSteps index proof) current := by
  induction proof generalizing index current with
  | nil => rfl
  | cons sibling rest ih =>
    rw [proofLoop, ih]
    simp only [proofSteps, List.map_cons, stepsOf, climb]
    rcases Nat.mod_two_eq_zero_or_one index with h | h <;> simp [h, stepPair]

theorem proofRoot_eq_some_iff {leafIndex leafCount : Int} :
    proofRoot sha256 leafHash leafIndex leafCount proof = some root ↔
      (0 ≤ leafIndex ∧ leafIndex < leafCount) ∧ proof.length ≤ maxMerkleProofLen ∧
        (∀ sib ∈ proof, sib.length = 32) ∧
        climb (merkleInternalHash sha256) (proofSteps leafIndex.toNat proof) leafHash = root := by
  rw [proofRoot, proofLoop_eq_climb]
  split_ifs with h1 h2 h3 h4
  · simp; omega
  · simp; omega
  · simp; omega
  · simp at h4; simp; grind
  · simp at h4; simp; grind

theorem length_proofSteps (index : Nat) (proof : List Bytes) :
    (proofSteps index proof).length = proof.length := by
  simp [proofSteps]

theorem stepsOffset_proofSteps (index : Nat) (proof : List Bytes) :
    stepsOffset (proofSteps index proof) = index % 2 ^ proof.length := by
  simp [proofSteps, stepsOffset_stepsOf]

/-! ## Messages -/

theorem pairMessage_inj {pair pair' : Digest × Digest} (h : pairMessage pair = pairMessage pair') :
    pair = pair' := by
  have hsplit := List.append_inj (List.cons.inj h).2 (by simp)
  exact Prod.ext (List.Vector.eq _ _ hsplit.1) (List.Vector.eq _ _ hsplit.2)

theorem Collisionless.mono {messages' : List Bytes} (h : Collisionless sha256 messages)
    (hsub : messages' ⊆ messages) : Collisionless sha256 messages' := fun x hx y hy =>
  h x (hsub hx) y (hsub hy)

/-- A climb whose messages are among collision-free ones, with those of the
tree, has no pair that clashes with the tree. -/
theorem noClash_of_collisionless (D : Nat) (node : Nat → Nat → Digest)
    {steps : List (ClimbStep Digest)} {cur : Digest} (hfree : Collisionless sha256 messages)
    (htree : ∀ d p, d < D → p < 2 ^ d →
      pairMessage (node (d + 1) (2 * p), node (d + 1) (2 * p + 1)) ∈ messages)
    (hclimb : climbMessages sha256 steps cur ⊆ messages) :
    NoClash (merkleInternalHash sha256) D node (climbPairs (merkleInternalHash sha256) steps cur) := by
  intro pair hpair d p hd hp heq
  exact pairMessage_inj (hfree _ (hclimb (List.mem_map_of_mem hpair)) _ (htree d p hd hp) heq)

theorem mem_treeMessages (leaves : List Digest) {d p : Nat} (hd : d < Nat.clog 2 leaves.length)
    (hp : p < 2 ^ d) : pairMessage (treeNode (buildMerkleTree sha256 leaves) (d + 1) (2 * p),
      treeNode (buildMerkleTree sha256 leaves) (d + 1) (2 * p + 1)) ∈ treeMessages sha256 leaves := by
  refine List.mem_map.2 ⟨2 ^ d - 1 + p, List.mem_range.2 (inner_index_lt hd hp), ?_⟩
  rw [(child_index d p).1, (child_index d p).2]
  rfl

/-- Climbing with the tree's own siblings hashes what building the tree has
hashed. -/
theorem climbMessages_path_subset {D : Nat} {node : Nat → Nat → Digest}
    (hisTree : IsTree (merkleInternalHash sha256) D node) (htree : ∀ d p, d < D → p < 2 ^ d →
      pairMessage (node (d + 1) (2 * p), node (d + 1) (2 * p + 1)) ∈ messages) {d m p : Nat}
    (hd : d + m ≤ D) (hp : p < 2 ^ (d + m)) :
    climbMessages sha256 (stepsOf p (pathSiblings node d m p)) (node (d + m) p) ⊆ messages := by
  induction m generalizing p with
  | zero => simp [climbMessages, pathSiblings, stepsOf, climbPairs]
  | succ m ih =>
    have hp2 : p / 2 < 2 ^ (d + m) := by
      rw [← Nat.add_assoc] at hp
      omega
    rw [climbMessages, pathSiblings, stepsOf, climbPairs, show d + (m + 1) = d + m + 1 from rfl,
      stepPair_sibling, ← hisTree _ _ (by omega) hp2]
    exact List.cons_subset.2 ⟨htree _ _ (by omega) hp2, ih (by omega) hp2⟩

/-! ## One tree -/

/-- Where the last siblings of a climb to the root start: at the node that
they lead down to, if they are no more than the tree has levels. -/
theorem climb_eq_treeNode {leaves sibs rest : List Digest} {leafIndex : Nat}
    (hlen : rest.length ≤ Nat.clog 2 leaves.length) (hfree : Collisionless sha256
      (treeMessages sha256 leaves ++ climbMessages sha256 (stepsOf leafIndex (sibs ++ rest)) leafHash))
    (hclimb : climb (merkleInternalHash sha256) (stepsOf leafIndex (sibs ++ rest)) leafHash =
      buildMerkleTree sha256 leaves 0) :
    climb (merkleInternalHash sha256) (stepsOf leafIndex sibs) leafHash =
      treeNode (buildMerkleTree sha256 leaves) rest.length
        (leafIndex / 2 ^ sibs.length % 2 ^ rest.length) := by
  rw [stepsOf_append, climb_append, ← treeNode_root (buildMerkleTree sha256 leaves)] at hclimb
  have hsub : climbMessages sha256 (stepsOf (leafIndex / 2 ^ sibs.length) rest)
      (climb (merkleInternalHash sha256) (stepsOf leafIndex sibs) leafHash) ⊆
        climbMessages sha256 (stepsOf leafIndex (sibs ++ rest)) leafHash := by
    intro x hx
    rw [climbMessages, stepsOf_append, climbPairs_append, List.map_append]
    exact List.mem_append_right _ hx
  have hclash := noClash_of_collisionless (Nat.clog 2 leaves.length)
    (treeNode (buildMerkleTree sha256 leaves)) hfree
    (fun d p hd hp => List.mem_append_left _ (mem_treeMessages leaves hd hp))
    (List.subset_append_of_subset_right _ hsub)
  have heq := climb_eq_node (isTree_buildMerkleTree sha256 leaves) (by simpa using hlen) (by simp)
    hclash hclimb
  simpa [stepsOffset_stepsOf] using heq

theorem leaves_eq_of_root_eq {leaves leaves' : List Digest} (hlen : leaves.length = leaves'.length)
    (hfree : Collisionless sha256 (treeMessages sha256 leaves ++ treeMessages sha256 leaves'))
    (h : buildMerkleTree sha256 leaves 0 = buildMerkleTree sha256 leaves' 0) : leaves = leaves' := by
  have htree' := isTree_buildMerkleTree sha256 leaves'
  have hleaf' := treeNode_leaf sha256 leaves'
  have hmem' := @mem_treeMessages sha256 leaves'
  rw [← hlen] at htree' hleaf' hmem'
  have hnode := fun p hp => node_eq_of_root_eq (isTree_buildMerkleTree sha256 leaves) htree'
    (fun d p hd hp heq => pairMessage_inj (hfree _
      (List.mem_append_left _ (mem_treeMessages leaves hd hp)) _
      (List.mem_append_right _ (hmem' hd hp)) heq)) h (le_refl (Nat.clog 2 leaves.length)) (p := p) hp
  refine List.ext_getElem hlen fun p hp hp' => ?_
  have hlt : p < 2 ^ Nat.clog 2 leaves.length := hp.trans_le (Nat.le_pow_clog (by decide) _)
  have heq := hnode p hlt
  rw [treeNode_leaf, hleaf', List.getD_eq_getElem _ _ hp, List.getD_eq_getElem _ _ hp'] at heq
  exact heq

/-- Two accepted proofs of one length for one index are of the same leaf. -/
theorem leafHash_eq_of_length_eq {leafHash' : Digest} {leafIndex leafCount : Int}
    {proof' : List Bytes} (hlen : proof.length = proof'.length)
    (hfree : Collisionless sha256 (climbMessages sha256 (proofSteps leafIndex.toNat proof) leafHash ++
      climbMessages sha256 (proofSteps leafIndex.toNat proof') leafHash'))
    (h : verifyMerkleProof sha256 root leafHash leafIndex leafCount proof = true)
    (h' : verifyMerkleProof sha256 root leafHash' leafIndex leafCount proof' = true) :
    leafHash = leafHash' := by
  obtain ⟨-, -, -, hclimb⟩ := proofRoot_eq_some_iff.1 (beq_iff_eq.1 h)
  obtain ⟨-, -, -, hclimb'⟩ := proofRoot_eq_some_iff.1 (beq_iff_eq.1 h')
  refine climb_inj (sides_stepsOf (by simpa using hlen)) ?_ (hclimb.trans hclimb'.symm)
  intro pair hpair pair' hpair' heq
  exact pairMessage_inj (hfree _ (List.mem_append_left _ (List.mem_map_of_mem hpair)) _
    (List.mem_append_right _ (List.mem_map_of_mem hpair')) heq)

section
variable (sha256) (leaves : List Digest) (leafIndex m : Nat)

/-- The tree's own siblings above the node `m` levels below the root. -/
def pathAbove : List Digest :=
  pathSiblings (treeNode (buildMerkleTree sha256 leaves)) 0 m (leafIndex % 2 ^ m)

variable {leafIndex m} (hm : m ≤ Nat.clog 2 leaves.length)
include hm

/-- A climb to a node of the tree, a leaf or another one, and on with the
tree's own siblings is accepted; the rest hashes nothing new. -/
theorem verifyMerkleProof_pathAbove {sibs : List Digest} {x : Digest}
    (hidx : leafIndex < leaves.length) (hmax : sibs.length + m ≤ maxMerkleProofLen)
    (hclimb : climb (merkleInternalHash sha256) (stepsOf leafIndex sibs) x =
      treeNode (buildMerkleTree sha256 leaves) m (leafIndex / 2 ^ sibs.length % 2 ^ m)) :
    let proof := (sibs ++ pathAbove sha256 leaves (leafIndex / 2 ^ sibs.length) m).map
      List.Vector.toList
    verifyMerkleProof sha256 (buildMerkleTree sha256 leaves 0) x leafIndex leaves.length proof = true ∧
      climbMessages sha256 (proofSteps leafIndex proof) x ⊆
        treeMessages sha256 leaves ++ climbMessages sha256 (stepsOf leafIndex sibs) x := by
  intro proof
  generalize hidx' : leafIndex / 2 ^ sibs.length = index at hclimb proof
  have hlt := Nat.mod_lt index (Nat.two_pow_pos m)
  have hsteps : proofSteps leafIndex proof = stepsOf leafIndex sibs ++
      stepsOf (index % 2 ^ m) (pathAbove sha256 leaves index m) := by
    rw [proofSteps, List.map_map, show copyInto 32 ∘ List.Vector.toList = id by ext1; simp, List.map_id,
      stepsOf_append, hidx']
    congr 1
    exact stepsOf_congr (by simp [pathAbove])
  have hpath := climb_path (isTree_buildMerkleTree sha256 leaves) (d := 0) (m := m)
    (p := index % 2 ^ m) (by omega) (by rwa [Nat.zero_add])
  have hsub := climbMessages_path_subset (isTree_buildMerkleTree sha256 leaves)
    (fun d p hd hp => mem_treeMessages leaves hd hp) (d := 0) (m := m) (p := index % 2 ^ m) (by omega)
    (by rwa [Nat.zero_add])
  rw [Nat.zero_add] at hpath hsub
  rw [Nat.div_eq_of_lt hlt] at hpath
  constructor
  · have hwidth : ∀ sib ∈ proof, sib.length = 32 := by
      intro sib hsib
      obtain ⟨v, -, rfl⟩ := List.mem_map.1 hsib
      simp
    refine beq_iff_eq.2 (proofRoot_eq_some_iff.2 ⟨by omega, by simpa [proof, pathAbove] using hmax,
      hwidth, ?_⟩)
    rw [Int.toNat_natCast, hsteps, climb_append, hclimb, pathAbove, hpath, treeNode_root]
  · rw [hsteps, climbMessages, climbPairs_append, List.map_append, hclimb]
    exact List.append_subset.2 ⟨List.subset_append_right _ _,
      fun _ hx => List.mem_append_left _ (hsub hx)⟩

omit hm in
/-- The loop of `generateMerkleProof` walks up the same siblings. -/
theorem siblingsFrom_eq (tree : Nat → Digest) {d p : Nat} (hp : p < 2 ^ d) :
    siblingsFrom tree (2 ^ d - 1 + p) =
      (pathSiblings (treeNode tree) 0 d p).map List.Vector.toList := by
  induction d generalizing p with
  | zero =>
    obtain rfl : p = 0 := by simpa using hp
    rw [siblingsFrom, dif_neg (by simp)]
    rfl
  | succ d ih =>
    have hpos := Nat.two_pow_pos d
    have hp2 : p / 2 < 2 ^ d := by
      rw [Nat.pow_succ] at hp
      omega
    have hparent : (2 ^ (d + 1) - 1 + p - 1) / 2 = 2 ^ d - 1 + p / 2 := by
      rw [Nat.pow_succ]
      omega
    rw [siblingsFrom, dif_pos (by rw [Nat.pow_succ]; omega)]
    dsimp only
    rw [hparent, ih hp2, pathSiblings, List.map_cons, treeNode, siblingOffset, Nat.zero_add]
    congr 2
    rcases Nat.mod_two_eq_zero_or_one p with h | h
    · rw [if_pos h, if_pos (by rw [Nat.pow_succ]; omega)]
      congr 1
      rw [Nat.pow_succ]
      omega
    · rw [if_neg (by rw [Nat.pow_succ]; omega), if_neg (by omega)]
      congr 1
      rw [Nat.pow_succ]
      omega

omit hm in
theorem verifyMerkleProof_generateMerkleProof (hidx : leafIndex < leaves.length)
    (hmax : Nat.clog 2 leaves.length ≤ maxMerkleProofLen) :
    verifyMerkleProof sha256 (buildMerkleTree sha256 leaves 0) (leaves.getD leafIndex (zeroArr 32))
      leafIndex leaves.length
      (generateMerkleProof (buildMerkleTree sha256 leaves) leafIndex leaves.length) = true := by
  have hlt : leafIndex < 2 ^ Nat.clog 2 leaves.length := hidx.trans_le (Nat.le_pow_clog (by decide) _)
  have h := (verifyMerkleProof_pathAbove sha256 leaves (le_refl (Nat.clog 2 leaves.length)) hidx
    (show ([] : List Digest).length + _ ≤ _ by simpa using hmax) rfl).1
  simp only [List.length_nil, Nat.pow_zero, Nat.div_one, List.nil_append, pathAbove,
    Nat.mod_eq_of_lt hlt, buildMerkleTree_leaf, ← siblingsFrom_eq _ hlt, ← leafStart_eq] at h
  exact h

end

end

end Qau
