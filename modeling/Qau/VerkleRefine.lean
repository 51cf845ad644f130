import Qau.VerkleTree
import Qau.RadixHash

/-!
# The Verkle tree refines a hashed radix tree

The tree in memory is a root node plus a store of encoded nodes; what it
stands for is a radix tree over the bytes of the stems, with the leaves of
`LeafNode` as payload. `Matches` says that a node in memory is the top of
a radix tree, `Reads` that the store returns the top of every subtree.

`Wrote` is what a call does to the store: the nodes it writes are tops of
subtrees of the new tree. The last section carries it from a child to its
parent. All reads of a call come before its writes, so the store only has
to be right at the start.
-/

namespace Qau

open Function

/-- The radix tree a Verkle tree stands for. -/
abbrev StemTree := Radix UInt8 LeafNode

/-- Node hashing as a Merkle scheme. -/
def verkle (sha3 : Bytes → Hash) : Merkle UInt8 LeafNode Bytes Hash where
  digest := sha3
  zero := zeroHash
  leafMsg := LeafNode.message
  nodeMsg := internalMessage
  runMsg s h := extensionMessage (copyInto 31 s) h
  node_inj h := internalMessage_injective h
  run_inj h := (extensionMessage_inj h).2
  leaf_ne_node _ _ h := absurd (List.cons.inj h).1 (by decide)
  leaf_ne_run _ _ _ h := absurd (List.cons.inj h).1 (by decide)
  node_ne_run _ _ _ h := absurd (List.cons.inj h).1 (by decide)

section
variable (sha3 : Bytes → Hash)

def StemTree.hash (t : StemTree) : Hash := Radix.hash (verkle sha3) t

/-! ## Nodes in memory and in the store -/

/-- The top of a radix tree as the store returns it. -/
def nodeOf : StemTree → TreeNode
  | .empty => .internal fun _ => zeroHash
  | .leaf _ n => .leaf n
  | .node c => .internal fun i => StemTree.hash sha3 (c i)
  | .run s t => .extensionRef (copyInto 31 s) s.length (StemTree.hash sha3 t)

/-- A node has the content of the top of a tree; the child of an extension
counts by its hash. -/
def Top (n : TreeNode) (t : StemTree) : Prop :=
  t ≠ .empty ∧ n.unload sha3 = nodeOf sha3 t

/-- A node in memory stands for a tree: a loaded child is the top of the
subtree behind the run. -/
inductive Matches : TreeNode → StemTree → Prop
  | leaf {r n} : Matches (.leaf n) (.leaf r n)
  | internal {c} : Matches (.internal fun i => StemTree.hash sha3 (c i)) (.node c)
  | extension {s t} :
      Matches (.extension (copyInto 31 s) s.length (nodeOf sha3 t)) (.run s t)
  | extensionRef {s t} :
      Matches (.extensionRef (copyInto 31 s) s.length (StemTree.hash sha3 t)) (.run s t)

/-- A node that encodes with its child's hash. -/
def TreeNode.Loaded : TreeNode → Prop
  | .extensionRef _ _ _ => False
  | _ => True

variable {sha3}

theorem hash_nodeOf {t : StemTree} (h : t ≠ .empty) :
    (nodeOf sha3 t).hash sha3 = StemTree.hash sha3 t := by
  cases t with
  | empty => exact absurd rfl h
  | _ => rfl

theorem msg_nodeOf {t : StemTree} (h : t ≠ .empty) :
    Radix.msg (verkle sha3) t = some ((nodeOf sha3 t).message sha3) := by
  cases t with
  | empty => exact absurd rfl h
  | _ => rfl

theorem Top.hash_eq {n : TreeNode} {t : StemTree} (h : Top sha3 n t) :
    n.hash sha3 = StemTree.hash sha3 t := by
  rw [← TreeNode.hash_unload, h.2, hash_nodeOf h.1]

theorem Top.msg_eq {n : TreeNode} {t : StemTree} (h : Top sha3 n t) :
    Radix.msg (verkle sha3) t = some (n.message sha3) := by
  rw [msg_nodeOf h.1, ← h.2]
  cases n <;> rfl

theorem top_nodeOf {t : StemTree} (h : t ≠ .empty) : Top sha3 (nodeOf sha3 t) t := by
  refine ⟨h, ?_⟩
  cases t <;> rfl

theorem matches_nodeOf {t : StemTree} (h : t ≠ .empty) : Matches sha3 (nodeOf sha3 t) t := by
  cases t with
  | empty => exact absurd rfl h
  | leaf r n => exact .leaf
  | node c => exact .internal
  | run s t => exact .extensionRef

theorem top_extension {child : TreeNode} {t : StemTree} (h : Top sha3 child t) (s : Bytes) :
    Top sha3 (.extension (copyInto 31 s) s.length child) (.run s t) := by
  refine ⟨fun h => (nomatch h), ?_⟩
  rw [TreeNode.unload, h.hash_eq]
  rfl

/-- Behind a run there is a node, so its loaded child is not empty. -/
theorem Matches.top {n : TreeNode} {t : StemTree} (h : Matches sha3 n t) {k : Nat}
    (hwf : Radix.WF k t) : Top sha3 n t := by
  cases h with
  | leaf | internal | extensionRef => exact top_nodeOf fun h => nomatch h
  | @extension s t =>
    obtain ⟨-, hnode, -⟩ := hwf
    have ht : t ≠ .empty := by rintro rfl; exact hnode
    exact top_extension (top_nodeOf ht) s

theorem Top.eq_nodeOf {n : TreeNode} {t : StemTree} (h : Top sha3 n t)
    (hnode : t.isNode) : n = nodeOf sha3 t := by
  cases t with
  | node c =>
    rw [← h.2]
    have h2 := h.2
    cases n with
    | extension => cases h2
    | _ => rfl
  | _ => exact hnode.elim

theorem hash_eq_of_nodeOf_eq {t u : StemTree} (ht : t ≠ .empty) (hu : u ≠ .empty)
    (h : nodeOf sha3 t = nodeOf sha3 u) : StemTree.hash sha3 t = StemTree.hash sha3 u := by
  rw [← hash_nodeOf ht, h, hash_nodeOf hu]

theorem msg_eq_of_nodeOf_eq {t u : StemTree} (ht : t ≠ .empty) (hu : u ≠ .empty)
    (h : nodeOf sha3 t = nodeOf sha3 u) :
    Radix.msg (verkle sha3) t = Radix.msg (verkle sha3) u := by
  rw [msg_nodeOf ht, h, msg_nodeOf hu]

variable (sha3)

/-- The store returns the top of every subtree. -/
def Reads (pdb : Kv) (t : VerkleTree) (T : StemTree) : Prop :=
  ∀ u ∈ Radix.subs T, t.getNode pdb (StemTree.hash sha3 u) = some (nodeOf sha3 u)

/-- Storing nodes one after the other. -/
def VerkleTree.stores (t : VerkleTree) (L : List TreeNode) : VerkleTree :=
  L.foldl (fun t n => t.storeNode sha3 n) t

/-- The leaves carry their own stem: the entry at path `q` below the start
`pre` of the stem belongs to the stem `pre ++ q`. -/
def Located (pre : Bytes) (T : StemTree) : Prop :=
  ∀ q n, Radix.find T q = some n → (keyToStem sha3 n.key).toList = pre ++ q

/-- The internal node without children, which `delete` stores before it
notices that it is empty. -/
def emptyInternal : TreeNode := .internal fun _ => zeroHash

/-- The nodes `L` that a call stored while it turned `T` into `T'`: they are
tops of subtrees of `T'` (or the empty internal node), and every subtree of
`T'` was already in `T` or is among them. -/
structure Wrote (T T' : StemTree) (L : List TreeNode) : Prop where
  sound : ∀ m ∈ L, m.Loaded ∧ ((∃ u ∈ Radix.subs T', Top sha3 m u) ∨ m = emptyInternal)
  complete : ∀ u ∈ Radix.subs T',
    (∃ u' ∈ Radix.subs T, nodeOf sha3 u' = nodeOf sha3 u) ∨ ∃ m ∈ L, Top sha3 m u

/-- A call that took the node `n` for `T` and returned `n'` for `T'`. -/
structure Built (T T' : StemTree) (n n' : TreeNode) (L : List TreeNode) : Prop
    extends Wrote sha3 T T' L where
  top : Top sha3 n' T'
  fresh : n' = n ∨ (n'.Loaded ∧ Matches sha3 n' T')

end

section
variable {sha3 : Bytes → Hash} {pdb : Kv}

theorem Located.node {pre : Bytes} {c : UInt8 → StemTree} (h : Located sha3 pre (.node c))
    (i : UInt8) : Located sha3 (pre ++ [i]) (c i) := by
  intro q n hq
  rw [h (i :: q) n hq]
  simp

theorem Located.run {pre s : Bytes} {t : StemTree} (h : Located sha3 pre (.run s t)) :
    Located sha3 (pre ++ s) t := by
  intro q n hq
  rw [h (s ++ q) n (by simpa [Radix.find] using hq)]
  simp

theorem Reads.child {t : VerkleTree} {c : UInt8 → StemTree} (h : Reads sha3 pdb t (.node c))
    (i : UInt8) : Reads sha3 pdb t (c i) := fun u hu => h u (.inr ⟨i, hu⟩)

theorem Reads.behind {t : VerkleTree} {s : Bytes} {u : StemTree}
    (h : Reads sha3 pdb t (.run s u)) : Reads sha3 pdb t u := fun v hv => h v (.inr hv)

theorem stores_append (t : VerkleTree) (L L' : List TreeNode) :
    t.stores sha3 (L ++ L') = (t.stores sha3 L).stores sha3 L' := List.foldl_append ..

theorem extensionChild_spec {t : VerkleTree} {n : TreeNode} {s : Bytes} {u : StemTree}
    (hm : Matches sha3 n (.run s u)) (hr : Reads sha3 pdb t (.run s u)) (hu : u ≠ .empty) :
    t.extensionChild pdb n = some (nodeOf sha3 u) := by
  cases hm with
  | extension => rfl
  | extensionRef => exact hr u (.inr (Radix.mem_subs_self hu))

variable (sha3) in
theorem top_leaf (r : Bytes) (n : LeafNode) : Top sha3 (.leaf n) (.leaf r n) :=
  top_nodeOf fun h => nomatch h

/-! ## From a child to its parent -/

variable {n m : TreeNode} {L : List TreeNode}

theorem hash_update (c : UInt8 → StemTree) (i : UInt8) (T' : StemTree) :
    (fun j => StemTree.hash sha3 (update c i T' j)) =
      update (fun j => StemTree.hash sha3 (c j)) i (StemTree.hash sha3 T') := by
  funext j
  by_cases hj : j = i
  · subst hj; simp
  · simp [hj]

section
variable {c : UInt8 → StemTree} {i : UInt8} {T' : StemTree}

theorem Wrote.complete_node (h : Wrote sha3 (c i) T' L) {u : StemTree}
    (hu : ∃ j, u ∈ Radix.subs (update c i T' j)) :
    (∃ u' ∈ Radix.subs (.node c), nodeOf sha3 u' = nodeOf sha3 u) ∨
      ∃ m ∈ L, Top sha3 m u := by
  obtain ⟨j, hj⟩ := hu
  by_cases hji : j = i
  · subst hji
    rw [update_self] at hj
    rcases h.complete u hj with ⟨u', hu', heq⟩ | hm
    · exact .inl ⟨u', .inr ⟨j, hu'⟩, heq⟩
    · exact .inr hm
  · rw [update_of_ne hji] at hj
    exact .inl ⟨u, .inr ⟨j, hj⟩, rfl⟩

theorem Wrote.sound_node (h : Wrote sha3 (c i) T' L) (hm : m ∈ L) :
    m.Loaded ∧ ((∃ u ∈ Radix.subs (.node (update c i T')), Top sha3 m u)
      ∨ m = emptyInternal) := by
  obtain ⟨hl, ⟨u, hu, hmu⟩ | he⟩ := h.sound m hm
  · exact ⟨hl, .inl ⟨u, .inr ⟨i, by simpa using hu⟩, hmu⟩⟩
  · exact ⟨hl, .inr he⟩

/-- The parent of a changed child: the child and the parent are stored. -/
theorem Wrote.node {K : List TreeNode} (h : Wrote sha3 (c i) T' L)
    (hK : ∀ m ∈ K, m.Loaded ∧ Top sha3 m T') : Wrote sha3 (.node c) (.node (update c i T'))
      (L ++ (K ++ [.internal fun j => StemTree.hash sha3 (update c i T' j)])) := by
  constructor
  · intro m hm
    rcases List.mem_append.mp hm with hm | hm
    · exact h.sound_node hm
    · rcases List.mem_append.mp hm with hm | hm
      · obtain ⟨hl, hmt⟩ := hK m hm
        refine ⟨hl, .inl ⟨T', .inr ⟨i, ?_⟩, hmt⟩⟩
        simpa using Radix.mem_subs_self hmt.1
      · obtain rfl := List.mem_singleton.mp hm
        exact ⟨trivial, .inl ⟨_, Set.mem_insert .., top_nodeOf fun h => nomatch h⟩⟩
  · rintro u (rfl | hu)
    · exact .inr ⟨_, List.mem_append_right _ (List.mem_append_right _ (List.mem_singleton.mpr rfl)),
        top_nodeOf fun h => nomatch h⟩
    · rcases h.complete_node hu with hold | ⟨m, hm, hmu⟩
      · exact .inl hold
      · exact .inr ⟨m, List.mem_append_left _ hm, hmu⟩

/-- The parent of a child whose hash did not change is not stored again. -/
theorem Wrote.node_same (h : Wrote sha3 (c i) T' L)
    (heq : StemTree.hash sha3 T' = StemTree.hash sha3 (c i)) :
    Wrote sha3 (.node c) (.node (update c i T')) L := by
  refine ⟨fun m hm => h.sound_node hm, ?_⟩
  rintro u (rfl | hu)
  · refine .inl ⟨.node c, Set.mem_insert .., ?_⟩
    rw [nodeOf, nodeOf, hash_update, heq, update_eq_self]
  · exact h.complete_node hu

end

theorem wrote_leaf (T : StemTree) (r : Bytes) (n : LeafNode) :
    Wrote sha3 T (.leaf r n) [.leaf n] := by
  constructor
  · intro m hm
    obtain rfl := List.mem_singleton.mp hm
    exact ⟨trivial, .inl ⟨_, rfl, top_leaf sha3 r n⟩⟩
  · intro u hu
    obtain rfl := Set.mem_singleton_iff.mp hu
    exact .inr ⟨_, List.mem_singleton.mpr rfl, top_leaf sha3 r n⟩

section
variable {s : Bytes} {t T T' : StemTree} {L : List TreeNode}

theorem Wrote.behind (h : Wrote sha3 t T' L) : Wrote sha3 (.run s t) T' L :=
  ⟨h.sound, fun u hu => (h.complete u hu).imp_left fun ⟨u', hu', heq⟩ => ⟨u', .inr hu', heq⟩⟩

theorem Wrote.sound_run (h : Wrote sha3 T T' L) (hm : m ∈ L) :
    m.Loaded ∧ ((∃ u ∈ Radix.subs (.run s T'), Top sha3 m u) ∨ m = emptyInternal) := by
  obtain ⟨hl, ⟨u, hu, hmu⟩ | he⟩ := h.sound m hm
  · exact ⟨hl, .inl ⟨u, .inr hu, hmu⟩⟩
  · exact ⟨hl, .inr he⟩

theorem Wrote.run {child : TreeNode} (h : Wrote sha3 T T' L) (hc : Top sha3 child T') :
    Wrote sha3 T (.run s T') (L ++ [.extension (copyInto 31 s) s.length child]) := by
  have hte := top_extension hc s
  constructor
  · intro m hm
    rcases List.mem_append.mp hm with hm | hm
    · exact h.sound_run hm
    · obtain rfl := List.mem_singleton.mp hm
      exact ⟨trivial, .inl ⟨_, Set.mem_insert .., hte⟩⟩
  · rintro u (rfl | hu)
    · exact .inr ⟨_, by simp, hte⟩
    · exact (h.complete u hu).imp_right fun ⟨m, hm, hmu⟩ => ⟨m, List.mem_append_left _ hm, hmu⟩

theorem Wrote.run_same (h : Wrote sha3 t T' L) (heq : StemTree.hash sha3 T' = StemTree.hash sha3 t)
    : Wrote sha3 (.run s t) (.run s T') L := by
  refine ⟨fun m hm => h.sound_run hm, ?_⟩
  rintro u (rfl | hu)
  · refine .inl ⟨.run s t, Set.mem_insert .., ?_⟩
    rw [nodeOf, nodeOf, heq]
  · exact h.behind.complete u hu

end

end

end Qau
