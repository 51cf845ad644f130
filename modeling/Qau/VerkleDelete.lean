import Qau.VerkleInsert

/-!
# The simulation of `delete`

Under `Matches` and `Reads`, one call of `delete` is `Radix.remove`
(`deleteNode_spec`). The code decides by comparing hashes with zero
whether a slot or a whole node is empty, so the simulation needs that no
message it hashes has the zero digest; nothing else about SHA3-256 enters.
-/

namespace Qau

open Function Radix StemTree VerkleTree LeafNode

variable {key p : Bytes} {L : List TreeNode} {stem : Stem} {T : StemTree} {t : VerkleTree}
  {u T' : StemTree} {n : TreeNode} {r : Option TreeNode}

section
variable {sha3 : Bytes → Hash} {pdb : Kv}

/-! ## Hashes and emptiness -/

theorem Wrote.refl (T : StemTree) : Wrote sha3 T T [] :=
  ⟨fun _ h => (nomatch h), fun u hu => .inl ⟨u, hu, rfl⟩⟩

theorem Reads.hash_ne_zero (h : Reads sha3 pdb t T) (hu : u ∈ subs T) : hash sha3 u ≠ zeroHash := by
  intro h0
  have hget := h u hu
  rw [h0, getNode, if_pos rfl] at hget
  cases hget

theorem mem_slots (i : UInt8) : i ∈ slots := by
  have hi : i.toNat < slots.length := by rw [slots_length]; exact i.toNat_lt
  exact slots_getElem i hi ▸ List.getElem_mem hi

theorem allEmpty_iff {children : UInt8 → Hash} :
    allEmpty children = true ↔ ∀ i, children i = zeroHash := by
  simp only [allEmpty, List.all_eq_true, decide_eq_true_eq]
  exact ⟨fun h i => h i (mem_slots i), fun h i _ => h i⟩

theorem storeNode_hashed (t : VerkleTree) (n : TreeNode) :
    (t.storeNode sha3 n).hashed = n.message sha3 :: t.hashed := by
  simp only [storeNode]
  split <;> rfl

theorem mem_stores_hashed : ∀ {t : VerkleTree} {m : Bytes}, m ∈ (t.stores sha3 L).hashed ↔
      m ∈ t.hashed ∨ ∃ n ∈ L, m = n.message sha3 := by
  induction L with
  | nil => intro t m; simp [stores]
  | cons n L ih =>
    intro t m
    have hstep : t.stores sha3 (n :: L) = (t.storeNode sha3 n).stores sha3 L := rfl
    rw [hstep, ih, storeNode_hashed]
    simp only [List.mem_cons]
    constructor
    · rintro ((rfl | h) | ⟨k, hk, rfl⟩)
      · exact .inr ⟨n, .inl rfl, rfl⟩
      · exact .inl h
      · exact .inr ⟨k, .inr hk, rfl⟩
    · rintro (h | ⟨k, rfl | hk, rfl⟩)
      · exact .inl (.inr h)
      · exact .inl (.inl rfl)
      · exact .inr ⟨k, hk, rfl⟩

/-- Messages of digest zero are all a written tree could confuse with the
empty one. -/
theorem Wrote.hash_ne_zero (h : Wrote sha3 T T' L) (hr : Reads sha3 pdb t T) (hne : T' ≠ .empty)
    (hz : ∀ m ∈ (t.stores sha3 L).hashed, sha3 m ≠ zeroHash) : hash sha3 T' ≠ zeroHash := by
  rcases h.complete T' (mem_subs_self hne) with ⟨u, hu, heq⟩ | ⟨m, hm, htop⟩
  · rw [← hash_eq_of_nodeOf_eq (subs_ne_empty hu) hne heq]
    exact hr.hash_ne_zero hu
  · rw [← htop.hash_eq, TreeNode.hash_eq]
    exact hz _ (mem_stores_hashed.mpr (.inr ⟨m, hm, rfl⟩))

theorem deleteEntry_of_not_stores {n n' : LeafNode}
    (h : n.deleteEntry sha3 key = some n') (hs : n.deleteStores key = false) : n' = n := by
  unfold deleteEntry at h
  unfold deleteStores at hs
  by_cases hk : n.key = key
  · rw [if_pos hk] at h hs
    rw [Bool.not_eq_false', Std.ExtTreeMap.isEmpty_iff] at hs
    rw [hs] at h
    cases h
  · rw [if_neg hk] at h hs
    have hslot : n.suffixValues[keyToSuffix key]? = none := by
      rw [Std.ExtTreeMap.getElem?_eq_none_of_contains_eq_false hs]
    rw [Fmap.erase_of_getElem?_eq_none hslot] at h
    exact (Option.some.inj h).symm

variable (sha3) in
/-- The result of a deletion: nothing for the empty tree, else its top. -/
def Left (n : TreeNode) (T' : StemTree) (r : Option TreeNode) : Prop :=
  (r = none ∧ T' = .empty) ∨
    ∃ n', r = some n' ∧ Top sha3 n' T' ∧ (n' = n ∨ (n'.Loaded ∧ Matches sha3 n' T'))

theorem deleteNode_extension {s pre : Bytes} (h : AtRun sha3 pdb t stem s u n pre p) (fuel : Nat)
    (key : Bytes) : t.deleteNode sha3 pdb (fuel + 1) (some n) stem key pre.length =
      if s <+: stem.toList.drop pre.length then
        match t.deleteNode sha3 pdb fuel (some (nodeOf sha3 u)) stem key (pre.length + s.length) with
        | (none, t) => (none, t)
        | (some newChild, t) =>
          let ext := TreeNode.extension (copyInto 31 s) s.length newChild
          (some ext, t.storeNode sha3 ext)
      else (some n, t) := by
  have hm := h.node
  have hchild := h.child
  rcases hd : t.deleteNode sha3 pdb fuel (some (nodeOf sha3 u)) stem key (pre.length + s.length)
    with ⟨_ | newChild, t'⟩ <;>
    cases hm <;> simp only [deleteNode, if_neg h.guard, h.take, hchild, hd]

theorem deleteNode_internal {t1 : VerkleTree} (children : UInt8 → Hash) {idx : UInt8}
    {child : TreeNode} {fuel depth : Nat} (hidx : stem.toList[depth]? = some idx)
    (hne : children idx ≠ zeroHash) (hget : t.getNode pdb (children idx) = some child)
    (hrec : t.deleteNode sha3 pdb fuel (some child) stem key (depth + 1) = (r, t1)) :
    t.deleteNode sha3 pdb (fuel + 1) (some (.internal children)) stem key depth =
      let newChildHash := (r.map (TreeNode.hash sha3)).getD zeroHash
      if newChildHash = children idx then (some (.internal children), t1)
      else
        let children' := update children idx newChildHash
        (if allEmpty children' then none else some (.internal children'),
          t1.stores sha3 (r.toList ++ [.internal children'])) := by
  have hall : allEmpty children = false := by
    rw [Bool.eq_false_iff, ne_eq, allEmpty_iff]
    exact fun h => hne (h idx)
  simp only [deleteNode, hidx, if_neg hne, hget, hrec, hall]
  cases r <;> rfl

theorem Wrote.nothing (h : Wrote sha3 T .empty L) : Wrote sha3 T' .empty L := by
  refine ⟨fun m hm => ?_, fun u hu => hu.elim⟩
  obtain ⟨hl, ⟨u, hu, -⟩ | he⟩ := h.sound m hm
  · exact hu.elim
  · exact ⟨hl, .inr he⟩

/-- The internal case of `delete`, from what the call on the child did. -/
theorem node_case {c : UInt8 → StemTree} {i : UInt8} {g : LeafNode → Option LeafNode}
    (hr : Reads sha3 pdb t (.node c)) (hci : c i ≠ .empty)
    (hw : Wrote sha3 (c i) (remove g (c i) p) L)
    (hleft : Left sha3 (nodeOf sha3 (c i)) (remove g (c i) p) r)
    (hz : ∀ m ∈ (t.stores sha3 L).hashed, sha3 m ≠ zeroHash) :
    ∃ r' L', (let newChildHash := (r.map (TreeNode.hash sha3)).getD zeroHash
        if newChildHash = hash sha3 (c i) then
          (some (.internal fun i => hash sha3 (c i)), t.stores sha3 L)
        else
          let children' := update (fun i => hash sha3 (c i)) i newChildHash
          (if allEmpty children' then none else some (.internal children'),
            (t.stores sha3 L).stores sha3 (r.toList ++ [.internal children'])))
          = (r', t.stores sha3 L') ∧
      Wrote sha3 (.node c) (remove g (.node c) (i :: p)) L' ∧
      Left sha3 (.internal fun i => hash sha3 (c i))
        (remove g (.node c) (i :: p)) r' := by
  rw [remove]
  generalize remove g (c i) p = T' at hw hleft
  have hne0 := hr.hash_ne_zero (.inr ⟨i, mem_subs_self hci⟩)
  have hhash : (r.map (TreeNode.hash sha3)).getD zeroHash = hash sha3 T' := by
    rcases hleft with ⟨rfl, rfl⟩ | ⟨n', rfl, htop, -⟩
    · rfl
    · exact htop.hash_eq
  simp only [hhash]
  by_cases hsame : hash sha3 T' = hash sha3 (c i)
  · have hT' : T' ≠ .empty := by
      rintro rfl
      exact hne0 hsame.symm
    rw [if_pos hsame, prune_of_occupied ⟨i, by simpa using hT'⟩]
    refine ⟨_, L, rfl, hw.node_same hsame, .inr ⟨_, rfl, ⟨by simp, ?_⟩, .inl rfl⟩⟩
    show TreeNode.internal _ = TreeNode.internal _
    rw [hash_update, hsame, update_eq_self]
  · rw [if_neg hsame, ← hash_update, ← stores_append]
    have hslot : ∀ j, hash sha3 (update c i T' j) = zeroHash →
        update c i T' j = .empty := by
      intro j hj
      by_contra hne
      by_cases hji : j = i
      · subst hji
        rw [update_self] at hj hne
        exact hw.hash_ne_zero (hr.child j) hne hz hj
      · rw [update_of_ne hji] at hj hne
        exact hr.hash_ne_zero (.inr ⟨j, mem_subs_self hne⟩) hj
    by_cases hall : ∀ j, update c i T' j = .empty
    · have hT' : T' = .empty := by simpa using hall i
      subst hT'
      have hr0 : r = none := by
        rcases hleft with ⟨h, -⟩ | ⟨n', -, htop, -⟩
        · exact h
        · exact absurd rfl htop.1
      have hzero : (fun j => hash sha3 (update c i .empty j))
          = fun _ => zeroHash := by
        funext j
        rw [hall j]
        rfl
      rw [hzero, if_pos (allEmpty_iff.mpr fun _ => rfl), prune, if_pos hall, hr0]
      exact ⟨_, _, rfl, ⟨forall_mem_snoc hw.sound ⟨trivial, .inr rfl⟩, fun u hu => hu.elim⟩,
        .inl ⟨rfl, rfl⟩⟩
    · have hnot : ¬ allEmpty (fun j => hash sha3 (update c i T' j)) = true := by
        rw [allEmpty_iff]
        exact fun h => hall fun j => hslot j (h j)
      rw [if_neg hnot, prune, if_neg hall]
      have hK : ∀ m ∈ r.toList, m.Loaded ∧ Top sha3 m T' := by
        intro m hm
        rcases hleft with ⟨rfl, -⟩ | ⟨n', rfl, htop, hfresh⟩
        · cases hm
        · obtain rfl := List.mem_singleton.mp hm
          rcases hfresh with rfl | ⟨hl, -⟩
          · exact absurd (htop.hash_eq.symm.trans (hash_nodeOf hci)) hsame
          · exact ⟨hl, htop⟩
      exact ⟨_, _, rfl, hw.node hK,
        .inr ⟨_, rfl, top_nodeOf (by simp), .inr ⟨trivial, .internal⟩⟩⟩

/-- One call of `delete` is `Radix.remove`, as long as it hashes no message
to zero. -/
theorem deleteNode_spec {fuel : Nat} {pre : Bytes} (h : Descends sha3 pdb t stem T fuel n pre p)
    (hz : ∀ m ∈ (t.deleteNode sha3 pdb fuel (some n) stem key pre.length).2.hashed,
      sha3 m ≠ zeroHash) :
    ∃ r L, t.deleteNode sha3 pdb fuel (some n) stem key pre.length = (r, t.stores sha3 L) ∧
      Wrote sha3 T (remove (deleteEntry sha3 · key) T p) L ∧
      Left sha3 n (remove (deleteEntry sha3 · key) T p) r := by
  induction h using Descends.rule with
  | leaf r n fuel pre p h =>
    cases hdel : n.deleteEntry sha3 key with
    | none =>
      refine ⟨none, [], ?_, ?_, .inl ⟨rfl, ?_⟩⟩
      · simp only [deleteNode, hdel]
        rfl
      · simp only [remove, hdel]
        exact ⟨by simp, fun u hu => hu.elim⟩
      · simp only [remove, hdel]
    | some n' =>
      simp only [deleteNode, hdel, remove]
      cases hst : n.deleteStores key with
      | true =>
        exact ⟨_, [.leaf n'], rfl, wrote_leaf _ r n',
          .inr ⟨_, rfl, top_leaf sha3 r n', .inr ⟨trivial, .leaf⟩⟩⟩
      | false =>
        obtain rfl := deleteEntry_of_not_stores hdel hst
        exact ⟨_, [], rfl, Wrote.refl _, .inr ⟨_, rfl, top_leaf sha3 r _, .inl rfl⟩⟩
  | slot c fuel pre i p h hidx hci hget =>
    have h0 : hash sha3 (c i) = zeroHash := by rw [hci]; rfl
    have hrem : remove (deleteEntry sha3 · key) (.node c) (i :: p) = .node c := by
      obtain ⟨-, -, -, hocc⟩ := h.wf
      have hupd : update c i
          (remove (deleteEntry sha3 · key) (c i) p) = c := by
        rw [hci, remove, ← hci, update_eq_self]
      rw [remove, hupd, prune_of_occupied hocc]
    rw [hrem]
    refine ⟨_, [], ?_, Wrote.refl _, .inr ⟨_, rfl, top_nodeOf (by simp), .inl rfl⟩⟩
    simp only [deleteNode, hidx, if_pos h0]
    rfl
  | child c fuel pre i p h h' hidx hci hget ih =>
    have hne0 := h.reads.hash_ne_zero (.inr ⟨i, mem_subs_self hci⟩)
    rw [List.length_append] at ih
    cases hdel : t.deleteNode sha3 pdb fuel (some (nodeOf sha3 (c i))) stem key
      (pre.length + 1) with
    | mk r t1 =>
    rw [deleteNode_internal (fun i => hash sha3 (c i)) hidx hne0 hget hdel] at hz ⊢
    have hz1 : ∀ m ∈ t1.hashed, sha3 m ≠ zeroHash := by
      intro m hm
      refine hz m ?_
      simp only
      split
      · exact hm
      · exact mem_stores_hashed.mpr (.inl hm)
    obtain ⟨r', L, heq, hw, hleft⟩ := ih (by simpa [hdel] using hz1)
    obtain ⟨rfl, rfl⟩ := Prod.mk.inj (hdel.symm.trans heq)
    exact node_case h.reads hci hw hleft hz1
  | run s u fuel n pre q h h' hrun hpre ih =>
    rw [List.length_append] at ih
    rw [deleteNode_extension hrun, if_pos hpre] at hz ⊢
    cases hdel : t.deleteNode sha3 pdb fuel (some (nodeOf sha3 u)) stem key
      (pre.length + s.length) with
    | mk r t1 =>
    rw [hdel] at hz
    have hz1 : ∀ m ∈ t1.hashed, sha3 m ≠ zeroHash := by
      intro m hm
      refine hz m ?_
      cases r with
      | none => exact hm
      | some newChild => rw [storeNode_hashed]; exact List.mem_cons_of_mem _ hm
    obtain ⟨r', L, heq, hw, hleft⟩ := ih (by simpa [hdel] using hz1)
    obtain ⟨rfl, rfl⟩ := Prod.mk.inj (hdel.symm.trans heq)
    simp only [remove, strip_append]
    rcases hleft with ⟨rfl, hempty⟩ | ⟨n', rfl, htop', -⟩
    · rw [hempty] at hw ⊢
      exact ⟨none, L, rfl, hw.nothing, .inl ⟨rfl, rfl⟩⟩
    · have hnode' := (remove_isNode_or_empty h.wf.2.1 q).resolve_left htop'.1
      have hhang : hang s (remove (deleteEntry sha3 · key) u q)
          = .run s (remove (deleteEntry sha3 · key) u q) := by
        cases hrem : remove (deleteEntry sha3 · key) u q with
        | empty => exact absurd hrem htop'.1
        | _ => rfl
      rw [hhang]
      refine ⟨_, _, ?_, hw.behind.run htop', .inr ⟨_, rfl, top_extension htop' s, .inr ⟨trivial, ?_⟩⟩⟩
      · rw [stores_append]
        rfl
      · rw [htop'.eq_nodeOf hnode']
        exact .extension
  | leave s u fuel n pre p h hrun hpre hstrip =>
    rw [deleteNode_extension hrun, if_neg hpre]
    simp only [remove, hstrip]
    exact ⟨some n, [], rfl, Wrote.refl _, .inr ⟨n, rfl, h.node.top h.wf, .inl rfl⟩⟩

end

end Qau
